import UntypedLambda.Proofs.AlphaEquivalence
import UntypedLambda.Proofs.Nameless.Redex

/-!
# Why substitution and comparison end

Neither of the two goes on with parts of what it was given only. A substitution that meets a capture
is called again on a body in which a name has been changed, and a comparison gives the right body
the name of the left one first. Both calls are on the result of a substitution.

That result is no larger than what went in, because a variable is put in for a variable. More than
that, the tree is the same with other names in it (`sameShape_substitute`): the change may meet
captures of its own and draw further names, but each abstraction that it meets becomes an
abstraction again.

To speak of calls, the recursion has to be opened. A `Round` is what a recursive function does
between its calls: it ends with a result, or it calls and goes on with what is returned. Both
functions are written down as rounds here, without mention of themselves, and are what the rounds
make them (`result_substituteRound`, `result_alphaEquivRound`). Each call of a round is on smaller
expressions, and from that it follows once for both of them that the calls come to an end, nested no
deeper than there are nodes (`runNested_eq_some`).
-/

namespace UntypedLambda

/-! ### Recursion, one round at a time -/

/-- What a recursive function does with one argument: it ends with a result, or it calls itself and
goes on with what the call returns. -/
inductive Round (α β : Type) where
  | done (value : β)
  | call (argument : α) (resume : β → Round α β)

namespace Round

variable {α β : Type}

/-- The result, if `f` answers the calls. -/
def result (f : α → β) : Round α β → β
  | done value => value
  | call argument resume => (resume (f argument)).result f

/-- The arguments of the calls, in order, if `f` answers them. -/
def calls (f : α → β) : Round α β → List α
  | done _ => []
  | call argument resume => argument :: (resume (f argument)).calls f

/-- The result, if `f` answers the calls and may fail to. -/
def result? (f : α → Option β) : Round α β → Option β
  | done value => some value
  | call argument resume => (f argument).bind fun value ↦ (resume value).result? f

/-- Runs the function with these rounds. There is no result if calls are nested deeper than
`depth`. -/
def runNested (round : α → Round α β) : Nat → α → Option β
  | 0, _ => none
  | depth + 1, argument => (round argument).result? (runNested round depth)

/-- Only the answers to the calls that are made count. -/
theorem result?_eq_some {f : α → β} {g : α → Option β} {r : Round α β}
    (h : ∀ argument ∈ r.calls f, g argument = some (f argument)) :
    r.result? g = some (r.result f) := by
  induction r with
  | done value => rfl
  | call argument resume ih =>
    obtain ⟨hfirst, hrest⟩ := List.forall_mem_cons.1 h
    rw [result?, hfirst]
    exact ih (f argument) hrest

/-- If each call is on an argument of smaller weight, then the rounds come to an end, nested no
deeper than the weight. -/
theorem runNested_eq_some {f : α → β} {round : α → Round α β} (weight : α → Nat)
    (hresult : ∀ argument, (round argument).result f = f argument)
    (hpos : ∀ argument, 0 < weight argument)
    (hcalls : ∀ argument, ∀ inner ∈ (round argument).calls f, weight inner < weight argument)
    (argument : α) : runNested round (weight argument) argument = some (f argument) := by
  suffices h : ∀ depth argument, weight argument ≤ depth →
      runNested round depth argument = some (f argument) from h _ argument (Nat.le_refl _)
  intro depth
  induction depth with
  | zero =>
    intro argument hle
    have hweight := hpos argument
    omega
  | succ depth ih =>
    intro argument hle
    rw [runNested, ← hresult argument]
    refine result?_eq_some fun inner hinner ↦ ih inner ?_
    have hsmaller := hcalls argument inner hinner
    omega

end Round

namespace Expr

open Nameless (Position)

/-! ### The shape of an expression -/

/-- The kinds of node. -/
inductive NodeKind where
  | leaf
  | abstraction
  | application
deriving DecidableEq, Repr

/-- The kind of the node at a place, if one stands there. -/
def kindAt? : Expr → Position → Option NodeKind
  | var _, [] => some .leaf
  | lam _ _, [] => some .abstraction
  | app _ _, [] => some .application
  | lam _ body, .body :: p => body.kindAt? p
  | app f _, .operator :: p => f.kindAt? p
  | app _ a, .operand :: p => a.kindAt? p
  | _, _ => none

/-- Nodes of the same kind stand at the same places. -/
def SameShape (e e' : Expr) : Prop := ∀ p, e'.kindAt? p = e.kindAt? p

namespace SameShape

theorem refl (e : Expr) : SameShape e e := fun _ ↦ rfl

theorem trans {e₁ e₂ e₃ : Expr} (h : SameShape e₁ e₂) (h' : SameShape e₂ e₃) : SameShape e₁ e₃ :=
  fun p ↦ (h' p).trans (h p)

theorem vars (x y : Name) : SameShape (var x) (var y) := by
  rintro (- | ⟨d, p⟩) <;> rfl

theorem lam (x x' : Name) {body body' : Expr} (h : SameShape body body') :
    SameShape (lam x body) (lam x' body') := by
  rintro (- | ⟨- | - | -, p⟩)
  case cons.body => exact h p
  all_goals rfl

theorem app {f f' a a' : Expr} (hf : SameShape f f') (ha : SameShape a a') :
    SameShape (app f a) (app f' a') := by
  rintro (- | ⟨- | - | -, p⟩)
  case cons.operator => exact hf p
  case cons.operand => exact ha p
  all_goals rfl

/-- Expressions of the same shape have the same number of nodes. -/
theorem size_eq {e e' : Expr} (h : SameShape e e') : e'.size = e.size := by
  induction e generalizing e' with
  | var x =>
    cases e' with
    | var y => rfl
    | lam y body => cases h []
    | app g b => cases h []
  | lam x body ih =>
    cases e' with
    | var y => cases h []
    | lam y body' => rw [size, size, ih fun p ↦ h (.body :: p)]
    | app g b => cases h []
  | app f a ihf iha =>
    cases e' with
    | var y => cases h []
    | lam y body => cases h []
    | app g b =>
      rw [size, size, ihf fun p ↦ h (.operator :: p), iha fun p ↦ h (.operand :: p)]

end SameShape

/-- A variable in the place of a variable does not change the shape, whatever the names are. -/
theorem sameShape_substitute {x : Name} {r e : Expr} {s : Supply} (hr : r.isVar = true) :
    SameShape e (substitute x r e s).1 := by
  induction x, r, e, s using substitute_induction with
  | var x r y s =>
    rw [substitute_var]
    split
    · cases r with
      | var z => exact .vars y z
      | lam z body => cases hr
      | app f a => cases hr
    · exact .refl _
  | app x r f a s ihf iha =>
    rw [substitute_app]
    exact (ihf hr).app (iha hr)
  | shadowed x r body s =>
    rw [substitute_shadowed]
    exact .refl _
  | captured x r y body s hyx hfree ihrename ih =>
    -- the body is changed twice, and the first change is one of a variable as well
    rw [substitute_captured hyx hfree]
    exact ((ihrename rfl).trans (ih hr)).lam y (s.fresh y)
  | plain x r y body s hyx hfree ih =>
    rw [substitute_plain hyx hfree]
    exact (ih hr).lam y y

/-! ### The number of nodes of the parts -/

theorem size_pos (e : Expr) : 0 < e.size := by
  cases e <;> exact Nat.succ_pos _

theorem size_body_lt (x : Name) (body : Expr) : body.size < (lam x body).size :=
  Nat.lt_succ_self _

theorem size_operator_lt (f a : Expr) : f.size < (app f a).size := by
  rw [size]
  omega

theorem size_operand_lt (f a : Expr) : a.size < (app f a).size := by
  rw [size]
  omega

/-- A renamed body is no part of the abstraction, but it has the shape of one. -/
theorem size_renamed_lt (x y z : Name) (body : Expr) (s : Supply) :
    (substitute x (var y) body s).1.size < (lam z body).size := by
  have hshape : SameShape body (substitute x (var y) body s).1 := sameShape_substitute rfl
  rw [hshape.size_eq]
  exact size_body_lt z body

/-! ### The calls of a substitution -/

/-- What a substitution is called with. -/
structure SubstituteCall where
  name : Name
  replacement : Expr
  target : Expr
  supply : Supply
deriving DecidableEq, Repr

/-- What the call returns. -/
def SubstituteCall.answer (c : SubstituteCall) : Expr × Supply :=
  substitute c.name c.replacement c.target c.supply

/-- One round of substitution. -/
def substituteRound : SubstituteCall → Round SubstituteCall (Expr × Supply)
  | ⟨x, r, var y, s⟩ => .done (if y = x then r else var y, s)
  | ⟨x, r, app f a, s⟩ =>
    .call ⟨x, r, f, s⟩ fun (f', s) ↦
    .call ⟨x, r, a, s⟩ fun (a', s) ↦
    .done (app f' a', s)
  | ⟨x, r, lam y body, s⟩ =>
    if y = x then .done (lam y body, s)
    else if r.isFree y then
      let new := s.fresh y
      .call ⟨y, var new, body, s.advance.note (.renamed y new)⟩ fun (renamed, s) ↦
      .call ⟨x, r, renamed, s⟩ fun (body', s) ↦
      .done (lam new body', s)
    else
      .call ⟨x, r, body, s⟩ fun (body', s) ↦
      .done (lam y body', s)

/-- The call on the renamed body follows the call that renames it. -/
theorem calls_substituteRound_captured {x y : Name} {r : Expr} (hyx : y ≠ x)
    (hfree : r.isFree y = true) (body : Expr) (s : Supply) :
    (substituteRound ⟨x, r, lam y body, s⟩).calls SubstituteCall.answer =
      [⟨y, var (s.fresh y), body, s.advance.note (.renamed y (s.fresh y))⟩,
        ⟨x, r, (freshen y body s).1, (freshen y body s).2⟩] := by
  rw [substituteRound, if_neg hyx, if_pos hfree]
  rfl

theorem result_substituteRound (c : SubstituteCall) :
    (substituteRound c).result SubstituteCall.answer = c.answer := by
  obtain ⟨x, r, e, s⟩ := c
  rw [SubstituteCall.answer]
  cases e with
  | var y =>
    rw [substitute_var, substituteRound]
    split <;> rfl
  | app f a =>
    rw [substitute_app]
    rfl
  | lam y body =>
    rw [substitute_lam, substituteRound]
    split
    · rfl
    · split <;> rfl

/-- Every call is on an expression with fewer nodes. -/
theorem calls_substituteRound_shrink (c : SubstituteCall) :
    ∀ inner ∈ (substituteRound c).calls SubstituteCall.answer,
      inner.target.size < c.target.size := by
  obtain ⟨x, r, e, s⟩ := c
  cases e with
  | var y => nofun
  | app f a =>
    exact List.forall_mem_cons.2
      ⟨size_operator_lt f a, List.forall_mem_singleton.2 (size_operand_lt f a)⟩
  | lam y body =>
    by_cases hyx : y = x
    · rw [substituteRound, if_pos hyx]
      nofun
    rcases hfree : r.isFree y with - | -
    · rw [substituteRound, if_neg hyx, if_neg (by simp [hfree])]
      exact List.forall_mem_singleton.2 (size_body_lt y body)
    · have hrenamed : (freshen y body s).1.size < (lam y body).size :=
        size_renamed_lt y (s.fresh y) y body _
      rw [calls_substituteRound_captured hyx hfree]
      exact List.forall_mem_cons.2 ⟨size_body_lt y body, List.forall_mem_singleton.2 hrenamed⟩

/-! ### The calls of a comparison -/

/-- What a comparison is called with. -/
structure AlphaEquivCall where
  left : Expr
  right : Expr
  supply : Supply
deriving DecidableEq, Repr

/-- What the call returns. -/
def AlphaEquivCall.answer (c : AlphaEquivCall) : Bool × Supply := c.left.alphaEquiv c.right c.supply

/-- One round of comparison. -/
def alphaEquivRound : AlphaEquivCall → Round AlphaEquivCall (Bool × Supply)
  | ⟨var x, var y, s⟩ => .done (x == y, s)
  | ⟨app f a, app g b, s⟩ =>
    .call ⟨f, g, s⟩ fun (same, s) ↦
    if same then .call ⟨a, b, s⟩ .done else .done (false, s)
  | ⟨lam x body, lam y body', s⟩ =>
    if (lam y body').isFree x then .done (false, s)
    else
      let (renamed, s) := substitute y (var x) body' s
      .call ⟨body, renamed, s⟩ .done
  | ⟨_, _, s⟩ => .done (false, s)

theorem result_alphaEquivRound (c : AlphaEquivCall) :
    (alphaEquivRound c).result AlphaEquivCall.answer = c.answer := by
  obtain ⟨a, b, s⟩ := c
  rw [AlphaEquivCall.answer]
  cases a with
  | var x => cases b <;> rfl
  | lam x body =>
    cases b with
    | var y => rfl
    | app g b => rfl
    | lam y body' =>
      rw [alphaEquiv_lam, alphaEquivRound]
      split <;> rfl
  | app f a =>
    cases b with
    | var y => rfl
    | lam y body' => rfl
    | app g b =>
      rw [alphaEquiv_app, alphaEquivRound, Round.result, AlphaEquivCall.answer]
      rcases f.alphaEquiv g s with ⟨- | -, s'⟩ <;> rfl

/-- Every call is on expressions with fewer nodes, on either side. -/
theorem calls_alphaEquivRound_shrink (c : AlphaEquivCall) :
    ∀ inner ∈ (alphaEquivRound c).calls AlphaEquivCall.answer,
      inner.left.size < c.left.size ∧ inner.right.size < c.right.size := by
  obtain ⟨a, b, s⟩ := c
  cases a with
  | var x => cases b <;> nofun
  | lam x body =>
    cases b with
    | var y => nofun
    | app g b => nofun
    | lam y body' =>
      rw [alphaEquivRound]
      split
      · nofun
      · exact List.forall_mem_singleton.2 ⟨size_body_lt x body, size_renamed_lt y x y body' s⟩
  | app f a =>
    cases b with
    | var y => nofun
    | lam y body' => nofun
    | app g b =>
      rw [alphaEquivRound, Round.calls, List.forall_mem_cons]
      refine ⟨⟨size_operator_lt f a, size_operator_lt g b⟩, ?_⟩
      -- the operands are compared only if the operators are equal
      rcases AlphaEquivCall.answer ⟨f, g, s⟩ with ⟨- | -, s'⟩
      · nofun
      · exact List.forall_mem_singleton.2 ⟨size_operand_lt f a, size_operand_lt g b⟩

/-- **Renaming keeps the shape of an expression, so the calls of substitution and comparison get
smaller.** The names are arbitrary, also such as the fresh names to come.

* With a variable put in for a variable, nodes of the same kind stand at the same places as before,
  so there are as many of them.
* A substitution is what its rounds make it, and each call that a round makes is on an expression
  with fewer nodes, the call on a body that has just been renamed among them. So the rounds come to
  an end, nested no deeper than there are nodes.
* The same holds of a comparison, where the expressions on both sides have fewer nodes in each call,
  and the smaller side bounds the depth. -/
theorem renaming_keeps_shape_so_calls_shrink :
    (∀ (x y : Name) (e : Expr) (s : Supply),
      (∀ p, (substitute x (var y) e s).1.kindAt? p = e.kindAt? p) ∧
        (substitute x (var y) e s).1.size = e.size) ∧
    (∀ c : SubstituteCall,
      (substituteRound c).result SubstituteCall.answer = c.answer ∧
      (∀ inner ∈ (substituteRound c).calls SubstituteCall.answer,
        inner.target.size < c.target.size) ∧
      Round.runNested substituteRound c.target.size c = some c.answer) ∧
    ∀ c : AlphaEquivCall,
      (alphaEquivRound c).result AlphaEquivCall.answer = c.answer ∧
      (∀ inner ∈ (alphaEquivRound c).calls AlphaEquivCall.answer,
        inner.left.size < c.left.size ∧ inner.right.size < c.right.size) ∧
      Round.runNested alphaEquivRound (min c.left.size c.right.size) c = some c.answer := by
  refine ⟨fun x y e s ↦ ?_, fun c ↦ ?_, fun c ↦ ?_⟩
  · have hshape : SameShape e (substitute x (var y) e s).1 := sameShape_substitute rfl
    exact ⟨hshape, hshape.size_eq⟩
  · refine ⟨result_substituteRound c, calls_substituteRound_shrink c, ?_⟩
    exact Round.runNested_eq_some (fun c ↦ c.target.size) result_substituteRound
      (fun c ↦ c.target.size_pos) calls_substituteRound_shrink c
  · refine ⟨result_alphaEquivRound c, calls_alphaEquivRound_shrink c, ?_⟩
    refine Round.runNested_eq_some (fun c ↦ min c.left.size c.right.size)
      result_alphaEquivRound (fun c ↦ ?_) (fun c inner hinner ↦ ?_) c
    · exact Nat.lt_min.2 ⟨c.left.size_pos, c.right.size_pos⟩
    · obtain ⟨hleft, hright⟩ := calls_alphaEquivRound_shrink c inner hinner
      omega

/-- The new name of the bound `y` is bound inside already, so the renaming renames in its turn. The
call that follows is on the body with both names changed, which has its old shape. A comparison that
gives the right side the name `y'0` comes to the same body. -/
theorem renaming_keeps_shape_so_calls_shrink_renamed_twice :
    let body := lam "y'0" (app (var "x") (var "y"))
    let renamed := lam "y'1" (app (var "x") (var "y'0"))
    (substitute "y" (var "y'0") body { next := 1 }).1 = renamed ∧
    (∀ p, renamed.kindAt? p = body.kindAt? p) ∧
    ⟨"x", var "y", renamed, { next := 2 }⟩ ∈
      (substituteRound ⟨"x", var "y", lam "y" body, {}⟩).calls SubstituteCall.answer ∧
    renamed.size < (lam "y" body).size ∧
    ⟨body, renamed, { next := 2 }⟩ ∈
      (alphaEquivRound ⟨lam "y'0" body, lam "y" body, { next := 1 }⟩).calls
        AlphaEquivCall.answer ∧
    body.size < (lam "y'0" body).size := by
  intro body renamed
  obtain ⟨hshape, hsubstitute, hcompare⟩ := renaming_keeps_shape_so_calls_shrink
  have hrenamed : (substitute "y" (var "y'0") body { next := 1 }).1 = renamed := by decide +kernel
  have hcall : ⟨"x", var "y", renamed, { next := 2 }⟩ ∈
      (substituteRound ⟨"x", var "y", lam "y" body, {}⟩).calls SubstituteCall.answer := by
    decide +kernel
  have hcompared : ⟨body, renamed, { next := 2 }⟩ ∈
      (alphaEquivRound ⟨lam "y'0" body, lam "y" body, { next := 1 }⟩).calls
        AlphaEquivCall.answer := by
    decide +kernel
  refine ⟨hrenamed, fun p ↦ ?_, hcall, (hsubstitute _).2.1 _ hcall, hcompared,
    ((hcompare _).2.1 _ hcompared).1⟩
  rw [← hrenamed]
  exact (hshape "y" "y'0" body { next := 1 }).1 p

end Expr

end UntypedLambda
