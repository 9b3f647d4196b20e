import UntypedLambda.Proofs.ReductionRun

/-!
# Reduction does not look at the numbers of fresh names

What was evaluated before is seen by a later evaluation in one place only, the number at which the
supply stands. A run from a number larger by `d` is the same run with every `b'k` replaced by
`b'(k + d)` (`trace_shift`).

The replacement is `Supply.shift`, a function on all names, and two laws of it carry the proof.
It is injective, so names that were different stay different and equal ones stay equal; and it
takes the name that one supply draws to the name that the other one draws (`shift_fresh`), since a
stem has no number. Substitution does nothing with names but compare them and draw them, so it
commutes with the replacement, and with it a step and the whole loop. No name has to be safe for
this: where a fresh name clashes with one that is there, its shifted twin clashes too.
-/

namespace UntypedLambda

namespace Supply

/-! ### The number of a fresh name -/

/-- What stands behind the first `'` of a name, read as a number. -/
def tailNumber (x : Name) : Nat :=
  Nat.ofDigitChars 10 ((x.toList.dropWhile (· ≠ '\'')).drop 1) 0

/-- The number of a fresh name. A name is one if it can be written again from its stem and its
number. -/
def number? (x : Name) : Option Nat :=
  if numbered x (tailNumber x) = x then some (tailNumber x) else none

/-- Adds `d` to the number of a fresh name. Other names stay as they are. -/
def shift (d : Nat) (x : Name) : Name :=
  match number? x with
  | some k => numbered x (k + d)
  | none => x

theorem stem_numbered (y : Name) (k : Nat) : stem (numbered y k) = stem y :=
  stem_append (unprimed_stem y) (toString k)

theorem numbered_numbered (y : Name) (k l : Nat) : numbered (numbered y k) l = numbered y l := by
  rw [numbered, stem_numbered, numbered]

theorem numbered_of_number? {x : Name} {k : Nat} (h : number? x = some k) : numbered x k = x := by
  unfold number? at h
  split at h
  · next heq =>
    cases h
    exact heq
  · cases h

theorem tailNumber_numbered (y : Name) (k : Nat) : tailNumber (numbered y k) = k := by
  rw [tailNumber, toList_numbered, List.dropWhile_append_of_pos (unprimed_stem y).forall_ne]
  simp

theorem number?_numbered (y : Name) (k : Nat) : number? (numbered y k) = some k := by
  rw [number?, tailNumber_numbered, if_pos (numbered_numbered y k k)]

theorem number?_of_unprimed {x : Name} (h : Unprimed x) : number? x = none := by
  rcases hx : number? x with - | k
  · rfl
  · rw [← numbered_of_number? hx, numbered] at h
    exact absurd (by simp) h

/-! ### The laws of the shift -/

theorem shift_of_unprimed (d : Nat) {x : Name} (h : Unprimed x) : shift d x = x := by
  rw [shift, number?_of_unprimed h]

theorem shift_numbered (d : Nat) (y : Name) (k : Nat) :
    shift d (numbered y k) = numbered y (k + d) := by
  rw [shift, number?_numbered]
  exact numbered_numbered y k (k + d)

/-- The shift replaces `b'k` by `b'(k + d)`. -/
theorem shift_primed (d : Nat) {b : Name} (hb : Unprimed b) (k : Nat) :
    shift d (b ++ "'" ++ toString k) = b ++ "'" ++ toString (k + d) := by
  have hshift := shift_numbered d b k
  rwa [numbered, numbered, stem_of_unprimed hb] at hshift

theorem shift_zero (x : Name) : shift 0 x = x := by
  rcases hx : number? x with - | k
  · rw [shift, hx]
  · rw [shift, hx]
    exact numbered_of_number? hx

theorem stem_shift (d : Nat) (x : Name) : stem (shift d x) = stem x := by
  rcases hx : number? x with - | k
  · rw [shift, hx]
  · rw [← numbered_of_number? hx, shift_numbered, stem_numbered, stem_numbered]

/-- A supply that stands `d` numbers further draws the shifted names. -/
theorem shift_fresh {d : Nat} {s t : Supply} (h : t.next = s.next + d) (y : Name) :
    shift d (s.fresh y) = t.fresh (shift d y) := by
  rw [fresh, shift_numbered, fresh, h, numbered, numbered, stem_shift]

/-- Different names stay different. -/
theorem shift_injective (d : Nat) : Function.Injective (shift d) := by
  intro x y h
  -- the number of a shifted name says whether there was one before, and which
  rcases hx : number? x with - | k <;> rcases hy : number? y with - | l
  · rwa [shift, hx, shift, hy] at h
  · have hx' : shift d x = x := by rw [shift, hx]
    rw [← hx', h, ← numbered_of_number? hy, shift_numbered, number?_numbered] at hx
    cases hx
  · have hy' : shift d y = y := by rw [shift, hy]
    rw [← hy', ← h, ← numbered_of_number? hx, shift_numbered, number?_numbered] at hy
    cases hy
  · rw [← numbered_of_number? hx, ← numbered_of_number? hy, shift_numbered, shift_numbered] at h
    obtain ⟨hstem, hnumber⟩ := numbered_inj h
    obtain rfl : k = l := Nat.add_right_cancel hnumber
    rw [← numbered_of_number? hx, ← numbered_of_number? hy, numbered, numbered, hstem]

theorem shift_eq_shift_iff {d : Nat} {x y : Name} : shift d x = shift d y ↔ x = y :=
  (shift_injective d).eq_iff

end Supply

/-! ### Shifted expressions -/

namespace Expr

/-- Adds `d` to the number of every fresh name of an expression, bound or not. -/
def shift (d : Nat) : Expr → Expr
  | var x => var (Supply.shift d x)
  | lam x body => lam (Supply.shift d x) (body.shift d)
  | app f a => app (f.shift d) (a.shift d)

theorem shift_of_unprimed (d : Nat) {e : Expr} (h : e.Unprimed) : e.shift d = e := by
  induction e with
  | var x => rw [shift, Supply.shift_of_unprimed d (h x (List.mem_singleton_self x))]
  | lam x body ih =>
    rw [shift, Supply.shift_of_unprimed d (h x List.mem_cons_self),
      ih fun y hy ↦ h y (List.mem_cons_of_mem x hy)]
  | app f a ihf iha =>
    rw [shift, ihf fun y hy ↦ h y (List.mem_append_left _ hy),
      iha fun y hy ↦ h y (List.mem_append_right _ hy)]

theorem shift_zero (e : Expr) : e.shift 0 = e := by
  induction e with
  | var x => rw [shift, Supply.shift_zero]
  | lam x body ih => rw [shift, Supply.shift_zero, ih]
  | app f a ihf iha => rw [shift, ihf, iha]

theorem isLam_shift (d : Nat) (e : Expr) : (e.shift d).isLam = e.isLam := by
  cases e <;> rfl

theorem isReducible_shift (d : Nat) (e : Expr) : (e.shift d).isReducible = e.isReducible := by
  induction e with
  | var x => rfl
  | lam x body ih => exact ih
  | app f a ihf iha => rw [shift, isReducible, isLam_shift, ihf, iha, isReducible]

theorem isFree_shift (d : Nat) (x : Name) (e : Expr) :
    (e.shift d).isFree (Supply.shift d x) = e.isFree x := by
  have hbeq : ∀ y, (Supply.shift d y == Supply.shift d x) = (y == x) := fun y ↦ by
    rw [Bool.eq_iff_iff, beq_iff_eq, beq_iff_eq, Supply.shift_eq_shift_iff]
  induction e with
  | var y => exact hbeq y
  | lam y body ih => rw [shift, isFree, bne, hbeq, ih, isFree, bne]
  | app f a ihf iha => rw [shift, isFree, ihf, iha, isFree]

/-! ### Substitution and steps -/

/-- Substitution commutes with the shift, and it draws as many names. -/
theorem substitute_shift {d : Nat} {s t : Supply} (h : t.next = s.next + d) (x : Name)
    (r e : Expr) :
    (substitute (Supply.shift d x) (r.shift d) (e.shift d) t).1 = (substitute x r e s).1.shift d ∧
      (substitute (Supply.shift d x) (r.shift d) (e.shift d) t).2.next =
        (substitute x r e s).2.next + d := by
  induction x, r, e, s using substitute_induction generalizing t with
  | var x r y s =>
    by_cases hyx : y = x
    · rw [shift, substitute_var, substitute_var, if_pos hyx, if_pos (congrArg _ hyx)]
      exact ⟨rfl, h⟩
    · have hne : Supply.shift d y ≠ Supply.shift d x := fun heq ↦
        hyx (Supply.shift_injective d heq)
      rw [shift, substitute_var, substitute_var, if_neg hyx, if_neg hne]
      exact ⟨rfl, h⟩
  | app x r f a s ihf iha =>
    obtain ⟨hf, hnext⟩ := ihf h
    obtain ⟨ha, hnext'⟩ := iha hnext
    rw [shift, substitute_app, substitute_app]
    exact ⟨congrArg₂ app hf ha, hnext'⟩
  | shadowed x r body s =>
    rw [shift, substitute_shadowed, substitute_shadowed]
    exact ⟨rfl, h⟩
  | captured x r y body s hyx hfree ihrename ih =>
    have hne : Supply.shift d y ≠ Supply.shift d x := fun heq ↦
      hyx (Supply.shift_injective d heq)
    have hfree' : (r.shift d).isFree (Supply.shift d y) = true := by rwa [isFree_shift]
    have hfresh := Supply.shift_fresh h y
    have hrename : (freshen (Supply.shift d y) (body.shift d) t).1 =
          (freshen y body s).1.shift d ∧
        (freshen (Supply.shift d y) (body.shift d) t).2.next = (freshen y body s).2.next + d := by
      rw [freshen, freshen, ← hfresh]
      refine ihrename ?_
      show t.next + 1 = s.next + 1 + d
      omega
    obtain ⟨hbody, hnext⟩ := ih hrename.2
    rw [← hrename.1] at hbody hnext
    rw [shift, substitute_captured hne hfree', substitute_captured hyx hfree, ← hfresh]
    exact ⟨congrArg (lam _) hbody, hnext⟩
  | plain x r y body s hyx hfree ih =>
    have hne : Supply.shift d y ≠ Supply.shift d x := fun heq ↦
      hyx (Supply.shift_injective d heq)
    have hfree' : (r.shift d).isFree (Supply.shift d y) = false := by rwa [isFree_shift]
    obtain ⟨hbody, hnext⟩ := ih h
    rw [shift, substitute_plain hne hfree', substitute_plain hyx hfree]
    exact ⟨congrArg (lam _) hbody, hnext⟩

/-- A step of the shifted expression is the shifted step. -/
theorem Step.shift {d : Nat} {e e' : Expr} {s s' t : Supply} (h : Step e s e' s')
    (ht : t.next = s.next + d) :
    ∃ t', (e.shift d).step? t = some (e'.shift d, t') ∧ t'.next = s'.next + d := by
  induction h with
  | redex x body a s =>
    obtain ⟨hresult, hnext⟩ := substitute_shift ht x a body
    refine ⟨(substitute (Supply.shift d x) (a.shift d) (body.shift d) t).2, ?_, hnext⟩
    rw [← hresult]
    rfl
  | lam x h ih =>
    obtain ⟨t', hstep, hnext⟩ := ih ht
    exact ⟨t', by rw [Expr.shift, step?, hstep, Option.map_some, Expr.shift], hnext⟩
  | operator a hf h ih =>
    obtain ⟨t', hstep, hnext⟩ := ih ht
    refine ⟨t', ?_, hnext⟩
    rw [Expr.shift, step?_app (by rw [isLam_shift, hf]), hstep, Option.map_some, Option.some_or,
      Expr.shift]
  | @operand f a a' s s' hf hnormal h ih =>
    obtain ⟨t', hstep, hnext⟩ := ih ht
    have hnone : (f.shift d).step? t = none :=
      step?_eq_none_iff.2 (by rw [isReducible_shift, hnormal])
    refine ⟨t', ?_, hnext⟩
    rw [Expr.shift, step?_app (by rw [isLam_shift, hf]), hnone, hstep, Option.map_none,
      Option.none_or, Option.map_some, Expr.shift]

end Expr

/-! ### Whole runs -/

/-- Adds `d` to the number of every fresh name in the record of a reduction. -/
def Trace.shift (d : Nat) (t : Trace) : Trace :=
  { t with steps := t.steps.map fun (step, e) ↦ (step, e.shift d) }

theorem Trace.shift_zero (t : Trace) : t.shift 0 = t := by
  simp [Trace.shift, Expr.shift_zero]

theorem Trace.shift_start (d : Nat) (raised : Bool) :
    Trace.shift d { raised } = { raised } := by
  simp [Trace.shift]

namespace Expr

/-- How a reduction ended, and the number at which it left the supply. -/
def ending : Option (Except Halt Expr × Supply) → Option (Except Halt Expr × Nat) :=
  Option.map fun (result, s) ↦ (result, s.next)

/-- The same end, with `d` added to the number of every fresh name. -/
def shiftEnding (d : Nat) : Option (Except Halt Expr × Nat) → Option (Except Halt Expr × Nat) :=
  Option.map fun (result, next) ↦ (result.map (shift d), next + d)

theorem shiftEnding_zero (end? : Option (Except Halt Expr × Nat)) : shiftEnding 0 end? = end? := by
  rcases end? with - | ⟨halt | normal, next⟩
  · rfl
  · rfl
  · simp [shiftEnding, Except.map, shift_zero]

/-- The loop from a supply that stands `d` numbers further goes through the shifted states and
comes to the shifted end. -/
theorem traceFrom_shift {d : Nat} (limit cancelAt : Option Nat) (budget steps : Nat) (e : Expr)
    {s s' : Supply} (hs : s'.next = s.next + d) (t : Trace) :
    (traceFrom limit cancelAt budget steps (e.shift d) s' (t.shift d)).2 =
        (traceFrom limit cancelAt budget steps e s t).2.shift d ∧
      ending (traceFrom limit cancelAt budget steps (e.shift d) s' (t.shift d)).1 =
        shiftEnding d (ending (traceFrom limit cancelAt budget steps e s t).1) := by
  induction budget generalizing steps e s s' t with
  | zero => exact ⟨rfl, rfl⟩
  | succ budget ih =>
    rcases hraised : t.raised with - | -
    · rcases hstep : e.step? s with - | ⟨e₁, s₁⟩
      · have hnormal : e.isReducible = false := step?_eq_none_iff.1 hstep
        have hnormal' : (e.shift d).isReducible = false := by rw [isReducible_shift, hnormal]
        rw [traceFrom_of_normal hraised hnormal,
          traceFrom_of_normal (t := t.shift d) hraised hnormal']
        exact ⟨rfl, congrArg (fun n ↦ some (Except.ok (e.shift d), n)) hs⟩
      · obtain ⟨s₁', hstep', hs₁⟩ := (Step.of_step? hstep).shift hs
        rcases hmet : limitMet limit steps with - | -
        · rw [traceFrom_of_step? hraised hstep hmet,
            traceFrom_of_step? (t := t.shift d) hraised hstep' hmet]
          have hnoted : (s₁'.note (.reduced (steps + 1) (e₁.shift d))).next =
              (s₁.note (.reduced (steps + 1) e₁)).next + d := hs₁
          have hrest := ih (steps + 1) e₁ hnoted
            ⟨t.steps.push (steps + 1, e₁), cancelAt == some (steps + 1)⟩
          rwa [Trace.shift, Array.map_push] at hrest
        · rw [traceFrom_of_limitMet hraised (isReducible_of_step? hstep) hmet,
            traceFrom_of_limitMet (t := t.shift d) hraised (isReducible_of_step? hstep') hmet]
          exact ⟨rfl, congrArg (fun n ↦ some (Except.error (Halt.limitExceeded steps), n)) hs⟩
    · rw [traceFrom_of_raised hraised, traceFrom_of_raised (t := t.shift d) hraised]
      exact ⟨rfl, congrArg (fun n ↦ some (Except.error (Halt.cancelled steps), n)) hs⟩

/-- What is kept in a journal is of no consequence: a reduction runs in the same way from any supply
with the same number. This is the shift by nothing. -/
theorem trace_congr {s t : Supply} (h : s.next = t.next) (limit cancelAt : Option Nat)
    (budget : Nat) (e : Expr) :
    ending (e.trace limit cancelAt budget s).1 = ending (e.trace limit cancelAt budget t).1 ∧
      (e.trace limit cancelAt budget s).2 = (e.trace limit cancelAt budget t).2 := by
  have hnext : s.next = t.next + 0 := h
  have hrun := traceFrom_shift limit cancelAt budget 0 e hnext { raised := cancelAt == some 0 }
  rw [shift_zero, Trace.shift_start] at hrun
  obtain ⟨hrecord, hending⟩ := hrun
  exact ⟨hending.trans (shiftEnding_zero _), hrecord.trans (Trace.shift_zero _)⟩

/-- **What was evaluated before shifts the numbers and does nothing else.** Reduce the expression
that a text stands for, under any limit and any cancellation, once from a supply and once from one
that stands `d` numbers further. The second run has as many steps as the first, reports the shifted
expressions, ends in the same way after as many steps, or in the shifted normal form, and leaves
the supply exactly `d` numbers further. For the shift itself: it replaces `b'k` by `b'(k + d)`, and
it leaves a name without a `'` alone. -/
theorem trace_shift (d : Nat) :
    (∀ (b : Name) (k : Nat), Supply.Unprimed b →
      Supply.shift d b = b ∧
      Supply.shift d (b ++ "'" ++ toString k) = b ++ "'" ++ toString (k + d)) ∧
    ∀ (text : String) (e : Expr), read text = .ok e →
      ∀ (limit cancelAt : Option Nat) (budget : Nat) (s s' : Supply), s'.next = s.next + d →
        (e.trace limit cancelAt budget s').2 = (e.trace limit cancelAt budget s).2.shift d ∧
        ending (e.trace limit cancelAt budget s').1 =
          shiftEnding d (ending (e.trace limit cancelAt budget s).1) := by
  constructor
  · intro b k hb
    exact ⟨Supply.shift_of_unprimed d hb, Supply.shift_primed d hb k⟩
  · intro text e hread limit cancelAt budget s s' hs
    have hrun := traceFrom_shift limit cancelAt budget 0 e hs { raised := cancelAt == some 0 }
    rwa [shift_of_unprimed d (unprimed_of_read hread), Trace.shift_start] at hrun

/-- Two names are drawn here, and one of them is put in place of a variable by a later step. -/
theorem trace_shift_two_names :
    ∃ e : Expr, read "(λx y. (λz y. x z) y) y" = .ok e ∧
      (e.trace none none 3 { next := 7 }).2.steps.size = 2 ∧
      ending (e.trace none none 3 { next := 7 }).1 =
        some (.ok (lam "y'7" (lam "y'8" (app (var "y") (var "y'7")))), 9) := by
  have hread : read "(λx y. (λz y. x z) y) y" =
      .ok (app (lam "x" (lam "y" (app (lam "z" (lam "y" (app (var "x") (var "z")))) (var "y"))))
        (var "y")) := by
    decide +kernel
  obtain ⟨hsteps, hending⟩ :=
    (trace_shift 5).2 _ _ hread none none 3 { next := 2 } { next := 7 } rfl
  refine ⟨_, hread, ?_, ?_⟩
  · rw [hsteps]
    decide +kernel
  · rw [hending]
    decide +kernel

end Expr

end UntypedLambda
