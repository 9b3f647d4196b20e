import UntypedLambda.Expr.Alpha
import UntypedLambda.Proofs.AlphaEquivalence
import UntypedLambda.Proofs.ReductionRun

/-!
# Every name in use is known to the supply

One supply serves all operations, while expressions made at different times are kept, copied and
put together. That a fresh name is new then rests on an invariant of everything that is kept: a
name has no `'`, or it is `b'k` with a number `k` that the supply has passed (`Supply.KnownAt`).

A `Workspace` is all that can be kept: expressions, sequences of reducts, the expressions that have
been reported by a reduction, and the supply. `Workspace.Step` lists what can be done with it, and
the invariant holds in every state that such steps lead to (`names_known_in_every_state`). Each
operation takes its names from the expressions it is given or draws them, between the number at its
start and the number at its end (`Supply.DrawnBetween`); so what it gives is known afterwards, and
what was known before stays known, since the supply only counts up.

A reduction reports its steps while it goes on, and it may go on for ever. The states in between
are states too: a reduction whose budget is spent has reported as many steps as the budget says,
and the supply stands where these steps have left it (`Expr.supplyBehind`). Whoever watches the
reduction can do something else then. Since reported expressions can be kept, to go on with the
reduction after that is to reduce the last of them.
-/

namespace UntypedLambda

namespace Supply

/-! ### Known names -/

/-- A name without a `'`, or a fresh name with a number below `n`. -/
def KnownAt (n : Nat) (x : Name) : Prop :=
  Unprimed x ∨ ∃ (b : Name) (k : Nat), Unprimed b ∧ k < n ∧ x = b ++ "'" ++ toString k

/-- A fresh name with a number from `m` on and below `n`. -/
def DrawnBetween (m n : Nat) (x : Name) : Prop :=
  ∃ (y : Name) (k : Nat), m ≤ k ∧ k < n ∧ x = numbered y k

theorem KnownAt.mono {m n : Nat} {x : Name} (h : KnownAt m x) (hmn : m ≤ n) : KnownAt n x := by
  rcases h with h | ⟨b, k, hb, hk, rfl⟩
  · exact .inl h
  · exact .inr ⟨b, k, hb, Nat.lt_of_lt_of_le hk hmn, rfl⟩

theorem DrawnBetween.knownAt {m n : Nat} {x : Name} (h : DrawnBetween m n x) : KnownAt n x := by
  obtain ⟨y, k, -, hk, rfl⟩ := h
  exact .inr ⟨stem y, k, unprimed_stem y, hk, rfl⟩

theorem DrawnBetween.mono {m m' n n' : Nat} {x : Name} (h : DrawnBetween m n x) (hm : m' ≤ m)
    (hn : n ≤ n') : DrawnBetween m' n' x := by
  obtain ⟨y, k, hmk, hkn, rfl⟩ := h
  exact ⟨y, k, Nat.le_trans hm hmk, Nat.lt_of_lt_of_le hkn hn, rfl⟩

end Supply

namespace Expr

open Supply (DrawnBetween)

/-- Every name of the expression is known at the number `n`. -/
def KnownAt (n : Nat) (e : Expr) : Prop := ∀ x ∈ e.names, Supply.KnownAt n x

theorem KnownAt.mono {m n : Nat} {e : Expr} (h : e.KnownAt m) (hmn : m ≤ n) : e.KnownAt n :=
  fun x hx ↦ (h x hx).mono hmn

theorem Unprimed.knownAt {e : Expr} (h : e.Unprimed) (n : Nat) : e.KnownAt n :=
  fun x hx ↦ .inl (h x hx)

theorem KnownAt.app {n : Nat} {f a : Expr} (hf : f.KnownAt n) (ha : a.KnownAt n) :
    (app f a).KnownAt n := by
  intro x hx
  rcases List.mem_append.1 hx with hx | hx
  · exact hf x hx
  · exact ha x hx

theorem KnownAt.lams {n : Nat} {xs : List Name} {e : Expr}
    (hxs : ∀ x ∈ xs, Supply.Unprimed x) (he : e.KnownAt n) : (lams xs e).KnownAt n := by
  intro x hx
  rw [names_lams, List.mem_append] at hx
  rcases hx with hx | hx
  · exact .inl (hxs x hx)
  · exact he x hx

/-! ### Where names come from -/

/-- The names of a substitution are names of what goes in, or they were drawn on the way. -/
theorem mem_names_substitute {v x : Name} {r e : Expr} {s : Supply}
    (h : x ∈ (substitute v r e s).1.names) :
    x ∈ r.names ∨ x ∈ e.names ∨ DrawnBetween s.next (substitute v r e s).2.next x := by
  induction v, r, e, s using substitute_induction with
  | var v r y s =>
    rw [substitute_var] at h ⊢
    split at h
    · exact .inl h
    · exact .inr (.inl h)
  | app v r f a s ihf iha =>
    have hle := next_le_substitute v r f s
    have hle' := next_le_substitute v r a (substitute v r f s).2
    rw [substitute_app] at h ⊢
    rcases List.mem_append.1 h with h | h
    · rcases ihf h with hr | hf | hdrawn
      · exact .inl hr
      · exact .inr (.inl (List.mem_append_left _ hf))
      · exact .inr (.inr (hdrawn.mono (Nat.le_refl _) hle'))
    · rcases iha h with hr | ha | hdrawn
      · exact .inl hr
      · exact .inr (.inl (List.mem_append_right _ ha))
      · exact .inr (.inr (hdrawn.mono hle (Nat.le_refl _)))
  | shadowed v r body s =>
    rw [substitute_shadowed] at h
    exact .inr (.inl h)
  | captured v r y body s hyv hfree ihrename ih =>
    have hlt := next_lt_freshen y body s
    have hle := next_le_substitute v r (freshen y body s).1 (freshen y body s).2
    have hfresh : DrawnBetween s.next (freshen y body s).2.next (s.fresh y) :=
      ⟨y, s.next, Nat.le_refl _, hlt, rfl⟩
    rw [substitute_captured hyv hfree] at h ⊢
    rcases List.mem_cons.1 h with rfl | h
    · exact .inr (.inr (hfresh.mono (Nat.le_refl _) hle))
    rcases ih h with hr | hrenamed | hdrawn
    · exact .inl hr
    -- a name of the renamed body is the new name, a name of the body, or drawn by the renaming
    · rcases ihrename hrenamed with hnew | hbody | hdrawn
      · obtain rfl : x = s.fresh y := List.mem_singleton.1 hnew
        exact .inr (.inr (hfresh.mono (Nat.le_refl _) hle))
      · exact .inr (.inl (List.mem_cons_of_mem y hbody))
      · exact .inr (.inr (hdrawn.mono (Nat.le_succ _) hle))
    · exact .inr (.inr (hdrawn.mono (Nat.le_of_lt hlt) (Nat.le_refl _)))
  | plain v r y body s hyv hfree ih =>
    rw [substitute_plain hyv hfree] at h ⊢
    rcases List.mem_cons.1 h with rfl | h
    · exact .inr (.inl List.mem_cons_self)
    · rcases ih h with hr | hbody | hdrawn
      · exact .inl hr
      · exact .inr (.inl (List.mem_cons_of_mem y hbody))
      · exact .inr (.inr hdrawn)

/-- The names of a reduct are names of the expression, or they were drawn on the way. -/
theorem Step.mem_names {e e' : Expr} {s s' : Supply} (h : Step e s e' s') {x : Name}
    (hx : x ∈ e'.names) : x ∈ e.names ∨ DrawnBetween s.next s'.next x := by
  induction h with
  | redex v body a s =>
    rcases mem_names_substitute hx with ha | hbody | hdrawn
    · exact .inl (List.mem_append_right _ ha)
    · exact .inl (List.mem_append_left _ (List.mem_cons_of_mem v hbody))
    · exact .inr hdrawn
  | lam y h ih =>
    rcases List.mem_cons.1 hx with rfl | hx
    · exact .inl List.mem_cons_self
    · exact (ih hx).imp_left (List.mem_cons_of_mem y)
  | operator a hf h ih =>
    rcases List.mem_append.1 hx with hx | hx
    · exact (ih hx).imp_left (List.mem_append_left _)
    · exact .inl (List.mem_append_right _ hx)
  | operand hf hnormal h ih =>
    rcases List.mem_append.1 hx with hx | hx
    · exact .inl (List.mem_append_left _ hx)
    · exact (ih hx).imp_left (List.mem_append_right _)

theorem knownAt_substitute {v : Name} {r e : Expr} {s : Supply} (hr : r.KnownAt s.next)
    (he : e.KnownAt s.next) :
    (substitute v r e s).1.KnownAt (substitute v r e s).2.next := by
  intro x hx
  have hle := next_le_substitute v r e s
  rcases mem_names_substitute hx with hxr | hxe | hdrawn
  · exact (hr x hxr).mono hle
  · exact (he x hxe).mono hle
  · exact hdrawn.knownAt

theorem Step.knownAt {e e' : Expr} {s s' : Supply} (h : Step e s e' s') (he : e.KnownAt s.next) :
    e'.KnownAt s'.next := by
  intro x hx
  rcases h.mem_names hx with hxe | hdrawn
  · exact (he x hxe).mono h.next_le
  · exact hdrawn.knownAt

theorem next_le_reduce (e : Expr) (s : Supply) : s.next ≤ (e.reduce s).2.next := by
  rcases hstep : e.step? s with - | ⟨e', s'⟩
  · rw [reduce, hstep]
    exact Nat.le_refl _
  · rw [reduce_of_step? hstep]
    exact (Step.of_step? hstep).next_le

theorem knownAt_reduce {e : Expr} {s : Supply} (he : e.KnownAt s.next) :
    (e.reduce s).1.KnownAt (e.reduce s).2.next := by
  rcases hstep : e.step? s with - | ⟨e', s'⟩
  · rw [reduce, hstep]
    exact he
  · rw [reduce_of_step? hstep]
    exact (Step.of_step? hstep).knownAt he

end Expr

namespace Reductions

/-- What a sequence hands out next is known where the supply then stands. -/
theorem knownAt_next {r : Reductions} {s : Supply}
    (h : ∀ e, r.current = some e → e.KnownAt s.next) :
    s.next ≤ (r.next s).2.2.next ∧
      ∀ e, (r.next s).1 = some e → e.KnownAt (r.next s).2.2.next := by
  unfold next
  split
  · exact ⟨Nat.le_refl _, by simp⟩
  next e hcurrent =>
    split
    · exact ⟨Nat.le_refl _, by simp⟩
    next e' s' hstep =>
      have hstep' := Expr.Step.of_step? hstep
      refine ⟨hstep'.next_le, fun e'' he'' ↦ ?_⟩
      obtain rfl := Option.some.inj he''
      exact hstep'.knownAt (h e hcurrent)

end Reductions

namespace Expr

/-! ### Runs of the loop -/

/-- The supply behind a reduction: the one that it returned, or, while it goes on, the one behind
the steps that it has made. -/
def supplyBehind (e : Expr) (s : Supply) (budget : Nat) :
    Option (Except Halt Expr × Supply) → Supply
  | some (_, s') => s'
  | none => ((Reductions.ofExpr e).take s budget).2.2

/-- What a reduction has returned as a normal form, if anything. -/
def returned (outcome : Option (Except Halt Expr × Supply)) : Set Expr :=
  { r | ∃ s', outcome = some (.ok r, s') }

theorem next_supplyBehind_of_step? {e e' : Expr} {s s' : Supply} (h : e.step? s = some (e', s'))
    (event : Event) (budget : Nat) (outcome : Option (Except Halt Expr × Supply)) :
    (supplyBehind e s (budget + 1) outcome).next =
      (supplyBehind e' (s'.note event) budget outcome).next := by
  rcases outcome with - | ⟨result, s''⟩
  · show e.nextAfter s (budget + 1) = e'.nextAfter (s'.note event) budget
    rw [nextAfter_of_step? h, nextAfter_note]
  · rfl

/-- What a run of the loop has reported, and what it has returned, is known behind it, and the
supply has only counted up. -/
structure Accounted (e : Expr) (s : Supply) (budget : Nat)
    (outcome : Option (Except Halt Expr × Supply)) (reported : List Expr) : Prop where
  next_le : s.next ≤ (supplyBehind e s budget outcome).next
  reported : ∀ r ∈ reported, r.KnownAt (supplyBehind e s budget outcome).next
  returned : ∀ r ∈ returned outcome, r.KnownAt (supplyBehind e s budget outcome).next

/-- The expressions that a trace records. -/
def reportedBy (t : Trace) : List Expr := t.steps.toList.map Prod.snd

theorem accounted_traceFrom {limit cancelAt : Option Nat} {budget steps : Nat} {e : Expr}
    {s : Supply} {t : Trace} (he : e.KnownAt s.next)
    (ht : ∀ r ∈ reportedBy t, r.KnownAt s.next) :
    Accounted e s budget (traceFrom limit cancelAt budget steps e s t).1
      (reportedBy (traceFrom limit cancelAt budget steps e s t).2) := by
  induction budget generalizing steps e s t with
  | zero => exact ⟨Nat.le_refl _, ht, fun r ⟨s', h⟩ ↦ nomatch h⟩
  | succ budget ih =>
    rcases hraised : t.raised with - | -
    · rcases hstep : e.step? s with - | ⟨e', s'⟩
      · rw [traceFrom_of_normal hraised (step?_eq_none_iff.1 hstep)]
        refine ⟨Nat.le_refl _, ht, fun r ⟨s', h⟩ ↦ ?_⟩
        obtain ⟨⟨rfl⟩, -⟩ := Prod.mk.inj (Option.some.inj h)
        exact he
      rcases hmet : limitMet limit steps with - | -
      · rw [traceFrom_of_step? hraised hstep hmet]
        have hstep' := Step.of_step? hstep
        have he' : e'.KnownAt (s'.note (.reduced (steps + 1) e')).next := hstep'.knownAt he
        have ht' : ∀ r ∈ reportedBy ⟨t.steps.push (steps + 1, e'), cancelAt == some (steps + 1)⟩,
            r.KnownAt (s'.note (.reduced (steps + 1) e')).next := by
          intro r hr
          rw [reportedBy, Array.toList_push, List.map_append, List.mem_append] at hr
          rcases hr with hr | hr
          · exact (ht r hr).mono hstep'.next_le
          · obtain rfl : r = e' := List.mem_singleton.1 hr
            exact he'
        obtain ⟨hle, hreported, hreturned⟩ := ih he' ht'
        rw [← next_supplyBehind_of_step? hstep] at hle hreported hreturned
        exact ⟨Nat.le_trans hstep'.next_le hle, hreported, hreturned⟩
      · rw [traceFrom_of_limitMet hraised (isReducible_of_step? hstep) hmet]
        exact ⟨Nat.le_refl _, ht, fun r ⟨s', h⟩ ↦ nomatch h⟩
    · rw [traceFrom_of_raised hraised]
      exact ⟨Nat.le_refl _, ht, fun r ⟨s', h⟩ ↦ nomatch h⟩

theorem accounted_trace {limit cancelAt : Option Nat} {budget : Nat} {e : Expr} {s : Supply}
    (he : e.KnownAt s.next) :
    Accounted e s budget (e.trace limit cancelAt budget s).1
      (reportedBy (e.trace limit cancelAt budget s).2) :=
  accounted_traceFrom he fun _ hr ↦ nomatch hr

end Expr

/-! ### Workspaces -/

/-- All that can be kept from one operation to the next. -/
structure Workspace where
  /-- The expressions at hand. -/
  held : Set Expr
  /-- The sequences of reducts that have been begun. -/
  iterators : List Reductions := []
  /-- The expressions that reductions have reported. -/
  reported : List Expr := []
  supply : Supply

namespace Workspace

open UntypedLambda.Expr (supplyBehind returned reportedBy)

/-- The workspace behind a reduction of `e`, which may be still under way. -/
def afterReducing (w : Workspace) (e : Expr) (budget : Nat)
    (outcome : Option (Except Halt Expr × Supply)) (reported : List Expr) : Workspace :=
  { w with
    held := returned outcome ∪ w.held
    reported := reported ++ w.reported
    supply := supplyBehind e w.supply budget outcome }

/-- What can be done with a workspace. Results are kept beside what they were made of. -/
inductive Step (w : Workspace) : Workspace → Prop
  | reduce {e : Expr} (he : e ∈ w.held) :
      Step w { w with
        held := insert (e.reduce w.supply).1 w.held
        supply := (e.reduce w.supply).2 }
  | normalize {e : Expr} (he : e ∈ w.held) (limit : Option Nat) (budget : Nat)
      (raised : Bool) :
      Step w (w.afterReducing e budget (e.normalize limit budget w.supply raised) [])
  | normalizeWith {e : Expr} (he : e ∈ w.held) (limit cancelAt : Option Nat)
      (budget : Nat) :
      Step w (w.afterReducing e budget (e.trace limit cancelAt budget w.supply).1
        (reportedBy (e.trace limit cancelAt budget w.supply).2))
  | keep {e : Expr} (he : e ∈ w.reported) : Step w { w with held := insert e w.held }
  | newIterator {e : Expr} (he : e ∈ w.held) :
      Step w { w with iterators := .ofExpr e :: w.iterators }
  | next {i : Nat} {r : Reductions} (hr : w.iterators[i]? = some r) :
      Step w { w with
        held := { e | (r.next w.supply).1 = some e } ∪ w.held
        iterators := w.iterators.set i (r.next w.supply).2.1
        supply := (r.next w.supply).2.2 }
  | cloneIterator {r : Reductions} (hr : r ∈ w.iterators) :
      Step w { w with iterators := r :: w.iterators }
  | substitute (x : Name) {r e : Expr} (hr : r ∈ w.held) (he : e ∈ w.held) :
      Step w { w with
        held := insert (Expr.substitute x r e w.supply).1 w.held
        supply := (Expr.substitute x r e w.supply).2 }
  | app {f a : Expr} (hf : f ∈ w.held) (ha : a ∈ w.held) :
      Step w { w with held := insert (.app f a) w.held }
  | lams {xs : List Name} {e : Expr} (hxs : ∀ x ∈ xs, Supply.Unprimed x)
      (he : e ∈ w.held) : Step w { w with held := insert (.lams xs e) w.held }
  | alphaEquiv {a b : Expr} (ha : a ∈ w.held) (hb : b ∈ w.held) :
      Step w { w with supply := (a.alphaEquiv b w.supply).2 }
  | fresh (base : Name) : Step w { w with supply := w.supply.advance }

/-- Every name in the workspace is known at the number `n`. -/
structure KnownAt (n : Nat) (w : Workspace) : Prop where
  held : ∀ e ∈ w.held, e.KnownAt n
  iterators : ∀ r ∈ w.iterators, ∀ e, r.current = some e → e.KnownAt n
  reported : ∀ e ∈ w.reported, e.KnownAt n

theorem KnownAt.mono {m n : Nat} {w : Workspace} (h : w.KnownAt m) (hmn : m ≤ n) : w.KnownAt n where
  held e he := (h.held e he).mono hmn
  iterators r hr e he := (h.iterators r hr e he).mono hmn
  reported e he := (h.reported e he).mono hmn

theorem KnownAt.withSupply {w : Workspace} {s : Supply} (h : w.KnownAt w.supply.next)
    (hle : w.supply.next ≤ s.next) : KnownAt s.next { w with supply := s } :=
  ⟨(h.mono hle).held, (h.mono hle).iterators, (h.mono hle).reported⟩

theorem KnownAt.insert {w : Workspace} {s : Supply} (h : w.KnownAt w.supply.next)
    (hle : w.supply.next ≤ s.next) {e : Expr} (he : e.KnownAt s.next) :
    KnownAt s.next { w with held := insert e w.held, supply := s } where
  held f hf := by
    rcases hf with rfl | hf
    · exact he
    · exact (h.held f hf).mono hle
  iterators := (h.mono hle).iterators
  reported := (h.mono hle).reported

theorem KnownAt.afterReducing {w : Workspace} {e : Expr} {budget : Nat}
    {outcome : Option (Except Halt Expr × Supply)} {reported : List Expr}
    (h : w.KnownAt w.supply.next) (hrun : e.Accounted w.supply budget outcome reported) :
    (w.afterReducing e budget outcome reported).KnownAt
      (w.afterReducing e budget outcome reported).supply.next where
  held f hf := by
    rcases hf with hf | hf
    · exact hrun.returned f hf
    · exact (h.held f hf).mono hrun.next_le
  iterators := (h.mono hrun.next_le).iterators
  reported f hf := by
    rcases List.mem_append.1 hf with hf | hf
    · exact hrun.reported f hf
    · exact (h.reported f hf).mono hrun.next_le

/-- Each operation keeps all names known. -/
theorem Step.knownAt {w w' : Workspace} (hstep : Step w w') (h : w.KnownAt w.supply.next) :
    w'.KnownAt w'.supply.next := by
  induction hstep with
  | reduce he => exact h.insert (Expr.next_le_reduce _ _) (Expr.knownAt_reduce (h.held _ he))
  | @normalize e he limit budget raised =>
    refine h.afterReducing ?_
    rw [Expr.normalize_eq_trace]
    obtain ⟨hle, -, hreturned⟩ := Expr.accounted_trace (h.held e he)
    exact ⟨hle, fun r hr ↦ (List.not_mem_nil hr).elim, hreturned⟩
  | normalizeWith he limit cancelAt budget =>
    exact h.afterReducing (Expr.accounted_trace (h.held _ he))
  | keep he => exact h.insert (Nat.le_refl _) (h.reported _ he)
  | newIterator he =>
    refine ⟨h.held, fun r hr e hcurrent ↦ ?_, h.reported⟩
    rcases List.mem_cons.1 hr with rfl | hr
    · obtain rfl := Option.some.inj hcurrent
      exact h.held _ he
    · exact h.iterators r hr e hcurrent
  | @next i r hr =>
    obtain ⟨hle, hnext⟩ := Reductions.knownAt_next (h.iterators r (List.mem_of_getElem? hr))
    refine ⟨fun e he ↦ ?_, fun r' hr' e hcurrent ↦ ?_, (h.mono hle).reported⟩
    · rcases he with he | he
      · exact hnext e he
      · exact (h.held e he).mono hle
    · rcases List.mem_or_eq_of_mem_set hr' with hr' | rfl
      · exact (h.iterators r' hr' e hcurrent).mono hle
      · rw [Reductions.current_next] at hcurrent
        exact hnext e hcurrent
  | cloneIterator hr =>
    refine ⟨h.held, fun r' hr' ↦ ?_, h.reported⟩
    rcases List.mem_cons.1 hr' with rfl | hr'
    · exact h.iterators _ hr
    · exact h.iterators r' hr'
  | substitute x hr he =>
    exact h.insert (Expr.next_le_substitute _ _ _ _)
      (Expr.knownAt_substitute (h.held _ hr) (h.held _ he))
  | app hf ha => exact h.insert (Nat.le_refl _) ((h.held _ hf).app (h.held _ ha))
  | lams hxs he => exact h.insert (Nat.le_refl _) (.lams hxs (h.held _ he))
  | alphaEquiv ha hb => exact h.withSupply (Expr.next_le_alphaEquiv _ _ _)
  | fresh base => exact h.withSupply (Nat.le_succ _)

/-- **Every name in use is known to the supply.** Begin with any expressions whose names have no
`'`, as those that are read from texts, and with a supply that stands anywhere, and perform
operations in any number and order. Then each name in an expression at hand, in a sequence of
reducts or in an expression that a reduction has reported has no `'`, or it is `b'k` with no `'` in
`b` and with `k` below the number of the supply. -/
theorem names_known_in_every_state :
    (∀ (text : String) (e : Expr), Expr.read text = .ok e → e.Unprimed) ∧
    ∀ (held : Set Expr) (s : Supply) (w : Workspace), (∀ e ∈ held, e.Unprimed) →
      Relation.ReflTransGen Step { held, supply := s } w → w.KnownAt w.supply.next := by
  refine ⟨fun text e h ↦ Expr.unprimed_of_read h, fun held s w hheld hrun ↦ ?_⟩
  induction hrun with
  | refl =>
    exact ⟨fun e he ↦ (hheld e he).knownAt _, fun r hr ↦ (List.not_mem_nil hr).elim,
      fun e he ↦ (List.not_mem_nil he).elim⟩
  | tail _ hstep ih => exact hstep.knownAt ih

/-- An expression whose only step changes a bound name. -/
def capturing : Expr := .app (.lam "x" (.lam "y" (.var "x"))) (.var "y")

/-- A step draws a name, which the supply has passed then. -/
theorem names_known_in_every_state_one_draw :
    Expr.read "(λx y. x) y" = .ok capturing ∧
    Relation.ReflTransGen Step { held := {capturing}, supply := {} }
      { held := {.lam "y'0" (.var "y"), capturing}, supply := { next := 1 } } ∧
    Supply.KnownAt 1 "y'0" := by
  have hread : Expr.read "(λx y. x) y" = .ok capturing := by decide +kernel
  have hreduce : capturing.reduce {} = (.lam "y'0" (.var "y"), { next := 1 }) := by
    decide +kernel
  have hstep : Step { held := {capturing}, supply := {} }
      { held := {.lam "y'0" (.var "y"), capturing}, supply := { next := 1 } } := by
    have hstep := Step.reduce (w := { held := {capturing}, supply := {} }) rfl
    rwa [hreduce] at hstep
  have hheld : ∀ e ∈ ({capturing} : Set Expr), e.Unprimed := by
    rintro e rfl
    exact names_known_in_every_state.1 _ _ hread
  refine ⟨hread, .single hstep, ?_⟩
  exact (names_known_in_every_state.2 _ _ _ hheld (.single hstep)).held _ (.inl rfl) "y'0"
    (by decide)

end Workspace

end UntypedLambda
