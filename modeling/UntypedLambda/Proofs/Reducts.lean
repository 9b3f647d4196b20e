import UntypedLambda.Proofs.Reduction

/-!
# The sequence of the reducts

The reducts of an expression are what the iterator hands out, one by one, until it meets a normal
form. Nothing is assumed about the names here; a fresh name may clash with one that is there, and
the sequence is then the one that arises.

The sequence may be infinite, so it is only ever looked at through its first members (`reducts`).
It has at least `k` members if `k` are handed out when `k` are asked for (`HasReducts`), and it ends
after `k` if, besides, a further one is not (`EndsAfter`). Whether it goes on is decided by the last
member alone (`HasReducts.succ_iff`), since the iterator stops where there is no redex.

A supply carries a journal, and two ways to the same reducts may keep different ones. Therefore the
sequence is shown to depend on nothing but the number of the next fresh name (`reducts_congr`). This
goes back to substitution, the only place where names are drawn (`substitute_congr`).
-/

namespace UntypedLambda

/-- A sequence of reducts holds the reduct that it has handed out last. -/
theorem Reductions.current_next (r : Reductions) (s : Supply) :
    (r.next s).2.1.current = (r.next s).1 := by
  unfold Reductions.next
  split
  · rfl
  · split <;> rfl

namespace Expr

/-! ### The journal does not matter -/

/-- What a substitution gives, and how many names it draws, depends on the number of the supply
only. -/
theorem substitute_congr {s t : Supply} (h : s.next = t.next) (x : Name) (r e : Expr) :
    (substitute x r e s).1 = (substitute x r e t).1 ∧
      (substitute x r e s).2.next = (substitute x r e t).2.next := by
  induction x, r, e, s using substitute_induction generalizing t with
  | var x r y s =>
    rw [substitute_var, substitute_var]
    split
    · exact ⟨rfl, h⟩
    · exact ⟨rfl, h⟩
  | app x r f a s ihf iha =>
    obtain ⟨hf, hnext⟩ := ihf h
    obtain ⟨ha, hnext'⟩ := iha hnext
    rw [substitute_app, substitute_app]
    exact ⟨congrArg₂ app hf ha, hnext'⟩
  | shadowed x r body s =>
    rw [substitute_shadowed, substitute_shadowed]
    exact ⟨rfl, h⟩
  | captured x r y body s hyx hfree ihrename ih =>
    have hfresh : s.fresh y = t.fresh y := by rw [Supply.fresh, h, Supply.fresh]
    have hrename : (freshen y body s).1 = (freshen y body t).1 ∧
        (freshen y body s).2.next = (freshen y body t).2.next := by
      rw [freshen, freshen, ← hfresh]
      exact ihrename (congrArg (· + 1) h)
    obtain ⟨hbody, hnext⟩ := ih hrename.2
    rw [hrename.1] at hbody hnext
    rw [substitute_captured hyx hfree, substitute_captured hyx hfree, hfresh, hrename.1]
    exact ⟨congrArg (lam (t.fresh y)) hbody, hnext⟩
  | plain x r y body s hyx hfree ih =>
    obtain ⟨hbody, hnext⟩ := ih h
    rw [substitute_plain hyx hfree, substitute_plain hyx hfree]
    exact ⟨congrArg (lam y) hbody, hnext⟩

/-- A step depends on the number of the supply only. -/
theorem Step.congr {e e' : Expr} {s s' t : Supply} (h : Step e s e' s') (ht : s.next = t.next) :
    ∃ t', e.step? t = some (e', t') ∧ s'.next = t'.next := by
  induction h with
  | redex x body a s =>
    obtain ⟨hresult, hnext⟩ := substitute_congr ht x a body
    refine ⟨(substitute x a body t).2, ?_, hnext⟩
    rw [hresult]
    rfl
  | lam x h ih =>
    obtain ⟨t', hstep, hnext⟩ := ih ht
    exact ⟨t', by rw [step?, hstep, Option.map_some], hnext⟩
  | operator a hf h ih =>
    obtain ⟨t', hstep, hnext⟩ := ih ht
    exact ⟨t', by rw [step?_app hf, hstep, Option.map_some, Option.some_or], hnext⟩
  | @operand f a a' s s' hf hnormal h ih =>
    obtain ⟨t', hstep, hnext⟩ := ih ht
    have hnone : f.step? t = none := by
      rw [← Option.not_isSome_iff_eq_none, isSome_step?, hnormal]
      exact Bool.false_ne_true
    exact ⟨t', by rw [step?_app hf, hnone, hstep, Option.map_none, Option.none_or,
      Option.map_some], hnext⟩

theorem step?_eq_none_iff {e : Expr} {s : Supply} : e.step? s = none ↔ e.isReducible = false := by
  rw [← isSome_step? e s, Option.isSome_eq_false_iff, Option.isNone_iff_eq_none]

theorem isReducible_of_step? {e e' : Expr} {s s' : Supply} (h : e.step? s = some (e', s')) :
    e.isReducible = true := by
  rw [← isSome_step? e s, h, Option.isSome_some]

/-! ### The sequence of the reducts -/

/-- The first `k` reducts of an expression, or all of them if there are fewer. -/
def reducts (e : Expr) (s : Supply) (k : Nat) : List Expr := ((Reductions.ofExpr e).take s k).1

/-- The number of the next fresh name behind the first `k` reducts. -/
def nextAfter (e : Expr) (s : Supply) (k : Nat) : Nat :=
  ((Reductions.ofExpr e).take s k).2.2.next

/-- Reduct number `k`, if there are so many. Number zero is the expression itself. -/
def reduct (e : Expr) (s : Supply) (k : Nat) : Expr := (e.reducts s k).getLastD e

/-- The sequence of the reducts has at least `k` members. -/
def HasReducts (e : Expr) (s : Supply) (k : Nat) : Prop := (e.reducts s k).length = k

/-- The sequence of the reducts has `k` members and no more. -/
def EndsAfter (e : Expr) (s : Supply) (k : Nat) : Prop :=
  e.HasReducts s k ∧ ¬ e.HasReducts s (k + 1)

instance (e : Expr) (s : Supply) (k : Nat) : Decidable (e.HasReducts s k) :=
  inferInstanceAs (Decidable (_ = _))

instance (e : Expr) (s : Supply) (k : Nat) : Decidable (e.EndsAfter s k) :=
  inferInstanceAs (Decidable (_ ∧ _))

theorem take_of_step? {e e' : Expr} {s s' : Supply} (h : e.step? s = some (e', s')) (k : Nat) :
    (Reductions.ofExpr e).take s (k + 1) =
      (e' :: e'.reducts s' k, ((Reductions.ofExpr e').take s' k).2) := by
  simp [Reductions.take, Reductions.next, Reductions.ofExpr, h, reducts]

theorem reducts_of_step? {e e' : Expr} {s s' : Supply} (h : e.step? s = some (e', s')) (k : Nat) :
    e.reducts s (k + 1) = e' :: e'.reducts s' k := by
  rw [reducts, take_of_step? h]

theorem reducts_of_normal {e : Expr} {s : Supply} (h : e.step? s = none) (k : Nat) :
    e.reducts s k = [] := by
  rcases k with - | k
  · rfl
  · simp [reducts, Reductions.take, Reductions.next, Reductions.ofExpr, h]

theorem nextAfter_of_step? {e e' : Expr} {s s' : Supply} (h : e.step? s = some (e', s'))
    (k : Nat) : e.nextAfter s (k + 1) = e'.nextAfter s' k := by
  rw [nextAfter, take_of_step? h, nextAfter]

theorem reduct_of_step? {e e' : Expr} {s s' : Supply} (h : e.step? s = some (e', s')) (k : Nat) :
    e.reduct s (k + 1) = e'.reduct s' k := by
  rw [reduct, reducts_of_step? h, List.getLastD_cons, reduct]

theorem hasReducts_zero (e : Expr) (s : Supply) : e.HasReducts s 0 := rfl

theorem hasReducts_of_step? {e e' : Expr} {s s' : Supply} (h : e.step? s = some (e', s'))
    (k : Nat) : e.HasReducts s (k + 1) ↔ e'.HasReducts s' k := by
  rw [HasReducts, reducts_of_step? h, List.length_cons, Nat.add_right_cancel_iff, HasReducts]

theorem HasReducts.exists_step? {e : Expr} {s : Supply} {k : Nat} (h : e.HasReducts s (k + 1)) :
    ∃ e' s', e.step? s = some (e', s') ∧ e'.HasReducts s' k := by
  rcases hstep : e.step? s with - | ⟨e', s'⟩
  · rw [HasReducts, reducts_of_normal hstep] at h
    cases h
  · exact ⟨e', s', rfl, (hasReducts_of_step? hstep k).1 h⟩

/-- The sequence goes on behind reduct number `k` if and only if that one is reducible. -/
theorem HasReducts.succ_iff {e : Expr} {s : Supply} {k : Nat} (h : e.HasReducts s k) :
    e.HasReducts s (k + 1) ↔ (e.reduct s k).isReducible = true := by
  induction k generalizing e s with
  | zero =>
    show _ ↔ e.isReducible = true
    rw [← isSome_step? e s]
    rcases hstep : e.step? s with - | ⟨e', s'⟩
    · rw [HasReducts, reducts_of_normal hstep]
      simp
    · exact iff_of_true ((hasReducts_of_step? hstep 0).2 (hasReducts_zero e' s')) rfl
  | succ k ih =>
    obtain ⟨e', s', hstep, hrest⟩ := h.exists_step?
    rw [hasReducts_of_step? hstep, reduct_of_step? hstep]
    exact ih hrest

theorem HasReducts.pred {e : Expr} {s : Supply} {k : Nat} (h : e.HasReducts s (k + 1)) :
    e.HasReducts s k := by
  induction k generalizing e s with
  | zero => exact hasReducts_zero e s
  | succ k ih =>
    obtain ⟨e', s', hstep, hrest⟩ := h.exists_step?
    exact (hasReducts_of_step? hstep k).2 (ih hrest)

theorem HasReducts.mono {e : Expr} {s : Supply} {j k : Nat} (h : e.HasReducts s k)
    (hjk : j ≤ k) : e.HasReducts s j := by
  induction k, hjk using Nat.le_induction with
  | base => exact h
  | succ k _ ih => exact ih h.pred

/-- A sequence with fewer than `k` members ends. -/
theorem hasReducts_or_endsAfter (e : Expr) (s : Supply) (k : Nat) :
    e.HasReducts s k ∨ ∃ j < k, e.EndsAfter s j := by
  induction k with
  | zero => exact .inl (hasReducts_zero e s)
  | succ k ih =>
    rcases ih with h | ⟨j, hj, hend⟩
    · by_cases hsucc : e.HasReducts s (k + 1)
      · exact .inl hsucc
      · exact .inr ⟨k, Nat.lt_succ_self k, h, hsucc⟩
    · exact .inr ⟨j, Nat.lt_succ_of_lt hj, hend⟩

theorem EndsAfter.not_isReducible {e : Expr} {s : Supply} {j : Nat} (h : e.EndsAfter s j) :
    (e.reduct s j).isReducible = false := by
  rw [Bool.eq_false_iff]
  intro hred
  exact h.2 (h.1.succ_iff.2 hred)

/-- The sequence of the reducts depends on the number of the supply only. -/
theorem reducts_congr {s t : Supply} (h : s.next = t.next) (e : Expr) (k : Nat) :
    e.reducts s k = e.reducts t k ∧ e.nextAfter s k = e.nextAfter t k := by
  induction k generalizing e s t with
  | zero => exact ⟨rfl, h⟩
  | succ k ih =>
    rcases hstep : e.step? s with - | ⟨e', s'⟩
    · have hstep' : e.step? t = none := step?_eq_none_iff.2 (step?_eq_none_iff.1 hstep)
      rw [reducts_of_normal hstep, reducts_of_normal hstep']
      refine ⟨rfl, ?_⟩
      simp [nextAfter, Reductions.take, Reductions.next, Reductions.ofExpr, hstep, hstep', h]
    · obtain ⟨t', hstep', hnext⟩ := (Step.of_step? hstep).congr h
      obtain ⟨hreducts, hdrawn⟩ := ih hnext e'
      rw [reducts_of_step? hstep, reducts_of_step? hstep', nextAfter_of_step? hstep,
        nextAfter_of_step? hstep', hreducts]
      exact ⟨rfl, hdrawn⟩

theorem reducts_note (e : Expr) (s : Supply) (event : Event) (k : Nat) :
    e.reducts (s.note event) k = e.reducts s k :=
  (reducts_congr (Supply.next_note s event) e k).1

theorem nextAfter_note (e : Expr) (s : Supply) (event : Event) (k : Nat) :
    e.nextAfter (s.note event) k = e.nextAfter s k :=
  (reducts_congr (Supply.next_note s event) e k).2

theorem reduct_note (e : Expr) (s : Supply) (event : Event) (k : Nat) :
    e.reduct (s.note event) k = e.reduct s k := by
  rw [reduct, reducts_note, reduct]

theorem hasReducts_note (e : Expr) (s : Supply) (event : Event) (k : Nat) :
    e.HasReducts (s.note event) k ↔ e.HasReducts s k := by
  rw [HasReducts, reducts_note, HasReducts]

end Expr

end UntypedLambda
