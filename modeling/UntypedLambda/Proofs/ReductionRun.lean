import UntypedLambda.Proofs.Normalization
import UntypedLambda.Proofs.Reducts

/-!
# Normalization follows the sequence of the reducts

Before each step the loop asks whether it is cancelled, whether the expression is normal and whether
the limit is met, in this order. So a run is a stretch of the sequence of the reducts, and how it
ends is decided at the last member of the stretch:

* one turn of the loop does one of four things (`traceFrom_of_raised`, `traceFrom_of_normal`,
  `traceFrom_of_limitMet`, `traceFrom_of_step?`);
* as long as it does the last, the loop is at reduct number `k` after `k` turns, with the first `k`
  of them on record and the number that the iterator has reached (`traceFrom_add`). The flag is up
  exactly if it goes up at step `k`, since before that the loop would have ended;
* one more turn ends it.

A flag that goes up at a step that is not made is not seen (`trace_of_not_reached`), and a watcher
that does nothing changes nothing, whether the flag is up from the start or never
(`normalize_eq_trace`). The budget takes part in none of this: one that is large enough gives the
result, and one that is not gives none.
-/

namespace UntypedLambda

namespace Expr

/-! ### One turn of the loop -/

/-- The loop on `e`, the result of `steps` steps, with the steps so far recorded in `t`. -/
def traceFrom (limit cancelAt : Option Nat) (budget steps : Nat) (e : Expr) (s : Supply)
    (t : Trace) : Option (Except Halt Expr × Supply) × Trace :=
  Id.run ((normalizeFrom (Trace.recorder cancelAt) limit budget steps e s).run t)

theorem traceFrom_succ (limit cancelAt : Option Nat) (budget steps : Nat) (e : Expr) (s : Supply)
    (t : Trace) :
    traceFrom limit cancelAt (budget + 1) steps e s t =
      if t.raised then (some (.error (.cancelled steps), s.note (.cancelled steps)), t)
      else if e.isReducible then
        if limitMet limit steps then
          (some (.error (.limitExceeded steps), s.note (.exceededLimit steps)), t)
        else
          traceFrom limit cancelAt budget (steps + 1) (e.reduce s).1
            ((e.reduce s).2.note (.reduced (steps + 1) (e.reduce s).1))
            { steps := t.steps.push (steps + 1, (e.reduce s).1),
              raised := t.raised || cancelAt == some (steps + 1) }
      else (some (.ok e, s.note (.reachedNormalForm steps)), t) := by
  rcases hraised : t.raised with - | - <;> rcases hred : e.isReducible with - | - <;>
    rcases hmet : limitMet limit steps with - | - <;>
    simp [traceFrom, normalizeFrom, Trace.recorder, hraised, hred, hmet]

theorem traceFrom_of_raised {t : Trace} (ht : t.raised = true) (limit cancelAt : Option Nat)
    (budget steps : Nat) (e : Expr) (s : Supply) :
    traceFrom limit cancelAt (budget + 1) steps e s t =
      (some (.error (.cancelled steps), s.note (.cancelled steps)), t) := by
  rw [traceFrom_succ, ht, if_pos rfl]

theorem traceFrom_of_normal {t : Trace} (ht : t.raised = false) {e : Expr}
    (he : e.isReducible = false) (limit cancelAt : Option Nat) (budget steps : Nat) (s : Supply) :
    traceFrom limit cancelAt (budget + 1) steps e s t =
      (some (.ok e, s.note (.reachedNormalForm steps)), t) := by
  rw [traceFrom_succ, ht, if_neg Bool.false_ne_true, he, if_neg Bool.false_ne_true]

theorem traceFrom_of_limitMet {t : Trace} (ht : t.raised = false) {e : Expr}
    (he : e.isReducible = true) {limit : Option Nat} {steps : Nat}
    (hmet : limitMet limit steps = true) (cancelAt : Option Nat) (budget : Nat) (s : Supply) :
    traceFrom limit cancelAt (budget + 1) steps e s t =
      (some (.error (.limitExceeded steps), s.note (.exceededLimit steps)), t) := by
  rw [traceFrom_succ, ht, if_neg Bool.false_ne_true, he, if_pos rfl, hmet, if_pos rfl]

theorem traceFrom_of_step? {t : Trace} (ht : t.raised = false) {e e' : Expr} {s s' : Supply}
    (hstep : e.step? s = some (e', s')) {limit : Option Nat} {steps : Nat}
    (hmet : limitMet limit steps = false) (cancelAt : Option Nat) (budget : Nat) :
    traceFrom limit cancelAt (budget + 1) steps e s t =
      traceFrom limit cancelAt budget (steps + 1) e' (s'.note (.reduced (steps + 1) e'))
        { steps := t.steps.push (steps + 1, e'), raised := cancelAt == some (steps + 1) } := by
  rw [traceFrom_succ, ht, if_neg Bool.false_ne_true, isReducible_of_step? hstep, if_pos rfl, hmet,
    if_neg Bool.false_ne_true, reduce_of_step? hstep, Bool.false_or]

/-! ### Many turns of the loop -/

/-- A bound on the steps, if there is one, is not below `k`. The bounds are the limit and the step
at which the flag goes up. -/
def Allows (bound : Option Nat) (k : Nat) : Prop := ∀ m, bound = some m → k ≤ m

theorem limitMet_eq_false_iff {limit : Option Nat} {steps : Nat} :
    limitMet limit steps = false ↔ Allows limit (steps + 1) := by
  rcases limit with - | m
  · exact iff_of_true rfl fun m hm ↦ nomatch hm
  · show decide (m ≤ steps) = false ↔ _
    rw [decide_eq_false_iff_not, Nat.not_le]
    constructor
    · rintro h m' ⟨⟩
      exact h
    · intro h
      exact h m rfl

theorem allows_none (k : Nat) : Allows none k := fun _ hm ↦ nomatch hm

theorem allows_self (m : Nat) : Allows (some m) m := fun _ hm ↦ (Option.some.inj hm).le

theorem Allows.mono {bound : Option Nat} {j k : Nat} (h : Allows bound k) (hjk : j ≤ k) :
    Allows bound j :=
  fun m hm ↦ Nat.le_trans hjk (h m hm)

/-- The record of the steps that lead to `es`, the first of them being number `n`. -/
def numberedFrom (n : Nat) (es : List Expr) : List (Nat × Expr) := (es.zipIdx n).map Prod.swap

theorem numberedFrom_cons (n : Nat) (e : Expr) (es : List Expr) :
    numberedFrom n (e :: es) = (n, e) :: numberedFrom (n + 1) es := rfl

/-- As long as there are reducts, the limit is not met and the flag is not up, the loop goes along
the reducts and records each of them. -/
theorem traceFrom_add {limit cancelAt : Option Nat} {k steps : Nat} {e : Expr} {s : Supply}
    (hk : e.HasReducts s k) (hlimit : Allows limit (steps + k))
    (hcancel : Allows cancelAt (steps + k)) (budget : Nat) (calls : List (Nat × Expr)) :
    ∃ s', s'.next = e.nextAfter s k ∧
      traceFrom limit cancelAt (budget + k) steps e s ⟨calls.toArray, cancelAt == some steps⟩ =
        traceFrom limit cancelAt budget (steps + k) (e.reduct s k) s'
          ⟨(calls ++ numberedFrom (steps + 1) (e.reducts s k)).toArray,
            cancelAt == some (steps + k)⟩ := by
  induction k generalizing steps e s calls with
  | zero =>
    refine ⟨s, rfl, ?_⟩
    show _ = traceFrom limit cancelAt budget steps e s ⟨(calls ++ []).toArray, _⟩
    rw [List.append_nil]
    rfl
  | succ k ih =>
    obtain ⟨e', s', hstep, hrest⟩ := hk.exists_step?
    have hindex : steps + (k + 1) = steps + 1 + k := by omega
    rw [hindex] at hlimit hcancel
    have hmet : limitMet limit steps = false :=
      limitMet_eq_false_iff.2 (hlimit.mono (Nat.le_add_right (steps + 1) k))
    have hraised : (cancelAt == some steps) = false := by
      rw [beq_eq_false_iff_ne]
      intro heq
      have := hcancel steps heq
      omega
    obtain ⟨s'', hnext, hrun⟩ := ih ((hasReducts_note e' s' (.reduced (steps + 1) e') k).2 hrest)
      hlimit hcancel (calls ++ [(steps + 1, e')])
    rw [nextAfter_note] at hnext
    rw [reduct_note, reducts_note, List.append_assoc, List.singleton_append,
      ← numberedFrom_cons] at hrun
    refine ⟨s'', by rw [hnext, nextAfter_of_step? hstep], ?_⟩
    rw [hindex, reduct_of_step? hstep, reducts_of_step? hstep, ← hrun, ← Nat.add_assoc,
      traceFrom_of_step? hraised hstep hmet, List.push_toArray]

/-! ### The ends of the loop -/

/-- The trace of the first `k` steps. -/
def traceOf (e : Expr) (s : Supply) (k : Nat) (raised : Bool) : Trace :=
  ⟨(numberedFrom 1 (e.reducts s k)).toArray, raised⟩

section Ends

variable {limit : Option Nat} {e : Expr} {s : Supply}

theorem trace_add {cancelAt : Option Nat} {k : Nat} (hk : e.HasReducts s k)
    (hlimit : Allows limit k) (hcancel : Allows cancelAt k) (budget : Nat) :
    ∃ s', s'.next = e.nextAfter s k ∧
      e.trace limit cancelAt (budget + k) s =
        traceFrom limit cancelAt budget k (e.reduct s k) s'
          (e.traceOf s k (cancelAt == some k)) := by
  rw [← Nat.zero_add k] at hlimit hcancel
  obtain ⟨s', hnext, hrun⟩ := traceFrom_add hk hlimit hcancel budget []
  rw [Nat.zero_add, Nat.zero_add, List.nil_append] at hrun
  exact ⟨s', hnext, hrun⟩

/-- While there are reducts and the limit allows them, a budget is used up without a result. -/
theorem trace_of_hasReducts {budget : Nat} (h : e.HasReducts s budget)
    (hlimit : Allows limit budget) :
    e.trace limit none budget s = (none, e.traceOf s budget false) := by
  obtain ⟨s', -, hrun⟩ := trace_add h hlimit (allows_none budget) 0
  rw [Nat.zero_add] at hrun
  exact hrun

/-- The loop comes to reduct number `k` with some of a larger budget left. -/
theorem trace_reaches {cancelAt : Option Nat} {k budget : Nat} (hk : e.HasReducts s k)
    (hlimit : Allows limit k) (hcancel : Allows cancelAt k) (hbudget : k < budget) :
    ∃ b s', s'.next = e.nextAfter s k ∧
      e.trace limit cancelAt budget s =
        traceFrom limit cancelAt (b + 1) k (e.reduct s k) s'
          (e.traceOf s k (cancelAt == some k)) := by
  obtain ⟨b, rfl⟩ : ∃ b, budget = b + 1 + k := ⟨budget - k - 1, by omega⟩
  obtain ⟨s', hnext, hrun⟩ := trace_add hk hlimit hcancel (b + 1)
  exact ⟨b, s', hnext, hrun⟩

theorem trace_of_endsAfter {j budget : Nat} (h : e.EndsAfter s j) (hlimit : Allows limit j)
    (hbudget : j < budget) :
    ∃ s', s'.next = e.nextAfter s j ∧
      e.trace limit none budget s = (some (.ok (e.reduct s j), s'), e.traceOf s j false) := by
  obtain ⟨b, s', hnext, hrun⟩ := trace_reaches h.1 hlimit (allows_none j) hbudget
  rw [traceFrom_of_normal rfl h.not_isReducible] at hrun
  exact ⟨s'.note (.reachedNormalForm j), hnext, hrun⟩

theorem trace_of_limit {m budget : Nat} (h : e.HasReducts s (m + 1)) (hbudget : m < budget) :
    ∃ s', s'.next = e.nextAfter s m ∧
      e.trace (some m) none budget s =
        (some (.error (.limitExceeded m), s'), e.traceOf s m false) := by
  have hmet : limitMet (some m) m = true := by simp [limitMet]
  obtain ⟨b, s', hnext, hrun⟩ := trace_reaches h.pred (allows_self m) (allows_none m) hbudget
  rw [traceFrom_of_limitMet rfl (h.pred.succ_iff.1 h) hmet] at hrun
  exact ⟨s'.note (.exceededLimit m), hnext, hrun⟩

theorem trace_of_cancelled {k budget : Nat} (h : e.HasReducts s k) (hlimit : Allows limit k)
    (hbudget : k < budget) :
    ∃ s', s'.next = e.nextAfter s k ∧
      e.trace limit (some k) budget s =
        (some (.error (.cancelled k), s'), e.traceOf s k true) := by
  obtain ⟨b, s', hnext, hrun⟩ := trace_reaches h hlimit (allows_self k) hbudget
  rw [beq_self_eq_true, traceFrom_of_raised rfl] at hrun
  exact ⟨s'.note (.cancelled k), hnext, hrun⟩

/-- A flag that would go up at a step that is never made changes nothing. -/
theorem traceFrom_of_not_reached {d budget steps : Nat} {calls : Array (Nat × Expr)}
    (h : ¬ (e.HasReducts s (d + 1) ∧ Allows limit (steps + (d + 1)))) :
    traceFrom limit (some (steps + (d + 1))) budget steps e s ⟨calls, false⟩ =
      traceFrom limit none budget steps e s ⟨calls, false⟩ := by
  induction budget generalizing d steps e s calls with
  | zero => rfl
  | succ budget ih =>
    rcases hstep : e.step? s with - | ⟨e', s'⟩
    · have hnormal := step?_eq_none_iff.1 hstep
      rw [traceFrom_of_normal rfl hnormal, traceFrom_of_normal rfl hnormal]
    rcases hmet : limitMet limit steps with - | -
    · rw [traceFrom_of_step? rfl hstep hmet, traceFrom_of_step? rfl hstep hmet]
      rcases d with - | d
      · exact absurd ⟨(hasReducts_of_step? hstep 0).2 (hasReducts_zero e' s'),
          limitMet_eq_false_iff.1 hmet⟩ h
      · have hindex : steps + (d + 1 + 1) = steps + 1 + (d + 1) := by omega
        have hflag : (some (steps + 1 + (d + 1)) == some (steps + 1)) = false := by simp
        rw [hindex, hflag]
        refine ih ?_
        rwa [hasReducts_note, ← hasReducts_of_step? hstep, ← hindex]
    · have hred := isReducible_of_step? hstep
      rw [traceFrom_of_limitMet rfl hred hmet, traceFrom_of_limitMet rfl hred hmet]

theorem trace_of_not_reached {k : Nat} (h : ¬ (e.HasReducts s k ∧ Allows limit k)) (budget : Nat) :
    e.trace limit (some k) budget s = e.trace limit none budget s := by
  rcases k with - | d
  · exact absurd ⟨hasReducts_zero e s, fun m _ ↦ Nat.zero_le m⟩ h
  · have hrun : traceFrom limit (some (0 + (d + 1))) budget 0 e s ⟨#[], false⟩ =
        traceFrom limit none budget 0 e s ⟨#[], false⟩ :=
      traceFrom_of_not_reached (by rwa [Nat.zero_add])
    rw [Nat.zero_add] at hrun
    exact hrun

/-- Without a watcher the loop ends in the same way. -/
theorem normalizeFrom_eq_traceFrom (budget steps : Nat) (e : Expr) (s : Supply)
    (calls : Array (Nat × Expr)) :
    Id.run (normalizeFrom .idle limit budget steps e s) =
      (traceFrom limit none budget steps e s ⟨calls, false⟩).1 := by
  induction budget generalizing steps e s calls with
  | zero => rfl
  | succ budget ih =>
    rw [normalizeFrom_succ, traceFrom_succ, if_neg Bool.false_ne_true]
    split
    · split
      · rfl
      · exact ih _ _ _ _
    · rfl

/-- Normalization ends as a recorded reduction does, with the flag up from the start or never. -/
theorem normalize_eq_trace (limit : Option Nat) (budget : Nat) (e : Expr) (s : Supply)
    (raised : Bool) :
    e.normalize limit budget s raised =
      (e.trace limit (if raised then some 0 else none) budget s).1 := by
  cases raised with
  | false => exact normalizeFrom_eq_traceFrom budget 0 e s #[]
  | true =>
    -- the first question that the loop asks ends it
    cases budget <;> rfl

/-- If the sequence does not end within the limit, it has a reduct more than the limit allows. -/
theorem hasReducts_of_not_endsAfter (h : ¬ ∃ j, e.EndsAfter s j ∧ Allows limit j) {k : Nat}
    (hk : Allows limit k) : e.HasReducts s (k + 1) := by
  rcases hasReducts_or_endsAfter e s (k + 1) with hreducts | ⟨j, hj, hend⟩
  · exact hreducts
  · exact absurd ⟨j, hend, hk.mono (Nat.le_of_lt_succ hj)⟩ h

/-- A reduction that is not cancelled returns a normal form if and only if the sequence of the
reducts ends within the limit, and then it returns the last of them. -/
theorem exists_trace_ok_iff {r : Expr} :
    (∃ budget s' t, e.trace limit none budget s = (some (.ok r, s'), t)) ↔
      ∃ j, e.EndsAfter s j ∧ Allows limit j ∧ r = e.reduct s j := by
  constructor
  · rintro ⟨budget, s', t, hrun⟩
    -- the budget was not used up, so it has not come short of the reducts that the limit allows
    have hbudget : ¬ (e.HasReducts s budget ∧ Allows limit budget) := by
      rintro ⟨hreducts, hlimit⟩
      rw [trace_of_hasReducts hreducts hlimit] at hrun
      cases hrun
    by_cases hend : ∃ j, e.EndsAfter s j ∧ Allows limit j
    · obtain ⟨j, hj, hlimit⟩ := hend
      have hlt : j < budget :=
        Nat.lt_of_not_le fun hle ↦ hbudget ⟨hj.1.mono hle, hlimit.mono hle⟩
      obtain ⟨s'', -, hrun'⟩ := trace_of_endsAfter hj hlimit hlt
      rw [hrun'] at hrun
      cases hrun
      exact ⟨j, hj, hlimit, rfl⟩
    · obtain ⟨m, rfl, hlt⟩ : ∃ m, limit = some m ∧ m < budget := by
        by_contra hnone
        have hlimit : Allows limit budget := by
          intro m hm
          exact Nat.le_of_not_lt fun hlt ↦ hnone ⟨m, hm, hlt⟩
        exact hbudget ⟨(hasReducts_of_not_endsAfter hend hlimit).pred, hlimit⟩
      have hmore := hasReducts_of_not_endsAfter hend (allows_self m)
      obtain ⟨s'', -, hrun'⟩ := trace_of_limit hmore hlt
      rw [hrun'] at hrun
      cases hrun
  · rintro ⟨j, hend, hlimit, rfl⟩
    obtain ⟨s', -, hrun⟩ := trace_of_endsAfter hend hlimit (Nat.lt_succ_self j)
    exact ⟨j + 1, s', _, hrun⟩

/-- A normal expression is returned at once, under every limit. -/
theorem trace_of_normal (he : e.isReducible = false) {budget : Nat} (hbudget : 0 < budget) :
    e.trace limit none budget s = (some (.ok e, s.note (.reachedNormalForm 0)), {}) := by
  obtain ⟨b, rfl⟩ := Nat.exists_eq_add_one.2 hbudget
  exact traceFrom_of_normal rfl he limit none b 0 s

end Ends

/-- **Normalization follows the sequence of the reducts**, whatever the names are, and a watcher
changes nothing about its result: it ends in the same way whether or not its steps are recorded,
also if the flag is up from the start. Without a cancellation:

* a normal form is returned if and only if the sequence ends within the limit. It is then the last
  reduct, each step has been reported once and in order, and to normalize it again takes no step
  and draws no name;
* otherwise a limit of `m` is met after exactly `m` steps, and without a limit there is no result.

A flag that is up from the start (`k = 0`) or goes up at step `k` cancels the reduction there if it
gets so far, even if that step led to a normal form or met the limit; otherwise it changes nothing.
In each case the number of the next fresh name is the one that the iterator would have reached. -/
theorem normalization_follows_reducts (e : Expr) (s : Supply) (limit : Option Nat) :
    (∀ budget, e.normalize limit budget s = (e.trace limit none budget s).1 ∧
      e.normalize limit budget s true = (e.trace limit (some 0) budget s).1) ∧
    (∀ r, (∃ budget s' t, e.trace limit none budget s = (some (.ok r, s'), t)) ↔
      ∃ j, e.EndsAfter s j ∧ Allows limit j ∧ r = e.reduct s j) ∧
    (∀ j, e.EndsAfter s j → Allows limit j →
      (∀ budget, j < budget → ∃ s', s'.next = e.nextAfter s j ∧
        e.trace limit none budget s = (some (.ok (e.reduct s j), s'), e.traceOf s j false)) ∧
      (e.reduct s j).isReducible = false ∧
      ∀ limit' budget s', 0 < budget → ∃ s'', s''.next = s'.next ∧
        (e.reduct s j).trace limit' none budget s' = (some (.ok (e.reduct s j), s''), {})) ∧
    ((¬ ∃ j, e.EndsAfter s j ∧ Allows limit j) →
      (∀ m, limit = some m → ∀ budget, m < budget → ∃ s', s'.next = e.nextAfter s m ∧
        e.trace limit none budget s =
          (some (.error (.limitExceeded m), s'), e.traceOf s m false)) ∧
      (limit = none → ∀ budget,
        e.trace limit none budget s = (none, e.traceOf s budget false))) ∧
    ∀ k,
      (e.HasReducts s k ∧ Allows limit k → ∀ budget, k < budget →
        ∃ s', s'.next = e.nextAfter s k ∧
          e.trace limit (some k) budget s =
            (some (.error (.cancelled k), s'), e.traceOf s k true)) ∧
      (¬ (e.HasReducts s k ∧ Allows limit k) → ∀ budget,
        e.trace limit (some k) budget s = e.trace limit none budget s) := by
  refine ⟨fun budget ↦ ?_, fun r ↦ exists_trace_ok_iff, ?_, ?_, ?_⟩
  · exact ⟨normalize_eq_trace limit budget e s false, normalize_eq_trace limit budget e s true⟩
  · intro j hend hlimit
    refine ⟨fun budget hbudget ↦ trace_of_endsAfter hend hlimit hbudget, hend.not_isReducible, ?_⟩
    intro limit' budget s' hbudget
    exact ⟨s'.note (.reachedNormalForm 0), rfl, trace_of_normal hend.not_isReducible hbudget⟩
  · intro hend
    constructor
    · rintro m rfl budget hbudget
      exact trace_of_limit (hasReducts_of_not_endsAfter hend (allows_self m)) hbudget
    · rintro rfl budget
      have hmore := hasReducts_of_not_endsAfter hend (allows_none budget)
      exact trace_of_hasReducts hmore.pred (allows_none budget)
  · intro k
    exact ⟨fun ⟨hreducts, hlimit⟩ budget hbudget ↦ trace_of_cancelled hreducts hlimit hbudget,
      trace_of_not_reached⟩

/-- An expression with one reduct. -/
def identityApplied : Expr := app (lam "x" (var "x")) (var "y")

theorem step?_omega (s : Supply) : omega.step? s = some (omega, s) := by
  simp [omega, step?, substitute_app, substitute_var]

/-- The sequence of the reducts of `omega` does not end. -/
theorem hasReducts_omega (s : Supply) (k : Nat) : omega.HasReducts s k := by
  induction k with
  | zero => exact hasReducts_zero omega s
  | succ k ih => exact (hasReducts_of_step? (step?_omega s) k).2 ih

/-- Where a single step leads to a normal form, a limit of one step is enough, none is too few, and
a flag that goes up at that step wins over both the normal form and the limit; one that would go up
at the next step is not seen. A flag that is up from the start wins over a normal form that is there
already and a limit of no steps. Where there is no normal form and no limit, there is no result. -/
theorem normalization_follows_reducts_one_step :
    identityApplied.EndsAfter {} 1 ∧
    (∃ s', s'.next = 0 ∧ identityApplied.trace (some 1) none 2 {} =
      (some (.ok (var "y"), s'), ⟨#[(1, var "y")], false⟩)) ∧
    (∃ s', s'.next = 0 ∧ identityApplied.trace (some 0) none 1 {} =
      (some (.error (.limitExceeded 0), s'), {})) ∧
    (∃ s', s'.next = 0 ∧ identityApplied.trace (some 1) (some 1) 2 {} =
      (some (.error (.cancelled 1), s'), ⟨#[(1, var "y")], true⟩)) ∧
    identityApplied.trace (some 1) (some 2) 2 {} = identityApplied.trace (some 1) none 2 {} ∧
    (∃ s', s'.next = 0 ∧ identityApplied.normalize (some 1) 2 {} = some (.ok (var "y"), s')) ∧
    (∃ s', s'.next = 0 ∧
      (var "y").normalize (some 0) 1 {} true = some (.error (.cancelled 0), s')) ∧
    ∀ budget, omega.trace none none budget {} = (none, omega.traceOf {} budget false) := by
  have hend : identityApplied.EndsAfter {} 1 := by decide +kernel
  have hreduct : identityApplied.reduct {} 1 = var "y" := by decide +kernel
  have hnext : identityApplied.nextAfter {} 1 = 0 := by decide +kernel
  have htrace : ∀ raised, identityApplied.traceOf {} 1 raised = ⟨#[(1, var "y")], raised⟩ := by
    decide +kernel
  have hshort : ¬ ∃ j, identityApplied.EndsAfter {} j ∧ Allows (some 0) j := by
    rintro ⟨j, hj, hlimit⟩
    obtain rfl : j = 0 := Nat.le_zero.1 (hlimit 0 rfl)
    revert hj
    decide +kernel
  have homega : ¬ ∃ j, omega.EndsAfter {} j ∧ Allows none j := by
    rintro ⟨j, hj, -⟩
    exact hj.2 (hasReducts_omega {} (j + 1))
  have hone := normalization_follows_reducts identityApplied {} (some 1)
  obtain ⟨s₁, hs₁, hrun₁⟩ := (hone.2.2.1 1 hend (allows_self 1)).1 2 (by decide)
  rw [hreduct, htrace] at hrun₁
  refine ⟨hend, ⟨s₁, hs₁.trans hnext, hrun₁⟩, ?_, ?_, ?_, ⟨s₁, hs₁.trans hnext, ?_⟩, ?_, ?_⟩
  · exact ((normalization_follows_reducts identityApplied {} (some 0)).2.2.2.1 hshort).1 0 rfl 1
      (by decide)
  · obtain ⟨s', hs', hrun⟩ := (hone.2.2.2.2 1).1 ⟨hend.1, allows_self 1⟩ 2 (by decide)
    rw [htrace] at hrun
    exact ⟨s', hs'.trans hnext, hrun⟩
  · exact (hone.2.2.2.2 2).2 (fun h ↦ hend.2 h.1) 2
  · exact (hone.1 2).1.trans (congrArg Prod.fst hrun₁)
  · have hnormal := normalization_follows_reducts (var "y") {} (some 0)
    obtain ⟨s', hs', hrun⟩ :=
      (hnormal.2.2.2.2 0).1 ⟨hasReducts_zero _ _, allows_self 0⟩ 1 (by decide)
    exact ⟨s', hs', (hnormal.1 1).2.trans (congrArg Prod.fst hrun)⟩
  · exact ((normalization_follows_reducts omega {} none).2.2.2.1 homega).2 rfl

end Expr

end UntypedLambda
