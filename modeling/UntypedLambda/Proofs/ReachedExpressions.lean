import UntypedLambda.Proofs.ReductionRun

/-!
# What reduction leads to

An expression is reached from another by any number of steps. One supply serves all that goes on,
so between two steps it may have been used elsewhere: `StepsTo` lets it stand anywhere at each
step. Whatever a single step preserves holds of all that is reached (`Reaches.of_step`), and every
way to reduce an expression only makes steps:

* one reduction (`reaches_reduce`);
* the items of a sequence of reducts, asked for in one go (`reaches_of_mem_reducts`) or with other
  draws in between (`Reductions.reaches_of_next`);
* a whole reduction that returns, whoever watches it (`reaches_of_normalizeFrom`).
-/

namespace UntypedLambda

namespace Expr

/-- One expression is the next reduct of another, for a supply that stands somewhere. -/
def StepsTo (e e' : Expr) : Prop := ∃ s s', e.step? s = some (e', s')

/-- One expression comes out of another by any number of steps. -/
def Reaches : Expr → Expr → Prop := Relation.ReflTransGen StepsTo

theorem StepsTo.of_step? {e e' : Expr} {s s' : Supply} (h : e.step? s = some (e', s')) :
    StepsTo e e' :=
  ⟨s, s', h⟩

/-- What every step preserves holds of all that is reached. -/
theorem Reaches.of_step {P : Expr → Prop}
    (hstep : ∀ {e e' : Expr} {s s' : Supply}, Step e s e' s' → P e → P e') {e e' : Expr}
    (h : e.Reaches e') (he : P e) : P e' := by
  induction h with
  | refl => exact he
  | tail _ hnext ih =>
    obtain ⟨s, s', hnext⟩ := hnext
    exact hstep (Step.of_step? hnext) ih

theorem reaches_reduce (e : Expr) (s : Supply) : e.Reaches (e.reduce s).1 := by
  rcases hstep : e.step? s with - | ⟨e', s'⟩
  · rw [reduce, hstep]
    exact .refl
  · rw [reduce_of_step? hstep]
    exact .single (.of_step? hstep)

theorem reaches_of_mem_reducts {e e' : Expr} {s : Supply} {k : Nat} (h : e' ∈ e.reducts s k) :
    e.Reaches e' := by
  induction k generalizing e s with
  | zero => cases h
  | succ k ih =>
    rcases hstep : e.step? s with - | ⟨f, s'⟩
    · rw [reducts_of_normal hstep] at h
      cases h
    · rw [reducts_of_step? hstep] at h
      rcases List.mem_cons.1 h with rfl | h
      · exact .single (.of_step? hstep)
      · exact .head (.of_step? hstep) (ih h)

end Expr

namespace Reductions

open UntypedLambda.Expr (StepsTo Reaches)

/-- One sequence is what another leaves behind its next item, for a supply that stands
somewhere. -/
def Advances (r r' : Reductions) : Prop := ∃ s, (r.next s).2.1 = r'

theorem exists_stepsTo_of_next {r : Reductions} {s : Supply} {e' : Expr}
    (h : (r.next s).1 = some e') : ∃ e, r.current = some e ∧ StepsTo e e' := by
  unfold next at h
  split at h
  · cases h
  next e hcurrent =>
    split at h
    · cases h
    next e'' s'' hstep =>
      obtain rfl := Option.some.inj h
      exact ⟨e, hcurrent, .of_step? hstep⟩

/-- What a sequence of reducts holds, after any number of items, is reached. -/
theorem reaches_of_advances {e e' : Expr} {r : Reductions}
    (h : Relation.ReflTransGen Advances (.ofExpr e) r) (he' : r.current = some e') :
    e.Reaches e' := by
  induction h generalizing e' with
  | refl =>
    obtain rfl := Option.some.inj he'
    exact .refl
  | tail _ hnext ih =>
    obtain ⟨s, rfl⟩ := hnext
    rw [current_next] at he'
    obtain ⟨e'', hcurrent, hstep⟩ := exists_stepsTo_of_next he'
    exact (ih hcurrent).tail hstep

theorem reaches_of_next {e e' : Expr} {r : Reductions} {s : Supply}
    (h : Relation.ReflTransGen Advances (.ofExpr e) r) (he' : (r.next s).1 = some e') :
    e.Reaches e' := by
  obtain ⟨e'', hcurrent, hstep⟩ := exists_stepsTo_of_next he'
  exact (reaches_of_advances h hcurrent).tail hstep

end Reductions

namespace Expr

/-! ### Whole reductions -/

/-- One turn of the loop under a watcher that reads and writes a state. -/
theorem run_normalizeFrom_succ {σ : Type} (watcher : Watcher (StateM σ)) (limit : Option Nat)
    (budget steps : Nat) (e : Expr) (s : Supply) (t : σ) :
    (normalizeFrom watcher limit (budget + 1) steps e s).run t =
      if (watcher.isCancelled.run t).1 then
        (some (.error (.cancelled steps), s.note (.cancelled steps)),
          (watcher.isCancelled.run t).2)
      else if e.isReducible then
        if limitMet limit steps then
          (some (.error (.limitExceeded steps), s.note (.exceededLimit steps)),
            (watcher.isCancelled.run t).2)
        else
          (normalizeFrom watcher limit budget (steps + 1) (e.reduce s).1
            ((e.reduce s).2.note (.reduced (steps + 1) (e.reduce s).1))).run
            ((watcher.onStep (steps + 1) (e.reduce s).1).run (watcher.isCancelled.run t).2).2
      else
        (some (.ok e, s.note (.reachedNormalForm steps)), (watcher.isCancelled.run t).2) := by
  rw [normalizeFrom]
  rcases hrun : watcher.isCancelled.run t with ⟨- | -, t'⟩ <;>
    rcases hred : e.isReducible with - | - <;> rcases hmet : limitMet limit steps with - | - <;>
    simp only [StateT.run_bind, hrun] <;> rfl

theorem reaches_of_normalizeFrom {σ : Type} {watcher : Watcher (StateM σ)} {limit : Option Nat}
    {budget steps : Nat} {e r : Expr} {s s' : Supply} {t t' : σ}
    (h : (normalizeFrom watcher limit budget steps e s).run t = (some (.ok r, s'), t')) :
    e.Reaches r := by
  induction budget generalizing steps e s t with
  | zero => cases h
  | succ budget ih =>
    rw [run_normalizeFrom_succ] at h
    split at h
    · cases h
    · split at h
      · split at h
        · cases h
        · exact (reaches_reduce e s).trans (ih h)
      · cases h
        exact .refl

theorem reaches_of_normalizeWith {σ : Type} {watcher : Watcher (StateM σ)} {limit : Option Nat}
    {budget : Nat} {e r : Expr} {s s' : Supply} {t t' : σ}
    (h : (normalizeWith watcher limit budget e s).run t = (some (.ok r, s'), t')) :
    e.Reaches r :=
  reaches_of_normalizeFrom h

theorem reaches_of_normalize {limit : Option Nat} {budget : Nat} {e r : Expr} {s s' : Supply}
    {raised : Bool} (h : e.normalize limit budget s raised = some (.ok r, s')) :
    e.Reaches r := by
  rw [normalize_eq_trace] at h
  exact reaches_of_normalizeWith (Prod.ext h rfl)

end Expr

end UntypedLambda
