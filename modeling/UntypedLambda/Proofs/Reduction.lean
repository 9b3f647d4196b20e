import UntypedLambda.Proofs.Nameless.Redex
import UntypedLambda.Proofs.Substitution
import UntypedLambda.Reduction

/-!
# A step of reduction contracts the first redex

One step on an expression is one leftmost step on its nameless form, also under abstractions whose
names occur free in the operand of the redex. The names that come out are safe at the number
reached, so the step can be repeated, and the sequence of reducts is the sequence of the leftmost
reducts of the nameless form.

What a step can do is said once, in `step?_induction`: it contracts a redex, or it goes into the
part that holds the first redex. That it goes into the right part is decided by `isReducible`,
which looks at no name and draws none (`isSome_step?`), and which therefore agrees with the nameless
form in every scope (`isSome_leftmost?_namelessIn`).
-/

namespace UntypedLambda

namespace Expr

open Nameless (bound free)

/-! ### What a step does -/

theorem exists_lam_of_isLam {e : Expr} (h : e.isLam = true) : ∃ x body, e = lam x body := by
  cases e with
  | lam x body => exact ⟨x, body, rfl⟩
  | _ => cases h

theorem step?_app {f : Expr} (hf : f.isLam = false) (a : Expr) (s : Supply) :
    (app f a).step? s =
      ((f.step? s).map fun p ↦ (app p.1 a, p.2)).or
        ((a.step? s).map fun p ↦ (app f p.1, p.2)) := by
  cases f with
  | lam x body => cases hf
  | var x => rfl
  | app g c =>
    rw [step?]
    · rcases (app g c).step? s with - | ⟨f', s'⟩ <;> rfl
    · intro x body h
      cases h

/-- Whether there is a step does not depend on the supply. -/
theorem isSome_step? (e : Expr) (s : Supply) : (e.step? s).isSome = e.isReducible := by
  induction e with
  | var x => rfl
  | lam x body ih => rw [step?, Option.isSome_map, ih, isReducible]
  | app f a ihf iha =>
    rcases hf : f.isLam with - | -
    · rw [step?_app hf, Option.isSome_or, Option.isSome_map, Option.isSome_map, ihf, iha,
        isReducible, hf, Bool.false_or]
    · obtain ⟨x, body, rfl⟩ := exists_lam_of_isLam hf
      rfl

/-- What a step does: it contracts a redex, or it is a step of the part that holds the first
redex. -/
inductive Step : Expr → Supply → Expr → Supply → Prop
  | redex (x : Name) (body a : Expr) (s : Supply) :
      Step (app (lam x body) a) s (substitute x a body s).1 (substitute x a body s).2
  | lam (x : Name) {body body' : Expr} {s s' : Supply} (h : Step body s body' s') :
      Step (lam x body) s (lam x body') s'
  | operator {f f' : Expr} (a : Expr) {s s' : Supply} (hf : f.isLam = false)
      (h : Step f s f' s') : Step (app f a) s (app f' a) s'
  | operand {f a a' : Expr} {s s' : Supply} (hf : f.isLam = false)
      (hnormal : f.isReducible = false) (h : Step a s a' s') : Step (app f a) s (app f a') s'

theorem Step.of_step? {e e' : Expr} {s s' : Supply} (h : e.step? s = some (e', s')) :
    Step e s e' s' := by
  induction e generalizing e' s' with
  | var x => cases h
  | lam x body ih =>
    obtain ⟨⟨body', t⟩, hbody, heq⟩ := Option.map_eq_some_iff.1 h
    cases heq
    exact .lam x (ih hbody)
  | app f a ihf iha =>
    rcases hf : f.isLam with - | -
    · rw [step?_app hf] at h
      rcases hstep : f.step? s with - | ⟨f', t⟩
      · have hnormal : f.isReducible = false := by
          rw [← isSome_step? f s, hstep, Option.isSome_none]
        rw [hstep, Option.map_none, Option.none_or] at h
        obtain ⟨⟨a', t⟩, ha, heq⟩ := Option.map_eq_some_iff.1 h
        cases heq
        exact .operand hf hnormal (iha ha)
      · rw [hstep, Option.map_some, Option.some_or] at h
        cases h
        exact .operator a hf (ihf hstep)
    · obtain ⟨x, body, rfl⟩ := exists_lam_of_isLam hf
      obtain ⟨rfl, rfl⟩ : (substitute x a body s).1 = e' ∧ (substitute x a body s).2 = s' := by
        simpa only [step?, Option.some.injEq, Prod.ext_iff] using h
      exact .redex x body a s

/-! ### The supply and the names -/

theorem Step.next_le {e e' : Expr} {s s' : Supply} (h : Step e s e' s') : s.next ≤ s'.next := by
  induction h with
  | redex x body a s => exact next_le_substitute x a body s
  | lam x h ih => exact ih
  | operator a hf h ih => exact ih
  | operand hf hnormal h ih => exact ih

/-- What is safe before a step is safe in its result, at the number reached. -/
theorem Step.safeAt {e e' : Expr} {s s' : Supply} (h : Step e s e' s') (he : e.SafeAt s.next) :
    e'.SafeAt s'.next := by
  induction h with
  | redex x body a s =>
    obtain ⟨hlam, ha⟩ := safeAt_app.1 he
    exact safeAt_substitute ha (safeAt_lam.1 hlam).2
  | lam x h ih =>
    obtain ⟨hx, hbody⟩ := safeAt_lam.1 he
    exact safeAt_lam.2 ⟨hx.mono h.next_le, ih hbody⟩
  | operator a hf h ih =>
    obtain ⟨hop, ha⟩ := safeAt_app.1 he
    exact safeAt_app.2 ⟨ih hop, ha.mono h.next_le⟩
  | operand hf hnormal h ih =>
    obtain ⟨hop, ha⟩ := safeAt_app.1 he
    exact safeAt_app.2 ⟨hop.mono h.next_le, ih ha⟩

theorem reduce_of_step? {e e' : Expr} {s s' : Supply} (h : e.step? s = some (e', s')) :
    e.reduce s = (e', s') := by
  rw [reduce, h, Option.getD_some]

theorem safeAt_reduce {e : Expr} {s : Supply} (he : e.SafeAt s.next) :
    (e.reduce s).1.SafeAt (e.reduce s).2.next := by
  rcases hstep : e.step? s with - | ⟨e', s'⟩
  · rw [reduce, hstep]
    exact he
  · rw [reduce_of_step? hstep]
    exact (Step.of_step? hstep).safeAt he

/-! ### The nameless form of a step -/

/-- The nameless form has a leftmost step where the expression has one, in every scope. -/
theorem isSome_leftmost?_namelessIn (scope : List Name) (e : Expr) :
    (e.namelessIn scope).leftmost?.isSome = e.isReducible := by
  induction e generalizing scope with
  | var x =>
    rw [namelessIn, resolve, isReducible]
    split <;> rfl
  | lam x body ih =>
    rw [namelessIn, Nameless.leftmost?_lam, Option.isSome_map, ih, isReducible]
  | app f a ihf iha =>
    rcases hf : f.isLam with - | -
    · rw [namelessIn, Nameless.leftmost?_app _ (by rw [isLam_namelessIn, hf]), Option.isSome_or,
        Option.isSome_map, Option.isSome_map, ihf, iha, isReducible, hf, Bool.false_or]
    · obtain ⟨x, body, rfl⟩ := exists_lam_of_isLam hf
      rfl

theorem leftmost?_namelessIn_eq_none {e : Expr} (h : e.isReducible = false) (scope : List Name) :
    (e.namelessIn scope).leftmost? = none := by
  rw [← Option.not_isSome_iff_eq_none, isSome_leftmost?_namelessIn, h]
  exact Bool.false_ne_true

/-- Contraction by substitution is contraction of the nameless form, whatever the names around the
redex are. -/
theorem namelessIn_substitute {x : Name} {a body : Expr} {s : Supply}
    (h : (app (lam x body) a).SafeAt s.next) (scope : List Name) :
    (substitute x a body s).1.namelessIn scope =
      (body.namelessIn (x :: scope)).instantiate (a.namelessIn scope) := by
  obtain ⟨hlam, ha⟩ := safeAt_app.1 h
  obtain ⟨hx, hbody⟩ := safeAt_lam.1 hlam
  rw [namelessIn_eq_interpret, namelessIn_eq_interpret, namelessIn_eq_interpret,
    interpret_substitute hx ha hbody, ← enter_resolve, instantiate_interpret_enter]

/-- A step of an expression is the leftmost step of its nameless form. -/
theorem Step.leftmost?_namelessIn {e e' : Expr} {s s' : Supply} (h : Step e s e' s')
    (he : e.SafeAt s.next) (scope : List Name) :
    (e.namelessIn scope).leftmost? = some (e'.namelessIn scope) := by
  induction h generalizing scope with
  | redex x body a s =>
    rw [namelessIn_substitute he, namelessIn, namelessIn, Nameless.leftmost?_redex]
  | lam x h ih =>
    rw [namelessIn, Nameless.leftmost?_lam, ih (safeAt_lam.1 he).2, Option.map_some, namelessIn]
  | operator a hf h ih =>
    rw [namelessIn, Nameless.leftmost?_app _ (by rw [isLam_namelessIn, hf]),
      ih (safeAt_app.1 he).1, Option.map_some, Option.some_or, namelessIn]
  | operand hf hnormal h ih =>
    rw [namelessIn, Nameless.leftmost?_app _ (by rw [isLam_namelessIn, hf]),
      leftmost?_namelessIn_eq_none hnormal, ih (safeAt_app.1 he).2, Option.map_none,
      Option.none_or, Option.map_some, namelessIn]

/-- The nameless forms of an expression and of its next reduct, if there is one. -/
theorem map_nameless_step? {e : Expr} {s : Supply} (he : e.SafeAt s.next) :
    (e.step? s).map (fun p ↦ p.1.nameless) = e.nameless.leftmost? := by
  rcases hstep : e.step? s with - | ⟨e', s'⟩
  · have hnormal : e.isReducible = false := by rw [← isSome_step? e s, hstep, Option.isSome_none]
    exact (leftmost?_namelessIn_eq_none hnormal []).symm
  · exact ((Step.of_step? hstep).leftmost?_namelessIn he []).symm

/-- Whether an expression is reducible can be read off the redexes of its nameless form. -/
theorem isReducible_iff_redexes (e : Expr) : e.isReducible = true ↔ e.nameless.redexes ≠ [] := by
  rw [← isSome_leftmost?_namelessIn [], Option.isSome_iff_ne_none, Ne, Ne,
    ← Nameless.normal_iff_redexes, ← Nameless.leftmost?_eq_none_iff, nameless]

theorem nameless_reduce {e : Expr} {s : Supply} (he : e.SafeAt s.next) {t : Nameless}
    (ht : e.nameless.leftmost? = some t) : (e.reduce s).1.nameless = t := by
  rw [← map_nameless_step? he] at ht
  obtain ⟨⟨e', s'⟩, hstep, rfl⟩ := Option.map_eq_some_iff.1 ht
  rw [reduce_of_step? hstep]

/-! ### The sequence of the reducts -/

/-- The reducts of an expression have the nameless forms of the leftmost reducts, one by one. -/
theorem map_nameless_take {e : Expr} {s : Supply} (he : e.SafeAt s.next) {n k : Nat} (hk : k < n) :
    ((Reductions.ofExpr e).take s n).1[k]?.map nameless = e.nameless.reduct? (k + 1) := by
  induction n generalizing e s k with
  | zero => omega
  | succ n ih =>
    have hform := map_nameless_step? he
    rcases hstep : e.step? s with - | ⟨e', s'⟩
    · have htake : ((Reductions.ofExpr e).take s (n + 1)).1 = [] := by
        simp [Reductions.take, Reductions.next, Reductions.ofExpr, hstep]
      rw [htake, Nameless.reduct?, ← hform, hstep]
      rfl
    · have htake : ((Reductions.ofExpr e).take s (n + 1)).1 =
          e' :: ((Reductions.ofExpr e').take s' n).1 := by
        simp [Reductions.take, Reductions.next, Reductions.ofExpr, hstep]
      rw [htake, Nameless.reduct?, ← hform, hstep, Option.map_some, Option.bind_some]
      cases k with
      | zero => rfl
      | succ k =>
        rw [List.getElem?_cons_succ]
        exact ih ((Step.of_step? hstep).safeAt he) (by omega)

/-- **One step contracts the first redex.** The nameless form after the step is the one before it
with the first redex in pre-order contracted and all else unchanged; the names are safe at the
number reached; and so the sequence of reducts has, one by one, the forms of the leftmost
reducts, and ends where those end. -/
theorem reduce_contracts_first_redex (e : Expr) (s : Supply) (he : e.SafeAt s.next) :
    (e.isReducible = true ↔ e.nameless.redexes ≠ []) ∧
    (∀ p, e.nameless.redexes.head? = some p →
      (e.reduce s).1.nameless = e.nameless.contractAt p) ∧
    (e.reduce s).1.SafeAt (e.reduce s).2.next ∧
    ∀ n k, k < n →
      ((Reductions.ofExpr e).take s n).1[k]?.map nameless = e.nameless.reduct? (k + 1) := by
  refine ⟨isReducible_iff_redexes e, fun p hp ↦ ?_, safeAt_reduce he,
    fun n k hk ↦ map_nameless_take he hk⟩
  exact nameless_reduce he (by rw [Nameless.leftmost?, hp, Option.map_some])

/-- The redex stands under an abstraction whose name is free in the operand, and the name bound in
the redex is changed. -/
theorem reduce_contracts_first_redex_under_lam :
    (lam "y" (app (lam "x" (lam "y" (app (var "x") (var "y")))) (var "y"))).SafeAt 0 ∧
    ((lam "y" (app (lam "x" (lam "y" (app (var "x") (var "y")))) (var "y"))).reduce
      {}).1.nameless = .lam (.lam (.app (bound 1) (bound 0))) := by
  have he : (lam "y" (app (lam "x" (lam "y" (app (var "x") (var "y")))) (var "y"))).SafeAt 0 :=
    Unprimed.safeAt (by decide) 0
  refine ⟨he, ?_⟩
  rw [(reduce_contracts_first_redex _ {} he).2.1 [.body] (by decide)]
  decide

end Expr

end UntypedLambda
