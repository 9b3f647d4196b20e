import UntypedLambda.Expr.Alpha
import UntypedLambda.Proofs.Substitution

/-!
# The comparison up to bound names decides equality of nameless forms

Two abstractions are compared by giving the right one the bound name of the left one and comparing
the bodies. On safe names this answers exactly whether the nameless forms are equal, so it is an
equivalence relation, and the answer does not depend on where the supply stands.

The recursion is on the left expression and so is the induction (`alphaEquiv_iff`); the right one
is replaced by the result of a substitution at each abstraction, which is safe again at the number
reached. What has to be shown at an abstraction is about environments only. If the left name is
free on the right, the forms differ, since a free name can be read off a nameless form
(`occursFree_nameless`). If it is not, then the name can be taken out of both bodies and put back
without loss (`nameless_lam_eq_iff`).

That every expression equals itself needs no condition on the names. Both sides have the same bound
name then, and a variable that is put in for itself is captured nowhere: an abstraction that binds
it is left alone, and any other binds a different name (`substitute_var_self`). So nothing changes
at all, and nothing is drawn.
-/

namespace UntypedLambda

open Nameless (bound free)

/-! ### Free names of a nameless term -/

/-- Whether the free name `x` occurs. -/
def Nameless.occursFree (x : Name) : Nameless → Bool
  | .bound _ => false
  | .free y => y == x
  | .lam b => b.occursFree x
  | .app f a => f.occursFree x || a.occursFree x

namespace Expr

theorem occursFree_namelessIn (x : Name) (scope : List Name) (e : Expr) :
    (e.namelessIn scope).occursFree x = (e.isFree x && !scope.contains x) := by
  induction e generalizing scope with
  | var y =>
    rw [namelessIn, resolve, isFree]
    rcases hidx : scope.idxOf? y with - | i
    · have hy : y ∉ scope := List.idxOf?_eq_none_iff.1 hidx
      by_cases hyx : y = x
      · subst hyx
        simp [Nameless.occursFree, hy]
      · simp [Nameless.occursFree, hyx]
    · have hy : y ∈ scope := List.isSome_idxOf?.1 (by rw [hidx]; rfl)
      by_cases hyx : y = x
      · subst hyx
        simp [Nameless.occursFree, hy]
      · simp [Nameless.occursFree, hyx]
  | lam y body ih =>
    rw [namelessIn, Nameless.occursFree, ih, isFree, List.contains_cons]
    by_cases hyx : y = x
    · simp [hyx]
    · rw [bne_iff_ne.2 hyx, beq_false_of_ne (Ne.symm hyx), Bool.true_and, Bool.false_or]
  | app f a ihf iha =>
    rw [namelessIn, Nameless.occursFree, ihf, iha, isFree, Bool.and_or_distrib_right]

/-- The free variables of an expression are the free names of its nameless form. -/
theorem occursFree_nameless (x : Name) (e : Expr) : e.nameless.occursFree x = e.isFree x := by
  rw [nameless, occursFree_namelessIn]
  simp

/-! ### Abstractions with different bound names -/

/-- A body whose variable has been given a name, with that name bound again. -/
theorem interpret_enter_eq_replace {x y : Name} {body : Expr} (h : (lam y body).isFree x = false) :
    body.interpret (enter y free) =
      ((body.interpret (Function.update free y (free x))).lift).replace x (bound 0) := by
  rw [Nameless.lift, ← interpret_rename, ← interpret_replace]
  refine interpret_congr fun z hz ↦ ?_
  by_cases hzy : z = y
  · rw [hzy, enter_self, Function.comp_apply, Function.update_self]
    exact (if_pos rfl).symm
  · have hzx : z ≠ x := by
      rintro rfl
      simp [isFree, hz, Ne.symm hzy] at h
    rw [enter_of_ne hzy, Function.comp_apply, Function.update_of_ne hzy]
    exact (if_neg hzx).symm

/-- Abstractions have the same form when their bodies have, with one name for both variables. -/
theorem nameless_lam_eq_iff {x y : Name} {body body' : Expr} (h : (lam y body').isFree x = false) :
    (lam x body).nameless = (lam y body').nameless ↔
      body.nameless = body'.interpret (Function.update free y (free x)) := by
  rw [nameless_eq_interpret, nameless_eq_interpret, nameless_eq_interpret, interpret, interpret,
    Nameless.lam.injEq]
  constructor
  · intro heq
    have hinst := congrArg (Nameless.instantiate · (free x)) heq
    simpa only [instantiate_interpret_enter, Function.update_eq_self] using hinst
  · intro heq
    have hx : (lam x body).isFree x = false := by simp [isFree]
    rw [interpret_enter_eq_replace hx, interpret_enter_eq_replace h, Function.update_eq_self, heq]

/-! ### The comparison -/

theorem alphaEquiv_app (f g a b : Expr) (s : Supply) :
    (app f a).alphaEquiv (app g b) s =
      if (f.alphaEquiv g s).1 then a.alphaEquiv b (f.alphaEquiv g s).2
      else (false, (f.alphaEquiv g s).2) := by
  rw [alphaEquiv]
  rcases f.alphaEquiv g s with ⟨- | -, s'⟩ <;> rfl

theorem alphaEquiv_lam (x y : Name) (body body' : Expr) (s : Supply) :
    (lam x body).alphaEquiv (lam y body') s =
      if (lam y body').isFree x then (false, s)
      else body.alphaEquiv (substitute y (var x) body' s).1 (substitute y (var x) body' s).2 :=
  rfl

theorem next_le_alphaEquiv (a b : Expr) (s : Supply) : s.next ≤ (a.alphaEquiv b s).2.next := by
  induction a generalizing b s with
  | var x => cases b <;> exact Nat.le_refl _
  | lam x body ih =>
    cases b with
    | var y => exact Nat.le_refl _
    | app g c => exact Nat.le_refl _
    | lam y body' =>
      rw [alphaEquiv_lam]
      split
      · exact Nat.le_refl _
      · exact Nat.le_trans (next_le_substitute y (var x) body' s) (ih _ _)
  | app f a ihf iha =>
    cases b with
    | var y => exact Nat.le_refl _
    | lam y body' => exact Nat.le_refl _
    | app g c =>
      rw [alphaEquiv_app]
      split
      · exact Nat.le_trans (ihf g s) (iha c _)
      · exact ihf g s

/-- On safe names the comparison answers whether the nameless forms are equal. -/
theorem alphaEquiv_iff {a b : Expr} {s : Supply} (ha : a.SafeAt s.next) (hb : b.SafeAt s.next) :
    (a.alphaEquiv b s).1 = true ↔ a.nameless = b.nameless := by
  induction a generalizing b s with
  | var x =>
    cases b with
    | var y => simp [alphaEquiv, nameless, namelessIn]
    | lam y body' => simp [alphaEquiv, nameless, namelessIn]
    | app g c => simp [alphaEquiv, nameless, namelessIn]
  | lam x body ih =>
    cases b with
    | var y => simp [alphaEquiv, nameless, namelessIn]
    | app g c => simp [alphaEquiv, nameless, namelessIn]
    | lam y body' =>
      obtain ⟨hx, hbody⟩ := safeAt_lam.1 ha
      obtain ⟨hy, hbody'⟩ := safeAt_lam.1 hb
      rw [alphaEquiv_lam]
      rcases hfree : (lam y body').isFree x with - | -
      · have hle := next_le_substitute y (var x) body' s
        have hrenamed := safeAt_substitute (x := y) (safeAt_var.2 hx) hbody'
        rw [if_neg Bool.false_ne_true, ih (hbody.mono hle) hrenamed, nameless_lam_eq_iff hfree,
          nameless_eq_interpret (substitute y (var x) body' s).1,
          interpret_substitute hy (safeAt_var.2 hx) hbody']
        rfl
      · rw [if_pos rfl]
        refine ⟨fun h ↦ absurd h Bool.false_ne_true, fun heq ↦ ?_⟩
        -- `x` is free on the right and bound on the left
        have hright := occursFree_nameless x (lam y body')
        rw [← heq, occursFree_nameless, hfree] at hright
        simp [isFree] at hright
  | app f a ihf iha =>
    cases b with
    | var y => simp [alphaEquiv, nameless, namelessIn]
    | lam y body' => simp [alphaEquiv, nameless, namelessIn]
    | app g c =>
      obtain ⟨hf, ha⟩ := safeAt_app.1 ha
      obtain ⟨hg, hc⟩ := safeAt_app.1 hb
      have hle := next_le_alphaEquiv f g s
      have hforms : (app f a).nameless = (app g c).nameless ↔
          f.nameless = g.nameless ∧ a.nameless = c.nameless := by
        simp [nameless, namelessIn]
      rw [alphaEquiv_app, hforms, ← ihf hf hg, ← iha (ha.mono hle) (hc.mono hle)]
      split
      · next htrue => simp [htrue]
      · next hfalse => simp [hfalse]

/-- **The comparison decides equality up to bound names.** On expressions whose names are safe it
answers whether the nameless forms are equal; it is an equivalence relation there, and it gives the
same answer from every supply at which the names are safe. -/
theorem alphaEquiv_decides (s : Supply) :
    (∀ a b : Expr, a.SafeAt s.next → b.SafeAt s.next →
      ((a.alphaEquiv b s).1 = true ↔ a.nameless = b.nameless)) ∧
    Equivalence (fun a b : { e : Expr // e.SafeAt s.next } ↦
      (a.1.alphaEquiv b.1 s).1 = true) ∧
    ∀ (a b : Expr) (s' : Supply), a.SafeAt s.next → b.SafeAt s.next → a.SafeAt s'.next →
      b.SafeAt s'.next → (a.alphaEquiv b s').1 = (a.alphaEquiv b s).1 := by
  refine ⟨fun a b ha hb ↦ alphaEquiv_iff ha hb, ⟨?_, ?_, ?_⟩, ?_⟩
  · intro a
    exact (alphaEquiv_iff a.2 a.2).2 rfl
  · intro a b hab
    exact (alphaEquiv_iff b.2 a.2).2 ((alphaEquiv_iff a.2 b.2).1 hab).symm
  · intro a b c hab hbc
    exact (alphaEquiv_iff a.2 c.2).2
      (((alphaEquiv_iff a.2 b.2).1 hab).trans ((alphaEquiv_iff b.2 c.2).1 hbc))
  · intro a b s' ha hb ha' hb'
    rw [Bool.eq_iff_iff, alphaEquiv_iff ha' hb', alphaEquiv_iff ha hb]

/-- The bound names are swapped, so that a further one has to be changed on the way. -/
theorem alphaEquiv_decides_swapped :
    (lam "x" (lam "y" (app (var "x") (var "y")))).SafeAt 0 ∧
    (lam "y" (lam "x" (app (var "y") (var "x")))).SafeAt 0 ∧
    ((lam "x" (lam "y" (app (var "x") (var "y")))).alphaEquiv
      (lam "y" (lam "x" (app (var "y") (var "x")))) {}).1 = true := by
  have ha : (lam "x" (lam "y" (app (var "x") (var "y")))).SafeAt 0 := Unprimed.safeAt (by decide) 0
  have hb : (lam "y" (lam "x" (app (var "y") (var "x")))).SafeAt 0 := Unprimed.safeAt (by decide) 0
  exact ⟨ha, hb, ((alphaEquiv_decides {}).1 _ _ ha hb).2 (by decide)⟩

/-! ### Names of any kind -/

/-- A variable that is put in for itself changes nothing and draws nothing. -/
theorem substitute_var_self (x : Name) (e : Expr) (s : Supply) :
    substitute x (var x) e s = (e, s) := by
  induction e generalizing s with
  | var y =>
    rw [substitute_var]
    split
    · next hyx => rw [hyx]
    · rfl
  | lam y body ih =>
    rw [substitute_lam]
    split
    · rfl
    · next hyx =>
      -- the one name that could be captured is `x`, and this abstraction does not bind it
      have hfree : (var x).isFree y = false := by
        rw [isFree, beq_eq_false_iff_ne]
        exact Ne.symm hyx
      rw [hfree, if_neg Bool.false_ne_true, ih]
  | app f a ihf iha => rw [substitute_app, ihf, iha]

/-- An expression compared with itself is found equal, and nothing is drawn. -/
theorem alphaEquiv_self (e : Expr) (s : Supply) : e.alphaEquiv e s = (true, s) := by
  induction e generalizing s with
  | var x => rw [alphaEquiv, beq_self_eq_true]
  | lam x body ih =>
    have hfree : (lam x body).isFree x = false := by simp [isFree]
    rw [alphaEquiv_lam, hfree, if_neg Bool.false_ne_true, substitute_var_self, ih]
  | app f a ihf iha => rw [alphaEquiv_app, ihf, if_pos rfl, iha]

/-- **Putting a variable in for itself, and comparing an expression with itself, are exact.** The
names are arbitrary, also such as the fresh names to come. The substitution returns the very
expression that went in, the comparison says that the two sides are equal, and both leave the supply
as it was: no name is drawn and no event noted. -/
theorem self_substitution_and_comparison_exact (e : Expr) :
    (∀ (x : Name) (s : Supply), substitute x (var x) e s = (e, s)) ∧
      ∀ s : Supply, e.alphaEquiv e s = (true, s) :=
  ⟨fun x s ↦ substitute_var_self x e s, alphaEquiv_self e⟩

/-- Two abstractions bind the same name, and one between them the fresh name that comes next. -/
example :
    let e := lam "x" (lam "x'0" (app (lam "x" (var "x'0")) (var "x")))
    substitute "x'0" (var "x'0") e {} = (e, {}) ∧ e.alphaEquiv e {} = (true, {}) := by
  decide +kernel

end Expr

end UntypedLambda
