import Mathlib.Logic.Function.Basic
import UntypedLambda.Proofs.Nameless

/-!
# The nameless form of an expression

`namelessIn scope e` is the nameless form of `e` where the names of `scope` are bound, the
innermost first: a variable is the position of its name in the scope, and free if it is not there.

For proofs the list is in the way. A scope matters only through what it makes of each name, and
`interpret` takes that function, the *environment*, in its place (`namelessIn_eq_interpret`). Then
substitution is a change of the environment, and a law of the nameless terms carries over from
the values of the environment to the expression (`interpret_rename`, `interpret_subst`,
`interpret_replace`). Only the values at free variables count (`interpret_congr`).
-/

namespace UntypedLambda

open Nameless

/-! ### Scopes -/

/-- What a name stands for where the names of `scope` are bound, the innermost first. -/
def resolve (scope : List Name) (x : Name) : Nameless :=
  match scope.idxOf? x with
  | some i => bound i
  | none => free x

@[simp]
theorem resolve_nil : resolve [] = free := rfl

namespace Expr

/-- The nameless form where the names of `scope` are bound, the innermost first. -/
def namelessIn (scope : List Name) : Expr → Nameless
  | var x => resolve scope x
  | lam x body => .lam (body.namelessIn (x :: scope))
  | app f a => .app (f.namelessIn scope) (a.namelessIn scope)

/-- The nameless form of an expression. -/
def nameless (e : Expr) : Nameless := e.namelessIn []

example : (lam "x" (lam "y" (app (var "x") (app (var "y") (var "z"))))).nameless =
    .lam (.lam (.app (bound 1) (.app (bound 0) (free "z")))) := by decide

theorem isLam_namelessIn (scope : List Name) (e : Expr) :
    (e.namelessIn scope).isLam = e.isLam := by
  cases e with
  | var x =>
    rw [namelessIn, resolve]
    split <;> rfl
  | lam x body => rfl
  | app f a => rfl

/-! ### Environments -/

/-- An environment under one more abstraction, which binds `x`. -/
def enter (x : Name) (ρ : Name → Nameless) : Name → Nameless :=
  fun y ↦ if y = x then bound 0 else (ρ y).lift

/-- The nameless form where each name stands for what the environment says. -/
def interpret (ρ : Name → Nameless) : Expr → Nameless
  | var x => ρ x
  | lam x body => .lam (body.interpret (enter x ρ))
  | app f a => .app (f.interpret ρ) (a.interpret ρ)

@[simp]
theorem enter_self (x : Name) (ρ : Name → Nameless) : enter x ρ x = bound 0 := if_pos rfl

theorem enter_of_ne {x y : Name} (h : y ≠ x) (ρ : Name → Nameless) : enter x ρ y = (ρ y).lift :=
  if_neg h

theorem enter_resolve (x : Name) (scope : List Name) :
    enter x (resolve scope) = resolve (x :: scope) := by
  funext y
  by_cases h : y = x
  · subst h
    simp [resolve, List.idxOf?_cons]
  · rw [enter_of_ne h, resolve, resolve, List.idxOf?_cons,
      if_neg (by simpa using fun hxy ↦ h hxy.symm)]
    rcases scope.idxOf? y with - | i <;> rfl

theorem namelessIn_eq_interpret (scope : List Name) (e : Expr) :
    e.namelessIn scope = e.interpret (resolve scope) := by
  induction e generalizing scope with
  | var x => rfl
  | lam x body ih => rw [namelessIn, interpret, ih, enter_resolve]
  | app f a ihf iha => rw [namelessIn, interpret, ihf, iha]

theorem nameless_eq_interpret (e : Expr) : e.nameless = e.interpret free :=
  namelessIn_eq_interpret [] e

/-- Environments that agree on the free variables give the same form. -/
theorem interpret_congr {e : Expr} {ρ ρ' : Name → Nameless}
    (h : ∀ x, e.isFree x → ρ x = ρ' x) : e.interpret ρ = e.interpret ρ' := by
  induction e generalizing ρ ρ' with
  | var x => exact h x (by simp [isFree])
  | lam x body ih =>
    rw [interpret, interpret]
    congr 1
    refine ih fun y hy ↦ ?_
    by_cases hyx : y = x
    · rw [hyx, enter_self, enter_self]
    · have hfree : (lam x body).isFree y := by simpa [isFree, hy] using fun hxy ↦ hyx hxy.symm
      rw [enter_of_ne hyx, enter_of_ne hyx, h y hfree]
  | app f a ihf iha =>
    rw [interpret, interpret, ihf fun x hx ↦ h x (by simp [isFree, hx]),
      iha fun x hx ↦ h x (by simp [isFree, hx])]

/-! ### Laws carried over from the nameless terms -/

theorem enter_rename (x : Name) (ξ : Nat → Nat) (ρ : Name → Nameless) :
    enter x (rename ξ ∘ ρ) = rename (under ξ) ∘ enter x ρ := by
  funext y
  by_cases h : y = x
  · rw [h, Function.comp_apply, enter_self, enter_self]
    rfl
  · rw [Function.comp_apply, enter_of_ne h, enter_of_ne h, rename_lift, Function.comp_apply]

theorem interpret_rename (ξ : Nat → Nat) (ρ : Name → Nameless) (e : Expr) :
    e.interpret (rename ξ ∘ ρ) = (e.interpret ρ).rename ξ := by
  induction e generalizing ξ ρ with
  | var x => rfl
  | lam x body ih => rw [interpret, enter_rename, ih, interpret, rename]
  | app f a ihf iha => rw [interpret, ihf, iha, interpret, rename]

theorem enter_subst (x : Name) (σ : Nat → Nameless) (ρ : Name → Nameless) :
    enter x (subst σ ∘ ρ) = subst (up σ) ∘ enter x ρ := by
  funext y
  by_cases h : y = x
  · rw [h, Function.comp_apply, enter_self, enter_self]
    rfl
  · rw [Function.comp_apply, enter_of_ne h, enter_of_ne h, subst_lift, Function.comp_apply]

theorem interpret_subst (σ : Nat → Nameless) (ρ : Name → Nameless) (e : Expr) :
    e.interpret (subst σ ∘ ρ) = (e.interpret ρ).subst σ := by
  induction e generalizing σ ρ with
  | var x => rfl
  | lam x body ih => rw [interpret, enter_subst, ih, interpret, subst]
  | app f a ihf iha => rw [interpret, ihf, iha, interpret, subst]

theorem enter_replace (x y : Name) (r : Nameless) (ρ : Name → Nameless) :
    enter x (fun z ↦ (ρ z).replace y r) = fun z ↦ (enter x ρ z).replace y r.lift := by
  funext z
  by_cases h : z = x
  · rw [h, enter_self, enter_self]
    rfl
  · rw [enter_of_ne h, enter_of_ne h, replace_lift]

theorem interpret_replace (y : Name) (r : Nameless) (ρ : Name → Nameless) (e : Expr) :
    e.interpret (fun z ↦ (ρ z).replace y r) = (e.interpret ρ).replace y r := by
  induction e generalizing r ρ with
  | var x => rfl
  | lam x body ih => rw [interpret, enter_replace, ih, interpret, replace]
  | app f a ihf iha => rw [interpret, ihf, iha, interpret, replace]

/-- Under an abstraction that binds none of its free variables, an expression reads as outside
and lifted. -/
theorem interpret_enter {e : Expr} {x : Name} (h : e.isFree x = false) (ρ : Name → Nameless) :
    e.interpret (enter x ρ) = (e.interpret ρ).lift := by
  rw [lift, ← interpret_rename]
  refine interpret_congr fun y hy ↦ ?_
  have hyx : y ≠ x := by
    rintro rfl
    simp [h] at hy
  rw [enter_of_ne hyx]
  rfl

/-- Contraction is a change of the environment: the variable of the abstraction stands for the
operand. -/
theorem instantiate_interpret_enter (x : Name) (ρ : Name → Nameless) (a : Nameless) (e : Expr) :
    (e.interpret (enter x ρ)).instantiate a = e.interpret (Function.update ρ x a) := by
  rw [instantiate, ← interpret_subst]
  congr 1
  funext y
  by_cases h : y = x
  · rw [h, Function.comp_apply, enter_self, Function.update_self]
    rfl
  · rw [Function.comp_apply, enter_of_ne h, Function.update_of_ne h]
    exact instantiate_lift (ρ y) a

/-- Replacing a free name in the form is a change of the environment too. -/
theorem replace_interpret_free (x : Name) (r : Nameless) (e : Expr) :
    (e.interpret free).replace x r = e.interpret (Function.update free x r) := by
  rw [← interpret_replace]
  congr 1
  funext y
  by_cases h : y = x
  · rw [h, Function.update_self, replace, if_pos rfl]
  · rw [Function.update_of_ne h, replace, if_neg h]

end Expr

end UntypedLambda
