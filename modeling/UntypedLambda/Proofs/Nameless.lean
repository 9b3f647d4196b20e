import UntypedLambda.Expr

/-!
# Terms without bound names

The nameless form of an expression: a bound variable is the number of abstractions between it and
the one that binds it, a free variable keeps its name. Two expressions have the same nameless form
exactly when they differ in the names of their bound variables only, so this is where
substitution and reduction are specified: nothing can be captured, and no name has to be drawn.

Indices that point outside of a term are allowed, since a part of a term has them. They are
raised when the term goes under an abstraction (`lift`), and that is the only care that has to be
taken. Three operations are built on it:

* `subst` replaces all dangling indices at once, and `instantiate` the outermost of them, which is
  what contraction of a redex does;
* `replace` replaces a free name, which is what substitution into an expression does.

The laws are those that later proofs rewrite with: each operation commutes with `lift`
(`rename_lift`, `subst_lift`, `replace_lift`), and instantiation commutes with renaming and
substitution (`rename_instantiate`, `subst_instantiate`).
-/

namespace UntypedLambda

/-- A term of the lambda calculus in which bound variables are indices. -/
inductive Nameless where
  /-- A variable bound by the abstraction so many levels further out. -/
  | bound (index : Nat)
  /-- A variable that no abstraction binds. -/
  | free (name : Name)
  | lam (body : Nameless)
  | app (operator operand : Nameless)
deriving DecidableEq, Repr

namespace Nameless

/-- Whether the term is an abstraction. -/
def isLam : Nameless → Bool
  | lam _ => true
  | _ => false

/-! ### Renaming of indices -/

/-- A renaming as it acts under an abstraction, whose own variable is left alone. -/
def under (ξ : Nat → Nat) : Nat → Nat
  | 0 => 0
  | i + 1 => ξ i + 1

/-- Renames the dangling indices. -/
def rename (ξ : Nat → Nat) : Nameless → Nameless
  | bound i => bound (ξ i)
  | free x => free x
  | lam b => lam (b.rename (under ξ))
  | app f a => app (f.rename ξ) (a.rename ξ)

/-- The term as it reads one abstraction further in. -/
def lift (t : Nameless) : Nameless := t.rename Nat.succ

theorem under_comp (ξ ζ : Nat → Nat) : under ζ ∘ under ξ = under (ζ ∘ ξ) := by
  funext i
  cases i <;> rfl

theorem rename_rename (ξ ζ : Nat → Nat) (t : Nameless) :
    (t.rename ξ).rename ζ = t.rename (ζ ∘ ξ) := by
  induction t generalizing ξ ζ with
  | bound i => rfl
  | free x => rfl
  | lam b ih => rw [rename, rename, ih, under_comp, rename]
  | app f a ihf iha => rw [rename, rename, ihf, iha, rename]

theorem rename_lift (ξ : Nat → Nat) (t : Nameless) :
    t.lift.rename (under ξ) = (t.rename ξ).lift := by
  rw [lift, lift, rename_rename, rename_rename]
  show t.rename (under ξ ∘ Nat.succ) = t.rename (Nat.succ ∘ ξ)
  rfl

/-! ### Substitution for indices -/

/-- A term for index 0, and the terms of `σ` for the indices above it. -/
def extend (t : Nameless) (σ : Nat → Nameless) : Nat → Nameless
  | 0 => t
  | i + 1 => σ i

/-- A substitution as it acts under an abstraction, whose own variable is left alone. -/
def up (σ : Nat → Nameless) : Nat → Nameless := extend (bound 0) fun i ↦ (σ i).lift

/-- Replaces all dangling indices at once. -/
def subst (σ : Nat → Nameless) : Nameless → Nameless
  | bound i => σ i
  | free x => free x
  | lam b => lam (b.subst (up σ))
  | app f a => app (f.subst σ) (a.subst σ)

/-- The body of an abstraction with `a` for its variable: what the abstraction applied to `a`
contracts to. -/
def instantiate (b a : Nameless) : Nameless := b.subst (extend a bound)

theorem up_bound : up bound = bound := by
  funext i
  cases i <;> rfl

theorem subst_bound (t : Nameless) : t.subst bound = t := by
  induction t with
  | bound i => rfl
  | free x => rfl
  | lam b ih => rw [subst, up_bound, ih]
  | app f a ihf iha => rw [subst, ihf, iha]

theorem up_comp_under (ξ : Nat → Nat) (σ : Nat → Nameless) : up σ ∘ under ξ = up (σ ∘ ξ) := by
  funext i
  cases i <;> rfl

theorem subst_rename (ξ : Nat → Nat) (σ : Nat → Nameless) (t : Nameless) :
    (t.rename ξ).subst σ = t.subst (σ ∘ ξ) := by
  induction t generalizing ξ σ with
  | bound i => rfl
  | free x => rfl
  | lam b ih => rw [rename, subst, ih, up_comp_under, subst]
  | app f a ihf iha => rw [rename, subst, ihf, iha, subst]

theorem rename_comp_up (ξ : Nat → Nat) (σ : Nat → Nameless) :
    rename (under ξ) ∘ up σ = up (rename ξ ∘ σ) := by
  funext i
  cases i with
  | zero => rfl
  | succ i => exact rename_lift ξ (σ i)

theorem rename_subst (ξ : Nat → Nat) (σ : Nat → Nameless) (t : Nameless) :
    (t.subst σ).rename ξ = t.subst (rename ξ ∘ σ) := by
  induction t generalizing ξ σ with
  | bound i => rfl
  | free x => rfl
  | lam b ih => rw [subst, rename, ih, rename_comp_up, subst]
  | app f a ihf iha => rw [subst, rename, ihf, iha, subst]

theorem subst_lift (σ : Nat → Nameless) (t : Nameless) :
    t.lift.subst (up σ) = (t.subst σ).lift := by
  rw [lift, lift, subst_rename, rename_subst]
  show t.subst (up σ ∘ Nat.succ) = t.subst (rename Nat.succ ∘ σ)
  rfl

theorem subst_comp_up (σ τ : Nat → Nameless) : subst (up τ) ∘ up σ = up (subst τ ∘ σ) := by
  funext i
  cases i with
  | zero => rfl
  | succ i => exact subst_lift τ (σ i)

theorem subst_subst (σ τ : Nat → Nameless) (t : Nameless) :
    (t.subst σ).subst τ = t.subst (subst τ ∘ σ) := by
  induction t generalizing σ τ with
  | bound i => rfl
  | free x => rfl
  | lam b ih => rw [subst, subst, ih, subst_comp_up, subst]
  | app f a ihf iha => rw [subst, subst, ihf, iha, subst]

/-- What was lifted has no occurrence of the variable that is replaced. -/
@[simp]
theorem instantiate_lift (t a : Nameless) : t.lift.instantiate a = t := by
  rw [instantiate, lift, subst_rename]
  show t.subst bound = t
  exact subst_bound t

theorem subst_instantiate (σ : Nat → Nameless) (b a : Nameless) :
    (b.instantiate a).subst σ = (b.subst (up σ)).instantiate (a.subst σ) := by
  rw [instantiate, instantiate, subst_subst, subst_subst]
  congr 1
  funext i
  -- index 0 goes to the operand on both sides; above it, `up` has lifted and the instance undoes it
  cases i with
  | zero => rfl
  | succ i => exact (instantiate_lift (σ i) (a.subst σ)).symm

theorem rename_instantiate (ξ : Nat → Nat) (b a : Nameless) :
    (b.instantiate a).rename ξ = (b.rename (under ξ)).instantiate (a.rename ξ) := by
  rw [instantiate, instantiate, rename_subst, subst_rename]
  congr 1
  funext i
  cases i <;> rfl

/-! ### Substitution for a free name -/

/-- Replaces the free name `x` by `r`, which is lifted on its way under each abstraction. This is
the substitution that renaming of bound variables is meant to achieve. -/
def replace : Nameless → Name → Nameless → Nameless
  | bound i, _, _ => bound i
  | free y, x, r => if y = x then r else free y
  | lam b, x, r => lam (b.replace x r.lift)
  | app f a, x, r => app (f.replace x r) (a.replace x r)

theorem rename_replace (ξ : Nat → Nat) (x : Name) (r t : Nameless) :
    (t.replace x r).rename ξ = (t.rename ξ).replace x (r.rename ξ) := by
  induction t generalizing ξ r with
  | bound i => rfl
  | free y =>
    rw [replace, rename, replace]
    split <;> rfl
  | lam b ih => rw [replace, rename, ih, rename_lift, rename, replace]
  | app f a ihf iha => rw [replace, rename, ihf, iha, rename, replace]

theorem replace_lift (x : Name) (r t : Nameless) :
    t.lift.replace x r.lift = (t.replace x r).lift :=
  (rename_replace Nat.succ x r t).symm

end Nameless

end UntypedLambda
