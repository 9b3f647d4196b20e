/-!
# Expressions of the untyped lambda calculus

An expression is a variable, an abstraction over one name, or an application. A head with many
names exists in the notation only: `λx y. e` is `λx. λy. e`.

Names are arbitrary texts here. The reader produces ASCII letters only, and the supply of fresh
names adds names with a `'` in them, but nothing in this module depends on either.

Two computations of the free variables stand side by side. `isFree` asks after one name and
recurses on the tree; `freeVariables` collects them all and carries the names bound so far.
-/

namespace UntypedLambda

/-- A variable's name. -/
abbrev Name := String

/-- An expression of the untyped lambda calculus. -/
inductive Expr where
  | var (name : Name)
  | lam (binder : Name) (body : Expr)
  | app (operator operand : Expr)
deriving DecidableEq, Repr, Inhabited

namespace Expr

/-! ### Shape -/

/-- The number of nodes. It does not look at names, so renaming leaves it alone. -/
def size : Expr → Nat
  | var _ => 1
  | lam _ body => body.size + 1
  | app f a => f.size + a.size + 1

/-- Whether the expression is a variable. -/
def isVar : Expr → Bool
  | var _ => true
  | _ => false

/-- Whether the expression is an abstraction. -/
def isLam : Expr → Bool
  | lam _ _ => true
  | _ => false

/-- Whether the expression is an application. -/
def isApp : Expr → Bool
  | app _ _ => true
  | _ => false

/-- One abstraction for each name, the first name outermost. -/
def lams (names : List Name) (body : Expr) : Expr := names.foldr lam body

@[simp]
theorem lams_nil (body : Expr) : lams [] body = body := rfl

@[simp]
theorem lams_cons (x : Name) (xs : List Name) (body : Expr) :
    lams (x :: xs) body = lam x (lams xs body) := rfl

/-! ### Free variables -/

/-- Whether `x` occurs outside of every abstraction that binds it. -/
def isFree (x : Name) : Expr → Bool
  | var y => y == x
  | lam y body => y != x && body.isFree x
  | app f a => f.isFree x || a.isFree x

/-- Adds to `found` the variables that are free where the names `bound` are bound, each once. -/
def collectFree (bound : List Name) : Expr → List Name → List Name
  | var x, found => if bound.contains x then found else found.insert x
  | lam x body, found => body.collectFree (x :: bound) found
  | app f a, found => a.collectFree bound (f.collectFree bound found)

/-- The free variables, each once. -/
def freeVariables (e : Expr) : List Name := e.collectFree [] []

end Expr

end UntypedLambda
