import UntypedLambda.Expr.Substitute

/-!
# Reduction

A redex is an abstraction that is applied. One step contracts the leftmost outermost redex, also
under abstractions: the order that finds a normal form whenever there is one. `step?` has no
result exactly on the expressions without a redex.

`Reductions` is the sequence of the reducts of an expression, asked for one at a time. It holds
the last reduct, and nothing once a normal form has been met; it does not come back from there.
-/

namespace UntypedLambda

namespace Expr

/-- Whether there is a redex anywhere, under abstractions too. -/
def isReducible : Expr → Bool
  | var _ => false
  | lam _ body => body.isReducible
  | app f a => f.isLam || f.isReducible || a.isReducible

/-- Contracts the leftmost outermost redex, if there is a redex. -/
def step? : Expr → Supply → Option (Expr × Supply)
  | var _, _ => none
  | lam x body, s => (body.step? s).map fun (body', s') ↦ (lam x body', s')
  | app (lam x body) a, s => some (substitute x a body s)
  | app f a, s =>
    match f.step? s with
    | some (f', s') => some (app f' a, s')
    | none => (a.step? s).map fun (a', s') ↦ (app f a', s')

/-- Contracts the leftmost outermost redex. An expression without one stays as it is. -/
def reduce (e : Expr) (s : Supply) : Expr × Supply := (e.step? s).getD (e, s)

end Expr

/-- The reducts of an expression that are still to come. -/
structure Reductions where
  /-- The last reduct, or nothing once the sequence has ended. -/
  current : Option Expr
deriving DecidableEq, Repr

namespace Reductions

/-- The sequence of the reducts of `e`, without `e` itself. -/
def ofExpr (e : Expr) : Reductions := ⟨some e⟩

/-- The next reduct, and the sequence behind it. -/
def next (r : Reductions) (s : Supply) : Option Expr × Reductions × Supply :=
  match r.current with
  | none => (none, ⟨none⟩, s)
  | some e =>
    match e.step? s with
    | none => (none, ⟨none⟩, s)
    | some (e', s') => (some e', ⟨some e'⟩, s')

/-- The first `n` reducts, or all if there are fewer. -/
def take (r : Reductions) (s : Supply) : Nat → List Expr × Reductions × Supply
  | 0 => ([], r, s)
  | n + 1 =>
    match r.next s with
    | (none, r', s') => ([], r', s')
    | (some e, r', s') =>
      let (es, rest) := r'.take s' n
      (e :: es, rest)

end Reductions

end UntypedLambda
