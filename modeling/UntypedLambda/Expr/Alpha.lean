import UntypedLambda.Expr.Substitute

/-!
# Equality up to bound names

Two abstractions are compared by giving the right one the bound name of the left one. That name
must not be free on the right, or it would be captured. The replacement may draw fresh names,
so the comparison passes a supply on; it stops at the first difference, and draws nothing more.

The recursion is on the left expression, which is never changed.
-/

namespace UntypedLambda

namespace Expr

/-- Whether two expressions differ in the names of their bound variables only. -/
def alphaEquiv : Expr → Expr → Supply → Bool × Supply
  | var x, var y, s => (x == y, s)
  | app f a, app g b, s =>
    match f.alphaEquiv g s with
    | (true, s) => a.alphaEquiv b s
    | (false, s) => (false, s)
  | lam x body, lam y body', s =>
    if (lam y body').isFree x then (false, s)
    else
      let (renamed, s) := substitute y (var x) body' s
      body.alphaEquiv renamed s
  | _, _, s => (false, s)

end Expr

end UntypedLambda
