import UntypedLambda.Token

/-!
# Expressions as text

An expression is written in two steps: as the list of its tokens, and then those with spaces
between them. The first decides about parentheses, the second about blanks, and each is read
back on its own.

Only two places need parentheses: an abstraction that is applied, and an operand that is no
variable. Nested abstractions share one head. The place of a subexpression (`Place`) is all
that the tokens depend on besides the subexpression itself, so the recursion is structural;
the tokens are put in front of those that follow, which keeps it linear.
-/

namespace UntypedLambda

namespace Expr

open Token

/-- Where a subexpression stands. -/
inductive Place where
  /-- The whole expression, or the inside of parentheses. -/
  | whole
  /-- Right behind a bound name, so that a further name may follow or the dot. -/
  | head
  /-- The left side of an application. -/
  | operator
  /-- The right side of an application. -/
  | operand
deriving DecidableEq, Repr

/-- The tokens of an expression at a place, in front of the tokens `k`. -/
def emit : Expr → Place → List Token → List Token
  | var x, .head, k => dot :: ident x :: k
  | var x, _, k => ident x :: k
  | lam x body, .head, k => ident x :: body.emit .head k
  | lam x body, .whole, k => lambda :: ident x :: body.emit .head k
  | lam x body, _, k => openParen :: lambda :: ident x :: body.emit .head (closeParen :: k)
  | app f a, .head, k => dot :: f.emit .operator (a.emit .operand k)
  | app f a, .operand, k => openParen :: f.emit .operator (a.emit .operand (closeParen :: k))
  | app f a, _, k => f.emit .operator (a.emit .operand k)

/-- The tokens of an expression. -/
def tokens (e : Expr) : List Token := e.emit .whole []

end Expr

/-- Between two tokens stands a space, except on the inner side of a parenthesis. -/
def Token.gap : Token → Token → List Char
  | openParen, _ => []
  | _, closeParen => []
  | _, _ => [' ']

/-- Writes tokens one behind the other, with the gaps between them. -/
def Token.spaced : List Token → List Char
  | [] => []
  | [t] => t.text.toList
  | t :: u :: ts => t.text.toList ++ gap t u ++ spaced (u :: ts)

/-- The canonical text of an expression. -/
def Expr.render (e : Expr) : String := String.ofList (Token.spaced e.tokens)

end UntypedLambda
