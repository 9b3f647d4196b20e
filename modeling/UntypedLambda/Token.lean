import UntypedLambda.Expr

/-!
# Tokens

The five kinds of token. An identifier carries its name; the other four have one text each, and
an abstraction is always written with `λ` even though a backslash is read as one.
-/

namespace UntypedLambda

/-- A token of the notation. -/
inductive Token where
  | lambda
  | dot
  | openParen
  | closeParen
  | ident (name : Name)
deriving DecidableEq, Repr

/-- What a token is written as. -/
def Token.text : Token → String
  | lambda => "λ"
  | dot => "."
  | openParen => "("
  | closeParen => ")"
  | ident name => name

end UntypedLambda
