import UntypedLambda.Token.Scan

/-!
# Expressions from tokens

Application associates to the left, an abstraction stretches as far as it can, and parentheses
group. A list of tokens is read as a *spine*: the expression read so far, absent at the start,
to which each further atom is applied. An abstraction ends the spine, since its body takes all
the tokens that are left.

The recursion is on the number of tokens. A group is cut at its matching parenthesis before its
inside is read (`splitGroup`), so both the inside and the rest are shorter than the whole
(`length_of_splitGroup`), and so is what stands behind the dot of an abstraction
(`length_of_splitHead`).

Which of several faults is reported is part of the contract. `parse` first compares the counts
of the parentheses from left to right; `parseSpine` alone reports the first fault that it
meets on its way.
-/

namespace UntypedLambda

/-- Why a list of tokens is no expression. -/
inductive ParseError where
  | emptyExpression
  | missingBoundVariable
  | missingDot
  | unclosedParen
  | unexpectedCloseParen
  | unexpectedDot
deriving DecidableEq, Repr

/-- How the error is reported. -/
def ParseError.message : ParseError → String
  | emptyExpression => "expected an expression"
  | missingBoundVariable => "lambda requires at least one variable"
  | missingDot => "lambda requires a dot before its body"
  | unclosedParen => "unclosed parenthesis"
  | unexpectedCloseParen => "extra closing parenthesis"
  | unexpectedDot => "dot outside of a lambda head"

namespace Expr

open Token

/-! ### Cutting at parentheses and dots -/

/-- Cuts the tokens behind an opening parenthesis at the one that closes it. `depth` is the
number of groups that are open inside. -/
def splitGroup : Nat → List Token → Option (List Token × List Token)
  | _, [] => none
  | 0, closeParen :: ts => some ([], ts)
  | depth + 1, closeParen :: ts =>
    (splitGroup depth ts).map fun (inner, rest) ↦ (closeParen :: inner, rest)
  | depth, openParen :: ts =>
    (splitGroup (depth + 1) ts).map fun (inner, rest) ↦ (openParen :: inner, rest)
  | depth, t :: ts =>
    (splitGroup depth ts).map fun (inner, rest) ↦ (t :: inner, rest)

/-- A cut group loses nothing but the parenthesis that closes it. -/
theorem append_of_splitGroup {depth : Nat} {ts inner rest : List Token}
    (h : splitGroup depth ts = some (inner, rest)) : ts = inner ++ closeParen :: rest := by
  fun_induction splitGroup depth ts generalizing inner rest with
  | case1 => simp at h
  | case2 ts =>
    obtain ⟨rfl, rfl⟩ := by simpa using h
    rfl
  | case3 _ _ ih | case4 _ _ ih | case5 _ _ _ _ _ _ ih =>
    simp only [Option.map_eq_some_iff, Prod.exists, Prod.mk.injEq] at h
    obtain ⟨inner', rest', hsplit, rfl, rfl⟩ := h
    rw [ih hsplit]
    rfl

/-- Both parts of a cut group are shorter than the whole. -/
theorem length_of_splitGroup {depth : Nat} {ts inner rest : List Token}
    (h : splitGroup depth ts = some (inner, rest)) :
    inner.length + rest.length + 1 = ts.length := by
  rw [append_of_splitGroup h]
  simp +arith

/-- The names in front of a list of tokens, and what stands behind them. -/
def splitNames : List Token → List Name × List Token
  | ident x :: ts =>
    let (names, rest) := splitNames ts
    (x :: names, rest)
  | ts => ([], ts)

theorem append_splitNames (ts : List Token) :
    (splitNames ts).1.map ident ++ (splitNames ts).2 = ts := by
  fun_induction splitNames ts with
  | case1 x ts names rest hsplit ih => simp_all
  | case2 ts => rfl

/-- Reads the head of an abstraction behind its `λ`: the names, the dot, and then the tokens of
the body. -/
def splitHead (ts : List Token) : Except ParseError (List Name × List Token) :=
  match splitNames ts with
  | ([], _) => .error .missingBoundVariable
  | (names, dot :: body) => .ok (names, body)
  | _ => .error .missingDot

/-- The body of an abstraction is shorter than the abstraction. -/
theorem length_of_splitHead {ts body : List Token} {names : List Name}
    (h : splitHead ts = .ok (names, body)) : body.length < ts.length := by
  have happend := append_splitNames ts
  unfold splitHead at h
  split at h
  · cases h
  · next hsplit =>
    cases h
    rw [hsplit] at happend
    simp [← happend]
    omega
  · cases h

/-! ### The spine -/

/-- Applies the expression read so far to the next one; the first one is taken as it is. -/
def applied : Option Expr → Expr → Expr
  | none, e => e
  | some f, e => app f e

/-- Reads the rest of a spine. -/
def parseSpine (spine : Option Expr) : List Token → Except ParseError Expr
  | [] =>
    match spine with
    | none => .error .emptyExpression
    | some e => .ok e
  | ident x :: ts => parseSpine (some (applied spine (var x))) ts
  | openParen :: ts =>
    match h : splitGroup 0 ts with
    | none => .error .unclosedParen
    | some (inner, rest) =>
      have := length_of_splitGroup h
      match parseSpine none inner with
      | .error fault => .error fault
      | .ok e => parseSpine (some (applied spine e)) rest
  | lambda :: ts =>
    match h : splitHead ts with
    | .error fault => .error fault
    | .ok (names, body) =>
      have := length_of_splitHead h
      match parseSpine none body with
      | .error fault => .error fault
      | .ok e => .ok (applied spine (lams names e))
  | closeParen :: _ => .error .unexpectedCloseParen
  | dot :: _ => .error .unexpectedDot
termination_by ts => ts.length
decreasing_by all_goals simp only [List.length_cons]; omega

/-- Reads an expression without comparing the parentheses first. -/
def parseUnchecked (ts : List Token) : Except ParseError Expr := parseSpine none ts

/-! ### The check of the parentheses -/

/-- Compares the parentheses from left to right, `depth` of them being open. -/
def checkParens : Nat → List Token → Except ParseError Unit
  | 0, [] => .ok ()
  | _ + 1, [] => .error .unclosedParen
  | depth, openParen :: ts => checkParens (depth + 1) ts
  | 0, closeParen :: _ => .error .unexpectedCloseParen
  | depth + 1, closeParen :: ts => checkParens depth ts
  | depth, _ :: ts => checkParens depth ts

/-- The expression that a list of tokens stands for. -/
def parse (ts : List Token) : Except ParseError Expr :=
  match checkParens 0 ts with
  | .error fault => .error fault
  | .ok () => parseUnchecked ts

end Expr

/-! ### Reading text -/

/-- Why a text is no expression. -/
inductive ReadError where
  | scan (fault : ScanError)
  | parse (fault : ParseError)
deriving DecidableEq, Repr

/-- How the error is reported. -/
def ReadError.message : ReadError → String
  | scan fault => "lexing error: " ++ fault.message
  | parse fault => "parsing error: " ++ fault.message

/-- The expression that a text stands for. -/
def Expr.read (text : String) : Except ReadError Expr :=
  match Token.tokenize text with
  | .error fault => .error (.scan fault)
  | .ok ts =>
    match Expr.parse ts with
    | .error fault => .error (.parse fault)
    | .ok e => .ok e

end UntypedLambda
