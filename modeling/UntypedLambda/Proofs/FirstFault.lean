import Mathlib.Data.List.Infix
import UntypedLambda.Proofs.Parentheses
import UntypedLambda.Proofs.ReadNames

/-!
# The fault that is reported

Parsing reports a closing parenthesis too many if there is one, then an opening one too many. On
a balanced list it cuts the tokens into groups and reads those one inside the other, and still the
fault that it reports is the leftmost: the one at which a reader that goes through the tokens once,
and remembers only what it expects next, has to stop (`Expected.read`).

The reader does not know where a group ends. It need not, since a closing parenthesis is to it what
the end of the tokens is (`Expected.pass_closeParen`). So reading a group and then the rest is
reading the tokens in a row (`Expected.read_group`), and the comparison with the parser is branch
by branch (`map_parseSpine`). The reader never reports a parenthesis, so on a balanced list the
parser does not either.
-/

namespace UntypedLambda

namespace Expr

open Token

/-! ### A reader that goes through the tokens once -/

/-- What is expected next. -/
inductive Expected where
  /-- An expression, at the start, behind an opening parenthesis or behind a dot. -/
  | expr
  /-- A name to bind, right behind a `λ`. -/
  | binder
  /-- A further name or the dot, behind a bound name. -/
  | head
  /-- An operand, or the end of the expression, behind an atom. -/
  | operand
deriving DecidableEq, Repr

namespace Expected

/-- What is expected behind a token, or why the token may not stand there. -/
def pass : Expected → Token → Except ParseError Expected
  | expr, .ident _ => .ok operand
  | expr, .openParen => .ok expr
  | expr, .lambda => .ok binder
  | expr, .dot => .error .unexpectedDot
  | expr, .closeParen => .error .emptyExpression
  | binder, .ident _ => .ok head
  | binder, _ => .error .missingBoundVariable
  | head, .ident _ => .ok head
  | head, .dot => .ok expr
  | head, _ => .error .missingDot
  | operand, .ident _ => .ok operand
  | operand, .openParen => .ok expr
  | operand, .lambda => .ok binder
  | operand, .closeParen => .ok operand
  | operand, .dot => .error .unexpectedDot

/-- Whether the tokens may end here, or what is missing. -/
def finish : Expected → Except ParseError Unit
  | expr => .error .emptyExpression
  | binder => .error .missingBoundVariable
  | head => .error .missingDot
  | operand => .ok ()

/-- Reads the tokens from left to right and stops at the first fault. -/
def read (q : Expected) : List Token → Except ParseError Unit
  | [] => q.finish
  | t :: ts =>
    match q.pass t with
    | .error fault => .error fault
    | .ok q' => q'.read ts

/-- A closing parenthesis is met as the end of the tokens is. -/
theorem pass_closeParen (q : Expected) : q.pass closeParen = q.finish.map fun _ ↦ operand := by
  cases q <;> rfl

/-- To read the inside of a group and then the rest is to read the tokens in a row. -/
theorem read_group (q : Expected) (ts us : List Token) :
    q.read (ts ++ closeParen :: us) =
      match q.read ts with
      | .error fault => .error fault
      | .ok () => operand.read us := by
  induction ts generalizing q with
  | nil =>
    rw [List.nil_append, read, read, pass_closeParen]
    rcases q.finish with fault | - <;> rfl
  | cons t ts ih =>
    rw [List.cons_append, read, read]
    rcases q.pass t with fault | q'
    · rfl
    · exact ih q'

/-- Behind a bound name, the names up to the dot are passed over. -/
theorem read_head (ts : List Token) :
    head.read ts =
      match (splitNames ts).2 with
      | dot :: body => expr.read body
      | _ => .error .missingDot := by
  induction ts with
  | nil => rfl
  | cons t ts ih =>
    cases t with
    | ident x => exact ih
    | _ => rfl

/-- The head of an abstraction is read as the parser reads it. -/
theorem read_binder (ts : List Token) :
    binder.read ts =
      match splitHead ts with
      | .error fault => .error fault
      | .ok (_, body) => expr.read body := by
  rcases ts with - | ⟨t, ts⟩
  · rfl
  · cases t with
    | ident x =>
      show head.read ts = _
      rw [read_head, splitHead, splitNames]
      rcases splitNames ts with ⟨xs, - | ⟨u, us⟩⟩
      · rfl
      · cases u <;> rfl
    | _ => rfl

/-- No fault of the reader is about parentheses. -/
theorem read_ne_paren_fault (q : Expected) (ts : List Token) :
    q.read ts ≠ .error .unclosedParen ∧ q.read ts ≠ .error .unexpectedCloseParen := by
  induction ts generalizing q with
  | nil => cases q <;> simp [read, finish]
  | cons t ts ih =>
    rw [read]
    rcases hpass : q.pass t with fault | q'
    · cases q <;> cases t <;> cases hpass <;> simp
    · exact ih q'

end Expected

/-! ### The parser against the reader -/

/-- What is expected behind the spine read so far. -/
def expected : Option Expr → Expected
  | none => .expr
  | some _ => .operand

theorem read_expected_group {ts inner rest : List Token}
    (hsplit : splitGroup 0 ts = some (inner, rest)) (spine : Option Expr) :
    (expected spine).read (openParen :: ts) =
      match Expected.expr.read inner with
      | .error fault => .error fault
      | .ok () => Expected.operand.read rest := by
  have hopen : (expected spine).read (openParen :: ts) = Expected.expr.read ts := by
    cases spine <;> rfl
  rw [hopen, append_of_splitGroup hsplit, Expected.read_group]

theorem read_expected_lambda (spine : Option Expr) (ts : List Token) :
    (expected spine).read (lambda :: ts) =
      match splitHead ts with
      | .error fault => .error fault
      | .ok (_, body) => Expected.expr.read body := by
  have hlambda : (expected spine).read (lambda :: ts) = Expected.binder.read ts := by
    cases spine <;> rfl
  rw [hlambda, Expected.read_binder]

theorem Balanced.of_splitHead {ts body : List Token} {xs : List Name}
    (h : Balanced (lambda :: ts)) (hsplit : splitHead ts = .ok (xs, body)) : Balanced body := by
  rw [append_of_splitHead hsplit] at h
  exact Balanced.abstraction_iff.1 h

/-- On a balanced list the parser succeeds, or fails, as the reader does. -/
theorem map_parseSpine {spine : Option Expr} {ts : List Token} (h : Balanced ts) :
    (parseSpine spine ts).map (fun _ ↦ ()) = (expected spine).read ts := by
  fun_induction parseSpine spine ts with
  | case1 => rfl
  | case2 f => rfl
  | case3 spine x ts ih =>
    rw [ih h]
    cases spine <;> rfl
  | case4 spine ts hsplit => exact absurd hsplit h.splitGroup_ne_none
  | case5 spine ts inner rest hsplit hlength fault hinner ihinner =>
    have hread := ihinner (h.of_splitGroup hsplit).1
    rw [hinner] at hread
    rw [read_expected_group hsplit, show Expected.expr.read inner = .error fault from hread.symm]
    rfl
  | case6 spine ts inner rest hsplit hlength a hinner ihinner ihrest =>
    obtain ⟨hbalanced, hbalanced'⟩ := h.of_splitGroup hsplit
    have hread := ihinner hbalanced
    rw [hinner] at hread
    rw [read_expected_group hsplit, show Expected.expr.read inner = .ok () from hread.symm]
    exact ihrest hbalanced'
  | case7 spine ts fault hsplit =>
    rw [read_expected_lambda, hsplit]
    rfl
  | case8 spine ts xs body hsplit hlength _ hbody ih
  | case9 spine ts xs body hsplit hlength _ hbody ih =>
    have hread := ih (h.of_splitHead hsplit)
    rw [hbody] at hread
    rw [read_expected_lambda, hsplit]
    exact hread
  | case10 spine ts => cases h
  | case11 spine ts => cases spine <;> rfl

theorem parseUnchecked_ne_paren_fault {ts : List Token} (h : Balanced ts) :
    parseUnchecked ts ≠ .error .unclosedParen ∧
      parseUnchecked ts ≠ .error .unexpectedCloseParen := by
  have hread : (parseUnchecked ts).map (fun _ ↦ ()) = Expected.expr.read ts := map_parseSpine h
  have hfault := Expected.read_ne_paren_fault .expr ts
  rw [← hread] at hfault
  constructor
  · intro herror
    rw [herror] at hfault
    exact hfault.1 rfl
  · intro herror
    rw [herror] at hfault
    exact hfault.2 rfl

theorem parse_eq_unexpectedCloseParen_iff {ts : List Token} :
    parse ts = .error .unexpectedCloseParen ↔ depthAfter? 0 ts = none := by
  rw [parse, checkParens_eq]
  rcases hdepth : depthAfter? 0 ts with - | - | d
  · exact iff_of_true rfl rfl
  · exact iff_of_false (parseUnchecked_ne_paren_fault hdepth).2 (Option.some_ne_none 0)
  · exact iff_of_false (by simp [reportDepth]) (Option.some_ne_none (d + 1))

theorem parse_eq_unclosedParen_iff {ts : List Token} :
    parse ts = .error .unclosedParen ↔ ∃ d, depthAfter? 0 ts = some (d + 1) := by
  rw [parse, checkParens_eq]
  rcases hdepth : depthAfter? 0 ts with - | - | d
  · exact iff_of_false (by simp [reportDepth]) (by simp)
  · exact iff_of_false (parseUnchecked_ne_paren_fault hdepth).1 (by simp)
  · exact iff_of_true rfl ⟨d, rfl⟩

/-- **Parsing reports the right fault.** A closing parenthesis too many is reported if and only if
some part in front closes more than it opens. If there is none, an opening one too many is reported
if and only if more are opened than closed. If the counts agree as well, parsing ends as a single
pass through the tokens does, with the first fault that is met there; and it never reports a
parenthesis once the check of the parentheses has succeeded. -/
theorem parse_reports_first_fault (ts : List Token) :
    (parse ts = .error .unexpectedCloseParen ↔
      ∃ us, us <+: ts ∧ us.count openParen < us.count closeParen) ∧
    ((∀ us, us <+: ts → us.count closeParen ≤ us.count openParen) →
      (parse ts = .error .unclosedParen ↔ ts.count closeParen < ts.count openParen) ∧
      (ts.count closeParen = ts.count openParen →
        (parse ts).map (fun _ ↦ ()) = Expected.expr.read ts)) ∧
    (checkParens 0 ts = .ok () →
      parseUnchecked ts ≠ .error .unclosedParen ∧
        parseUnchecked ts ≠ .error .unexpectedCloseParen) := by
  refine ⟨?_, ?_, ?_⟩
  · rw [parse_eq_unexpectedCloseParen_iff, depthAfter?_eq_none_iff]
    simp only [Nat.zero_add]
  · intro hfront
    obtain ⟨d, hdepth, hcount⟩ := exists_depthAfter? hfront
    constructor
    · rw [parse_eq_unclosedParen_iff, hdepth]
      constructor
      · rintro ⟨d', hd⟩
        obtain rfl : d = d' + 1 := Option.some.inj hd
        omega
      · intro hlt
        exact ⟨d - 1, by rw [Nat.sub_add_cancel (by omega)]⟩
    · intro heq
      obtain rfl : d = 0 := by omega
      rw [parse_of_balanced hdepth]
      exact map_parseSpine hdepth
  · intro hcheck
    exact parseUnchecked_ne_paren_fault (checkParens_eq_ok_iff.1 hcheck)

/-- `(λ) .` has a fault inside the group and one behind it, and the one inside is reported; in
`(λ) . (` it is the parenthesis. -/
theorem parse_reports_first_fault_nested :
    (∀ us, us <+: [openParen, lambda, closeParen, dot, openParen] →
      us.count closeParen ≤ us.count openParen) ∧
    parse [openParen, lambda, closeParen, dot, openParen] = .error .unclosedParen ∧
    parse [openParen, lambda, closeParen, dot] = .error .missingBoundVariable ∧
    checkParens 0 [openParen, lambda, closeParen, dot] = .ok () ∧
    parseUnchecked [openParen, lambda, closeParen, dot] ≠ .error .unexpectedCloseParen := by
  have hfront : ∀ us, us <+: [openParen, lambda, closeParen, dot, openParen] →
      us.count closeParen ≤ us.count openParen := by
    intro us hus
    rw [← List.mem_inits] at hus
    revert us
    decide
  have hfront' : ∀ us, us <+: [openParen, lambda, closeParen, dot] →
      us.count closeParen ≤ us.count openParen :=
    fun us hus ↦ hfront us (hus.trans ⟨[openParen], rfl⟩)
  have hread := ((parse_reports_first_fault _).2.1 hfront').2 rfl
  refine ⟨hfront, ((parse_reports_first_fault _).2.1 hfront).1.2 (by decide), ?_, rfl,
    ((parse_reports_first_fault _).2.2 rfl).2⟩
  rcases hparse : parse [openParen, lambda, closeParen, dot] with fault | e
  · rw [hparse] at hread
    exact congrArg _ (Except.error.inj hread)
  · rw [hparse] at hread
    cases hread

end Expr

end UntypedLambda
