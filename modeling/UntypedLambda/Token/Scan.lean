import UntypedLambda.Text.Blank
import UntypedLambda.Token

/-!
# Scanning

Text is read from left to right into a list of items, each a token or a character that belongs
to no token. Scanning resumes behind such a character, so the list of items always covers the
whole text; `tokenize` is the list of items if none of them is an error, and the first error
otherwise.

A position is a number of bytes of the UTF-8 form, so it depends on the size of the characters
before it. The scanner carries it along and never goes back.
-/

namespace UntypedLambda

/-- A character that belongs to no token, and the number of bytes before it. -/
structure ScanError where
  character : Char
  position : Nat
deriving DecidableEq, Repr

/-- How the error is reported. -/
def ScanError.message (e : ScanError) : String :=
  "unknown character '" ++ e.character.toString ++ "' at position " ++ toString e.position

namespace Token

/-- One item of a scanned text. -/
abbrev Item := Except ScanError Token

/-- The letters of an identifier are the ASCII letters. -/
def isLetter (c : Char) : Bool := c.isAlpha

/-- The token that a character alone makes up. -/
def ofMark? : Char → Option Token
  | 'λ' => some lambda
  | '\\' => some lambda
  | '.' => some dot
  | '(' => some openParen
  | ')' => some closeParen
  | _ => none

theorem length_dropWhile_le {α : Type} (p : α → Bool) (as : List α) :
    (as.dropWhile p).length ≤ as.length := by
  induction as with
  | nil => simp
  | cons a as ih =>
    rw [List.dropWhile_cons]
    split
    · exact Nat.le_succ_of_le ih
    · exact Nat.le_refl _

/-- The items of a text that starts at byte `position`. A run of letters is one identifier, as
long as it goes. -/
def scanFrom (position : Nat) : List Char → List Item
  | [] => []
  | c :: cs =>
    if Text.isBlank c then scanFrom (position + c.utf8Size) cs
    else if isLetter c then
      let word := c :: cs.takeWhile isLetter
      .ok (.ident (String.ofList word)) ::
        scanFrom (position + word.length) (cs.dropWhile isLetter)
    else
      let item := match ofMark? c with
        | some token => .ok token
        | none => .error ⟨c, position⟩
      item :: scanFrom (position + c.utf8Size) cs
termination_by cs => cs.length
decreasing_by
  · simp
  · simpa using Nat.lt_succ_of_le (length_dropWhile_le isLetter cs)
  · simp

/-- All items of a text. -/
def scan (text : String) : List Item := scanFrom 0 text.toList

/-- The tokens of a text, or the first character that belongs to none. -/
def tokenize (text : String) : Except ScanError (List Token) := (scan text).mapM id

end Token

end UntypedLambda
