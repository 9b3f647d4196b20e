/-!
# Blanks

The white space of the notation is the Unicode property `White_Space`, everywhere: between
tokens, at the ends of a command's argument, at the end of a line. It has 25 members and is
wider than `Char.isWhitespace`, which knows ASCII only (`isBlank_of_isWhitespace`).

Text is handled as a list of characters throughout. Trimming is then `dropWhile` at one end
or the other, and what it keeps is read off the list lemmas.
-/

namespace UntypedLambda.Text

/-- The property `White_Space` of Unicode. -/
def isBlank (c : Char) : Bool :=
  let n := c.toNat
  (0x09 ≤ n && n ≤ 0x0D) || n == 0x20 || n == 0x85 || n == 0xA0 || n == 0x1680 ||
    (0x2000 ≤ n && n ≤ 0x200A) || n == 0x2028 || n == 0x2029 || n == 0x202F ||
    n == 0x205F || n == 0x3000

/-- Drops the blanks in front. -/
def trimStart (cs : List Char) : List Char := cs.dropWhile isBlank

/-- Drops the blanks at the end. -/
def trimEnd (cs : List Char) : List Char := (cs.reverse.dropWhile isBlank).reverse

/-- Drops the blanks at both ends. -/
def trim (cs : List Char) : List Char := trimEnd (trimStart cs)

/-! ### The table against the ASCII class -/

/-- Every blank of ASCII is a blank. -/
theorem isBlank_of_isWhitespace {c : Char} (h : c.isWhitespace) : isBlank c := by
  simp only [Char.isWhitespace, Bool.or_eq_true, decide_eq_true_eq] at h
  rcases h with ((rfl | rfl) | rfl) | rfl <;> decide

example : isBlank '\x0b' ∧ isBlank '\u0085' ∧ isBlank '\u3000' ∧ ¬ isBlank '\u200b' := by decide

end UntypedLambda.Text
