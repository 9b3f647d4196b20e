/-!
# Decimal numerals

A numeral is one or more ASCII digits, leading zeros allowed, with an optional `+` in front.
It is read exactly and then held against a bound, so a long numeral of small value is read and
a short one beyond the bound is not.
-/

namespace UntypedLambda.Text

/-- The value of a list of digits, most significant first. -/
def digitsValue (ds : List Char) : Nat :=
  ds.foldl (fun n d ↦ 10 * n + (d.toNat - '0'.toNat)) 0

/-- Reads one or more digits and nothing else. -/
def digits? (cs : List Char) : Option Nat :=
  if cs.isEmpty || !cs.all Char.isDigit then none else some (digitsValue cs)

/-- Reads a numeral with an optional `+` whose value is at most `bound`. -/
def decimal? (bound : Nat) (cs : List Char) : Option Nat :=
  let digits := match cs with
    | '+' :: rest => rest
    | _ => cs
  (digits? digits).filter (· ≤ bound)

example : decimal? 255 ['+', '0', '0', '7'] = some 7 ∧ decimal? 255 ['2', '5', '6'] = none ∧
    decimal? 255 ['+'] = none ∧ decimal? 255 ['+', '+', '1'] = none := by decide

end UntypedLambda.Text
