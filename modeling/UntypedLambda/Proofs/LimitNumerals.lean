import Mathlib.Data.Nat.Digits.Defs
import UntypedLambda.Proofs.CommandGrammar

/-!
# Which texts are read as a limit

A limit is written as a decimal numeral with blanks around it. What a numeral is, and what its value
is, is said here without the reader: an optional `+` and one or more ASCII digits, each of which
counts as much as its place does (`IsNumeral`, by way of `Nat.ofDigits`). The reader accepts exactly
the numerals whose value fits into 64 bits (`decimal?_eq_some_iff`).

The reader takes the digits as a whole and holds the value against the bound in the end. Where
numbers have 64 bits to begin with, that is not possible: every product and every sum on the way has
to be held against the bound (`appendDigit?`), and reading stops at the first that is too large.
Both read the same (`checkedDecimal?_eq`), since a value only grows with the digits behind it
(`le_foldl_digitValue`): what is too large after some digits, leading zeros or not, is too large in
the end.
-/

namespace UntypedLambda

open Token (IsBlankRun)

namespace Text

/-! ### Numerals and their values -/

/-- What a digit counts for in the last place. -/
def digitValue (d : Char) : Nat := d.toNat - '0'.toNat

/-- One or more characters, all of them ASCII digits. -/
structure IsDigits (ds : List Char) : Prop where
  ne_nil : ds ≠ []
  isDigit : ∀ d ∈ ds, d.isDigit = true

/-- A numeral, which is some digits with or without a `+` in front, and its value. -/
inductive IsNumeral : List Char → Nat → Prop
  | digits {ds : List Char} : IsDigits ds →
      IsNumeral ds (Nat.ofDigits 10 (ds.map digitValue).reverse)
  | plus {ds : List Char} : IsDigits ds →
      IsNumeral ('+' :: ds) (Nat.ofDigits 10 (ds.map digitValue).reverse)

/-- A text without the `+` in front of it. -/
def unsigned (cs : List Char) : List Char :=
  match cs with
  | '+' :: ds => ds
  | _ => cs

theorem unsigned_of_isDigits {ds : List Char} (h : IsDigits ds) : unsigned ds = ds := by
  unfold unsigned
  split
  · exact absurd (h.isDigit '+' List.mem_cons_self) (by decide)
  · rfl

theorem digitsValue_eq (ds : List Char) :
    digitsValue ds = Nat.ofDigits 10 (ds.map digitValue).reverse := by
  rw [Nat.ofDigits_eq_foldr, List.foldr_reverse, List.foldl_map, digitsValue]
  simp only [Nat.cast_id, Nat.add_comm, digitValue]

theorem isNumeral_iff {cs : List Char} {n : Nat} :
    IsNumeral cs n ↔ IsDigits (unsigned cs) ∧ n = digitsValue (unsigned cs) := by
  constructor
  · rintro (hds | hds)
    · rw [unsigned_of_isDigits hds, digitsValue_eq]
      exact ⟨hds, rfl⟩
    · exact ⟨hds, (digitsValue_eq _).symm⟩
  · rintro ⟨hds, rfl⟩
    rw [digitsValue_eq]
    unfold unsigned at hds ⊢
    split at hds
    · exact .plus hds
    · exact .digits hds

/-! ### The reader -/

theorem digits?_eq_some_iff {ds : List Char} {n : Nat} :
    digits? ds = some n ↔ IsDigits ds ∧ n = digitsValue ds := by
  have hdigits : IsDigits ds ↔ ¬ (ds.isEmpty || !ds.all Char.isDigit) = true := by
    simp only [Bool.or_eq_true, List.isEmpty_iff, Bool.not_eq_true', List.all_eq_false, not_or,
      not_exists, not_and, not_not]
    exact ⟨fun h ↦ ⟨h.ne_nil, h.isDigit⟩, fun h ↦ ⟨h.1, h.2⟩⟩
  rw [digits?, hdigits]
  split
  · next hnot => simp [hnot]
  · next hds => simp [hds, eq_comm]

theorem decimal?_eq (bound : Nat) (cs : List Char) :
    decimal? bound cs = (digits? (unsigned cs)).filter (· ≤ bound) := rfl

/-- A text is read if and only if it is a numeral of a value within the bound. -/
theorem decimal?_eq_some_iff {bound : Nat} {cs : List Char} {n : Nat} :
    decimal? bound cs = some n ↔ IsNumeral cs n ∧ n ≤ bound := by
  rw [decimal?_eq, Option.filter_eq_some_iff, digits?_eq_some_iff, ← isNumeral_iff,
    decide_eq_true_iff]

/-! ### Reading digit by digit -/

/-- The value with one digit more behind it, if that is a digit and neither the product nor the sum
goes beyond the bound. -/
def appendDigit? (bound n : Nat) (d : Char) : Option Nat :=
  if d.isDigit then
    (Option.guard (· ≤ bound) (10 * n)).bind fun tens ↦
      Option.guard (· ≤ bound) (tens + digitValue d)
  else none

/-- Reads a numeral digit by digit, without a number beyond the bound on the way. -/
def checkedDecimal? (bound : Nat) (cs : List Char) : Option Nat :=
  if (unsigned cs).isEmpty then none else (unsigned cs).foldlM (appendDigit? bound) 0

/-- If the sum is within the bound, the product was. -/
theorem appendDigit?_eq_some_iff {bound n m : Nat} {d : Char} :
    appendDigit? bound n d = some m ↔
      d.isDigit = true ∧ m = 10 * n + digitValue d ∧ m ≤ bound := by
  rw [appendDigit?, Option.ite_none_right_eq_some, Option.bind_eq_some_iff]
  simp only [Option.guard_eq_some_iff, decide_eq_true_eq]
  refine and_congr Iff.rfl ?_
  constructor
  · rintro ⟨tens, ⟨rfl, -⟩, rfl, hle⟩
    exact ⟨rfl, hle⟩
  · rintro ⟨rfl, hle⟩
    have htens : 10 * n ≤ bound := by omega
    exact ⟨10 * n, ⟨rfl, htens⟩, rfl, hle⟩

/-- Digits behind a value do not make it smaller. -/
theorem le_foldl_digitValue (n : Nat) (ds : List Char) :
    n ≤ ds.foldl (fun n d ↦ 10 * n + digitValue d) n := by
  induction ds generalizing n with
  | nil => exact Nat.le_refl n
  | cons d ds ih =>
    have hstep : n ≤ 10 * n + digitValue d := by omega
    exact Nat.le_trans hstep (ih _)

/-- The digits are read one by one if and only if the value in the end is within the bound. -/
theorem foldlM_appendDigit?_eq_some_iff {bound n m : Nat} {ds : List Char} (hn : n ≤ bound) :
    ds.foldlM (appendDigit? bound) n = some m ↔
      (∀ d ∈ ds, d.isDigit = true) ∧ m = ds.foldl (fun n d ↦ 10 * n + digitValue d) n ∧
        m ≤ bound := by
  induction ds generalizing n with
  | nil =>
    constructor
    · rintro ⟨⟩
      exact ⟨nofun, rfl, hn⟩
    · rintro ⟨-, rfl, -⟩
      rfl
  | cons d ds ih =>
    rw [List.foldlM_cons, List.foldl_cons, List.forall_mem_cons]
    simp only [bind, Option.bind_eq_some_iff, appendDigit?_eq_some_iff]
    constructor
    · rintro ⟨k, ⟨hdigit, rfl, hk⟩, hrest⟩
      obtain ⟨hdigits, hm, hle⟩ := (ih hk).1 hrest
      exact ⟨⟨hdigit, hdigits⟩, hm, hle⟩
    · rintro ⟨⟨hdigit, hdigits⟩, hm, hle⟩
      -- the value so far is no larger than the one in the end
      have hk : 10 * n + digitValue d ≤ bound :=
        Nat.le_trans (le_foldl_digitValue _ ds) (hm ▸ hle)
      exact ⟨_, ⟨hdigit, rfl, hk⟩, (ih hk).2 ⟨hdigits, hm, hle⟩⟩

/-- It makes no difference whether the value is held against the bound at every digit or in the
end. -/
theorem checkedDecimal?_eq (bound : Nat) (cs : List Char) :
    checkedDecimal? bound cs = decimal? bound cs := by
  refine Option.ext fun n ↦ ?_
  rw [decimal?_eq_some_iff, isNumeral_iff, checkedDecimal?]
  split
  · next hnil =>
    refine iff_of_false nofun fun h ↦ h.1.1.ne_nil ?_
    exact List.isEmpty_iff.1 hnil
  · next hne =>
    rw [foldlM_appendDigit?_eq_some_iff (Nat.zero_le bound), and_assoc]
    refine and_congr ?_ Iff.rfl
    exact ⟨fun h ↦ ⟨fun hnil ↦ hne (List.isEmpty_iff.2 hnil), h⟩, fun h ↦ h.isDigit⟩

end Text

/-! ### Limits -/

open Text (trim IsTrimmed IsNumeral)

theorem readLimit_eq_none_iff {text : String} :
    readLimit text = .ok none ↔ Text.decimal? largestLimit (trim text.toList) = some 0 := by
  rw [readLimit]
  split
  · next hread => simp [hread]
  · next hread => simp [hread]
  · next n hzero hread => simpa [hread] using hzero

theorem readLimit_eq_some_iff {text : String} {n : Nat} :
    readLimit text = .ok (some n) ↔
      Text.decimal? largestLimit (trim text.toList) = some n ∧ 1 ≤ n := by
  rw [readLimit]
  split
  · next hread => simp [hread]
  · next hread =>
    refine iff_of_false nofun ?_
    rintro ⟨hzero, hpos⟩
    obtain rfl : 0 = n := Option.some.inj (hread.symm.trans hzero)
    exact absurd hpos (by decide)
  · next k hzero hread =>
    have hpos : 1 ≤ k := Nat.one_le_iff_ne_zero.2 hzero
    simp only [hread, Except.ok.injEq, Option.some.injEq]
    exact ⟨fun h ↦ ⟨h, h ▸ hpos⟩, And.left⟩

theorem readLimit_eq_error_iff {text : String} {fault : CommandError} :
    readLimit text = .error fault ↔
      fault = .invalidLimit text ∧ Text.decimal? largestLimit (trim text.toList) = none := by
  rw [readLimit]
  split
  · next hread => simp [hread, eq_comm]
  · next hread => simp [hread]
  · next hread => simp [hread]

/-- **A limit is read from exactly the decimal numerals of 64 bits.** What counts is the text
without the blanks at its ends. If that is a numeral, an optional `+` and one or more digits with or
without leading zeros, then the value 0 stands for no limit, and a value from 1 up to the largest
number of 64 bits is the limit. Any other text is refused, numerals of a larger value among them,
and the error carries the text as it was, with its blanks. The numbers that arise when the digits
are read one by one need no more than 64 bits either. -/
theorem readLimit_accepts_exactly_numerals (text : String) :
    (readLimit text = .ok none ↔ IsNumeral (trim text.toList) 0) ∧
    (∀ n, readLimit text = .ok (some n) ↔
      IsNumeral (trim text.toList) n ∧ 1 ≤ n ∧ n ≤ 2 ^ 64 - 1) ∧
    (∀ fault, readLimit text = .error fault ↔
      fault = .invalidLimit text ∧
        ¬ ∃ n, IsNumeral (trim text.toList) n ∧ n ≤ 2 ^ 64 - 1) ∧
    (∃ gap rear, IsBlankRun gap ∧ IsBlankRun rear ∧
      gap ++ (trim text.toList ++ rear) = text.toList ∧
      (trim text.toList = [] ∨ IsTrimmed (trim text.toList))) ∧
    Text.checkedDecimal? (2 ^ 64 - 1) (trim text.toList) =
      Text.decimal? largestLimit (trim text.toList) := by
  have hbound : largestLimit = 2 ^ 64 - 1 := rfl
  refine ⟨?_, fun n ↦ ?_, fun fault ↦ ?_, ?_, ?_⟩
  · rw [readLimit_eq_none_iff, Text.decimal?_eq_some_iff]
    exact and_iff_left (Nat.zero_le _)
  · rw [readLimit_eq_some_iff, Text.decimal?_eq_some_iff, hbound, and_assoc]
    exact and_congr Iff.rfl and_comm
  · rw [readLimit_eq_error_iff, Option.eq_none_iff_forall_ne_some, not_exists]
    simp only [ne_eq, Text.decimal?_eq_some_iff, hbound]
  · obtain ⟨gap, rear, hgap, hrear, htext⟩ := Text.exists_append_trim text.toList
    refine ⟨gap, rear, hgap, hrear, htext, ?_⟩
    exact or_iff_not_imp_left.2 Text.isTrimmed_trim
  · rw [Text.checkedDecimal?_eq, hbound]

/-- The largest limit is read behind zeros, and the number next to it is refused. -/
example :
    readLimit " +00018446744073709551615\u3000" = .ok (some (2 ^ 64 - 1)) ∧
    readLimit "18446744073709551616 " = .error (.invalidLimit "18446744073709551616 ") ∧
    readLimit "\t+000" = .ok none ∧ readLimit "+" = .error (.invalidLimit "+") := by
  decide +kernel

end UntypedLambda
