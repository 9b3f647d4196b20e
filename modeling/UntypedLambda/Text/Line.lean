import UntypedLambda.Text.Blank

/-!
# Physical and logical lines

A *physical* line ends at a line feed. It *continues* on the next one when its last non-blank
character is `&`. A *logical* line is a run of physical lines that each continue, up to and
including the first that does not: the mark and the blanks behind it are dropped, and a space
stands where one line met the next.
-/

namespace UntypedLambda.Text

/-! ### Physical lines -/

/-- Cuts a list behind every member that satisfies `p`. The pieces concatenate to the list. -/
def splitAfter {α : Type} (p : α → Bool) : List α → List (List α)
  | [] => []
  | a :: as =>
    if p a then [a] :: splitAfter p as
    else
      match splitAfter p as with
      | [] => [[a]]
      | piece :: pieces => (a :: piece) :: pieces

theorem flatten_splitAfter {α : Type} (p : α → Bool) (as : List α) :
    (splitAfter p as).flatten = as := by
  induction as with
  | nil => rfl
  | cons a as ih =>
    by_cases h : p a
    · simp [splitAfter, h, ih]
    · simp only [splitAfter, h, Bool.false_eq_true, if_false]
      split
      · next hnil =>
        rw [hnil] at ih
        simpa using ih
      · next hcons =>
        rw [hcons] at ih
        simpa using ih

/-- The first piece ends at the first member that satisfies `p`. -/
theorem splitAfter_append_cons {α : Type} {p : α → Bool} {front rest : List α} {a : α}
    (hfront : ∀ b ∈ front, p b = false) (ha : p a = true) :
    splitAfter p (front ++ a :: rest) = (front ++ [a]) :: splitAfter p rest := by
  induction front with
  | nil => rw [List.nil_append, splitAfter, if_pos ha, List.nil_append]
  | cons b front ih =>
    obtain ⟨hb, hfront⟩ := List.forall_mem_cons.1 hfront
    rw [List.cons_append, splitAfter, hb, if_neg Bool.false_ne_true, ih hfront]
    rfl

/-- There is one piece where no member satisfies `p`. -/
theorem splitAfter_of_forall {α : Type} {p : α → Bool} {as : List α} (hne : as ≠ [])
    (h : ∀ a ∈ as, p a = false) : splitAfter p as = [as] := by
  induction as with
  | nil => exact absurd rfl hne
  | cons a as ih =>
    obtain ⟨ha, has⟩ := List.forall_mem_cons.1 h
    rw [splitAfter, ha, if_neg Bool.false_ne_true]
    rcases as with - | ⟨b, as⟩
    · rfl
    · rw [ih (List.cons_ne_nil b as) has]

/-- Drops a line feed at the end, and with it a carriage return right before it. A carriage
return without the line feed stays. -/
def dropLineEnd (line : List Char) : List Char :=
  match line.reverse with
  | '\n' :: '\r' :: rest => rest.reverse
  | '\n' :: rest => rest.reverse
  | _ => line

/-- The physical lines of a text, without their line ends. There is no empty line behind the
last line end. -/
def physicalLines (text : List Char) : List (List Char) :=
  (splitAfter (· == '\n') text).map dropLineEnd

/-! ### Continuation -/

/-- A line with its end trimmed, its continuation mark taken off. -/
structure Stripped where
  text : List Char
  continues : Bool
deriving DecidableEq, Repr

/-- Drops the blanks at the end of a line and then one continuation mark, if there is one. What
stands before the mark keeps its blanks. -/
def strip (line : List Char) : Stripped :=
  match (line.reverse.dropWhile isBlank) with
  | '&' :: rest => ⟨rest.reverse, true⟩
  | rest => ⟨rest.reverse, false⟩

/-- Joins the lines that continue. `pending` is the text of the run so far: it is empty exactly
when no line before continues. -/
def joinFrom (pending : List Char) : List (List Char) → List (List Char)
  | [] => if pending.isEmpty then [] else [pending]
  | line :: lines =>
    let stripped := strip line
    if stripped.continues then joinFrom (pending ++ stripped.text ++ [' ']) lines
    else (pending ++ stripped.text) :: joinFrom [] lines

/-- The logical lines of a text. -/
def logicalLines (text : String) : List String :=
  (joinFrom [] (physicalLines text.toList)).map String.ofList

end UntypedLambda.Text
