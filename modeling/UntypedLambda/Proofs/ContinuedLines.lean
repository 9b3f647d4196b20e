import Mathlib.Data.List.DropRight
import UntypedLambda.Prompt
import UntypedLambda.Text.Line

/-!
# Continued lines, in a file and at the prompt

Lines that continue are joined in two places. A file strips each physical line by itself and puts
what is left behind the text of the run so far (`joinFrom`). The prompt puts the physical line
behind that text first and strips the whole (`Prompt.Turn.ofInput`).

## When the two agree

Both are read off `strip`, and `strip` of two texts behind one another depends on the second one
only, unless that is blank (`strip_append`). So they can part at one place alone: at a blank line
behind a line that continues. There the file ends the logical line. The prompt strips it a second
time, and goes on if what was there before ends in `&` once more.

* `map_trimEnd_linesFrom_eq_iff`: up to blanks at their ends the lines are the same **if and only
  if** no logical line that a physical line completes ends in `&`. A run that is open when the
  text ends needs no such condition: neither side strips it again.
* That the lines differ otherwise takes an invariant of the prompt (`PartsFrom`). Having dropped a
  mark that the file keeps, it could drop further marks and read further lines, and come to the
  same text in the end. It does not: it puts a space or nothing at all where the line of the file
  has a `&`, and each line it reads keeps that so.
-/

namespace UntypedLambda

namespace Text

/-! ### Trimming -/

theorem trimEnd_isPrefix (cs : List Char) : trimEnd cs <+: cs :=
  List.rdropWhile_prefix isBlank cs

@[simp] theorem trimEnd_trimEnd (cs : List Char) : trimEnd (trimEnd cs) = trimEnd cs :=
  List.rdropWhile_idempotent isBlank cs

theorem trimEnd_concat (cs : List Char) (c : Char) :
    trimEnd (cs ++ [c]) = if isBlank c then trimEnd cs else cs ++ [c] :=
  List.rdropWhile_concat isBlank cs c

@[simp] theorem trimEnd_concat_space (cs : List Char) : trimEnd (cs ++ [' ']) = trimEnd cs :=
  trimEnd_concat cs ' '

/-- Of two texts behind one another the second is trimmed, and the first only if nothing is left
of that. -/
theorem trimEnd_append (as bs : List Char) :
    trimEnd (as ++ bs) = if trimEnd bs = [] then trimEnd as else as ++ trimEnd bs := by
  induction bs using List.reverseRecOn with
  | nil => simp [trimEnd]
  | append_singleton bs b ih =>
    rw [← List.append_assoc, trimEnd_concat, trimEnd_concat]
    by_cases h : isBlank b
    · rw [if_pos h, if_pos h, ih]
    · rw [if_neg h, if_neg h, if_neg (by simp), List.append_assoc]

/-- A line end is blank, so it does not matter to the trimmed line. -/
theorem trimEnd_dropLineEnd (line : List Char) : trimEnd (dropLineEnd line) = trimEnd line := by
  have hblank (text : List Char) {lineEnd : List Char} (h : trimEnd lineEnd = []) :
      trimEnd text = trimEnd (text ++ lineEnd) := by
    rw [trimEnd_append, if_pos h]
  unfold dropLineEnd
  split
  · next rest hrest =>
    rw [List.reverse_eq_iff.mp hrest, List.reverse_cons, List.reverse_cons, List.append_assoc]
    exact hblank _ rfl
  · next rest _ hrest =>
    rw [List.reverse_eq_iff.mp hrest, List.reverse_cons]
    exact hblank _ rfl
  · rfl

/-! ### Stripping -/

/-- The last character of a line, blanks apart, is the mark. -/
def EndsInMark (line : List Char) : Prop := (trimEnd line).getLast? = some '&'

instance (line : List Char) : Decidable (EndsInMark line) :=
  inferInstanceAs (Decidable (_ = _))

/-- Stripping sees the trimmed line and nothing else. -/
theorem strip_eq_trimEnd (line : List Char) :
    strip line =
      match (trimEnd line).reverse with
      | '&' :: rest => ⟨rest.reverse, true⟩
      | _ => ⟨trimEnd line, false⟩ := by
  unfold strip trimEnd
  rw [List.reverse_reverse]
  split <;> simp_all

/-- A mark at the end is taken off, with the blanks behind it. -/
theorem strip_of_trimEnd_eq {line text : List Char} (h : trimEnd line = text ++ ['&']) :
    strip line = ⟨text, true⟩ := by
  rw [strip_eq_trimEnd, h]
  simp

/-- Without a mark at the end a line is only trimmed. -/
theorem strip_of_not_endsInMark {line : List Char} (h : ¬ EndsInMark line) :
    strip line = ⟨trimEnd line, false⟩ := by
  rw [strip_eq_trimEnd]
  split
  · next rest hrest =>
    refine absurd ?_ h
    rw [EndsInMark, ← List.head?_reverse, hrest, List.head?_cons]
  · rfl

theorem EndsInMark.exists_trimEnd_eq {line : List Char} (h : EndsInMark line) :
    ∃ text, trimEnd line = text ++ ['&'] :=
  List.getLast?_eq_some_iff.mp h

theorem not_endsInMark_of_trimEnd_eq_nil {line : List Char} (h : trimEnd line = []) :
    ¬ EndsInMark line := by
  simp [EndsInMark, h]

/-- Behind a text that is not blank, what stands before is no concern of the mark. -/
theorem endsInMark_append {as bs : List Char} (h : trimEnd bs ≠ []) :
    EndsInMark (as ++ bs) ↔ EndsInMark bs := by
  rw [EndsInMark, EndsInMark, trimEnd_append, if_neg h, List.getLast?_append_of_ne_nil _ h]

/-- Stripping two texts behind one another strips the second, unless that is blank. -/
theorem strip_append {as bs : List Char} (h : trimEnd bs ≠ []) :
    strip (as ++ bs) = ⟨as ++ (strip bs).text, (strip bs).continues⟩ := by
  by_cases hmark : EndsInMark bs
  · obtain ⟨text, htext⟩ := hmark.exists_trimEnd_eq
    have hwhole : trimEnd (as ++ bs) = (as ++ text) ++ ['&'] := by
      rw [trimEnd_append, if_neg h, htext, List.append_assoc]
    rw [strip_of_trimEnd_eq htext, strip_of_trimEnd_eq hwhole]
  · rw [strip_of_not_endsInMark hmark,
      strip_of_not_endsInMark (mt (endsInMark_append h).mp hmark), trimEnd_append, if_neg h]

/-- A blank text behind another one is stripped off whole. -/
theorem strip_append_of_trimEnd_eq_nil {as bs : List Char} (h : trimEnd bs = []) :
    strip (as ++ bs) = strip as := by
  rw [strip_eq_trimEnd, strip_eq_trimEnd, trimEnd_append, if_pos h]

/-! ### Lines of a file -/

/-- The logical lines that a physical line completes, that is, all of them but the run that is
still open when the text ends. -/
def completeFrom (pending : List Char) : List (List Char) → List (List Char)
  | [] => []
  | line :: lines =>
    let stripped := strip line
    if stripped.continues then completeFrom (pending ++ stripped.text ++ [' ']) lines
    else (pending ++ stripped.text) :: completeFrom [] lines

/-- The logical lines of a text that a physical line completes. -/
def completeLines (text : String) : List String :=
  (completeFrom [] (physicalLines text.toList)).map String.ofList

/-- Stripping a physical line drops its line end too, so the lines of a file can be joined with
their line ends. -/
theorem strip_dropLineEnd (line : List Char) : strip (dropLineEnd line) = strip line := by
  rw [strip_eq_trimEnd, strip_eq_trimEnd, trimEnd_dropLineEnd]

theorem joinFrom_map_dropLineEnd (pending : List Char) (lines : List (List Char)) :
    joinFrom pending (lines.map dropLineEnd) = joinFrom pending lines := by
  induction lines generalizing pending with
  | nil => rfl
  | cons line lines ih => simp only [List.map_cons, joinFrom, strip_dropLineEnd, ih]

theorem completeFrom_map_dropLineEnd (pending : List Char) (lines : List (List Char)) :
    completeFrom pending (lines.map dropLineEnd) = completeFrom pending lines := by
  induction lines generalizing pending with
  | nil => rfl
  | cons line lines ih => simp only [List.map_cons, completeFrom, strip_dropLineEnd, ih]

end Text

namespace Prompt

open Text

/-! ### Lines of the prompt -/

/-- What an open line comes to in front of the next physical line. -/
def pendingOf : Option (List Char) → List Char
  | none => []
  | some before => before ++ [' ']

@[simp] theorem pendingOf_none : pendingOf none = [] := rfl

@[simp] theorem pendingOf_some (before : List Char) : pendingOf (some before) = before ++ [' '] :=
  rfl

/-- What a physical line does is what stripping it behind the open line does. -/
theorem ofInput_line (before? : Option (List Char)) (piece : List Char) :
    Turn.ofInput before? (.line piece) =
      if (strip (pendingOf before? ++ piece)).continues
      then .readMore (strip (pendingOf before? ++ piece)).text
      else .submit (strip (pendingOf before? ++ piece)).text := by
  rcases before? with - | before
  · rfl
  · simp [Turn.ofInput]

/-- The lines that are submitted when the input consists of these physical lines, which have
their line ends on them. -/
def linesFrom : (before? : Option (List Char)) → List (List Char) → List (List Char)
  | before?, [] => before?.toList
  | before?, piece :: pieces =>
    match Turn.ofInput before? (.line piece) with
    | .stop => []
    | .readMore before => linesFrom (some before) pieces
    | .submit line => line :: linesFrom none pieces

/-- The lines that are submitted when the input is a text. -/
def submittedLines (text : String) : List String :=
  (linesFrom none (splitAfter (· == '\n') text.toList)).map String.ofList

/-! ### Where the prompt has gone on and the file has not -/

/-- The open line and `line` part at a place where `line` has a mark, and the open line a space or
its end. -/
def PartsFrom (line before : List Char) : Prop :=
  ∃ common, common ++ ['&'] <+: line ∧ common ++ [' '] <+: before ++ [' ']

/-- Two texts that go on differently are not the beginnings of one text. -/
theorem not_prefix_of_prefix {common line : List Char} (hmark : common ++ ['&'] <+: line)
    (hspace : common ++ [' '] <+: line) : False := by
  have heq : common ++ ['&'] = common ++ [' '] :=
    (List.prefix_of_prefix_length_le hmark hspace (by simp)).eq_of_length (by simp)
  simp at heq

/-- No text that begins with the open line and a space has the line as its trimmed form. -/
theorem PartsFrom.trimEnd_ne {line before text piece : List Char} (h : PartsFrom line before)
    (htext : text <+: before ++ ' ' :: piece) : trimEnd text ≠ line := by
  rintro rfl
  obtain ⟨common, hmark, hspace⟩ := h
  have hbefore : before ++ [' '] <+: before ++ ' ' :: piece := by simp
  exact not_prefix_of_prefix (hmark.trans ((trimEnd_isPrefix text).trans htext))
    (hspace.trans hbefore)

/-- The step of the invariant: it survives a line that is read and continues. -/
theorem PartsFrom.readMore {line before after piece : List Char} (h : PartsFrom line before)
    (hafter : after ++ ['&'] <+: before ++ ' ' :: piece) : PartsFrom line after := by
  obtain ⟨common, hmark, hspace⟩ := h
  have hwhole : common ++ [' '] <+: before ++ ' ' :: piece :=
    hspace.trans (by simp)
  rcases Nat.lt_trichotomy common.length after.length with hlt | heq | hgt
  · -- The mark that is dropped stands behind the place where they part.
    have hle : (common ++ [' ']).length ≤ after.length := by simpa using Nat.succ_le_of_lt hlt
    have hin : common ++ [' '] <+: after :=
      List.prefix_of_prefix_length_le hwhole ((List.prefix_append _ _).trans hafter) hle
    exact ⟨common, hmark, hin.trans (List.prefix_append _ _)⟩
  · -- There is a space at that place, and no mark to drop.
    have hsame : common ++ [' '] = after ++ ['&'] :=
      (List.prefix_of_prefix_length_le hwhole hafter (by simp [heq])).eq_of_length (by simp [heq])
    simp at hsame
  · -- The mark stands before it: then both have it, and now they part there.
    have hle : (after ++ ['&']).length ≤ common.length := by simpa using Nat.succ_le_of_lt hgt
    have hin : after ++ ['&'] <+: common :=
      List.prefix_of_prefix_length_le hafter ((List.prefix_append _ _).trans hwhole) hle
    exact ⟨after, hin.trans ((List.prefix_append _ _).trans hmark), List.prefix_rfl⟩

/-- What the prompt submits in the end is another line. -/
theorem PartsFrom.exists_cons {line before : List Char} (h : PartsFrom line before)
    (pieces : List (List Char)) :
    ∃ submitted rest, linesFrom (some before) pieces = submitted :: rest ∧
      trimEnd submitted ≠ line := by
  induction pieces generalizing before with
  | nil => exact ⟨before, [], rfl, h.trimEnd_ne (List.prefix_append before [' '])⟩
  | cons piece pieces ih =>
    rw [linesFrom, ofInput_line, pendingOf_some, List.append_assoc, List.singleton_append]
    by_cases hmark : EndsInMark (before ++ ' ' :: piece)
    · obtain ⟨after, hafter⟩ := hmark.exists_trimEnd_eq
      rw [strip_of_trimEnd_eq hafter]
      exact ih (h.readMore (hafter ▸ trimEnd_isPrefix _))
    · rw [strip_of_not_endsInMark hmark]
      exact ⟨_, _, rfl, h.trimEnd_ne (trimEnd_isPrefix _)⟩

/-! ### The lines of both -/

/-- **The prompt and a file have the same lines, blanks at their ends apart, exactly if no
completed line of the file ends in a mark.** By induction on the physical lines. As long as both
agree, what is pending in the file is what is open at the prompt, a space behind it. -/
theorem map_trimEnd_linesFrom_eq_iff (before? : Option (List Char)) (pieces : List (List Char)) :
    (linesFrom before? pieces).map trimEnd =
        (joinFrom (pendingOf before?) pieces).map trimEnd ↔
      ∀ line ∈ completeFrom (pendingOf before?) pieces, ¬ EndsInMark line := by
  induction pieces generalizing before? with
  | nil =>
    rcases before? with - | before <;> simp [linesFrom, joinFrom, completeFrom]
  | cons piece pieces ih =>
    rw [linesFrom, ofInput_line, joinFrom, completeFrom]
    by_cases hblank : trimEnd piece = []
    · rw [strip_append_of_trimEnd_eq_nil hblank,
        strip_of_not_endsInMark (not_endsInMark_of_trimEnd_eq_nil hblank), hblank]
      by_cases hmark : EndsInMark (pendingOf before?)
      · -- The file ends its line here; the prompt takes a second mark off and goes on.
        obtain ⟨before, hbefore⟩ := hmark.exists_trimEnd_eq
        have hparts : PartsFrom (trimEnd (pendingOf before?)) before :=
          ⟨before, hbefore ▸ List.prefix_rfl, List.prefix_rfl⟩
        obtain ⟨submitted, rest, hlines, hne⟩ := hparts.exists_cons pieces
        rw [strip_of_trimEnd_eq hbefore]
        simp [hlines, hne, hmark]
      · rw [strip_of_not_endsInMark hmark]
        simpa [hmark] using ih none
    · rw [strip_append hblank]
      by_cases hmark : EndsInMark piece
      · obtain ⟨text, htext⟩ := hmark.exists_trimEnd_eq
        rw [strip_of_trimEnd_eq htext]
        exact ih (some (pendingOf before? ++ text))
      · have hline : ¬ EndsInMark (pendingOf before? ++ trimEnd piece) := by
          rwa [endsInMark_append (by simpa using hblank), EndsInMark, trimEnd_trimEnd]
        rw [strip_of_not_endsInMark hmark]
        simpa [hline] using ih none

/-- A line up to the blanks at its end. -/
def trimmed (line : String) : List Char := trimEnd line.toList

theorem map_trimmed_ofList (lines : List (List Char)) :
    (lines.map String.ofList).map trimmed = lines.map trimEnd := by
  simp [trimmed, Function.comp_def]

/-- The same of the lines of a text. -/
theorem map_trimmed_submittedLines_eq_iff (text : String) :
    (submittedLines text).map trimmed = (logicalLines text).map trimmed ↔
      ∀ line ∈ completeLines text, ¬ EndsInMark line.toList := by
  rw [submittedLines, logicalLines, completeLines, physicalLines, joinFrom_map_dropLineEnd,
    completeFrom_map_dropLineEnd, map_trimmed_ofList, map_trimmed_ofList]
  simpa using map_trimEnd_linesFrom_eq_iff none (splitAfter (· == '\n') text.toList)

-- The mark that is left is no trouble in a run that is open at the end.
example : submittedLines "x &&" = ["x &"] ∧ logicalLines "x &&" = ["x & "] ∧
    completeLines "x &&" = [] := by decide

end Prompt

end UntypedLambda
