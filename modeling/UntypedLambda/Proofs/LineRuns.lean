import UntypedLambda.Proofs.ContinuedLines

/-!
# Logical lines are runs of physical lines

Joining reads the physical lines one by one, and what it has read of a run it keeps as text. So two
things are not seen from its definition. Whether a run is open at the end of the file is asked by
looking whether that text is empty, and a run of lines with nothing on them but the mark is open as
well. And nothing says that a line goes into one logical line and into no other.

Here the lines are cut first, without any joining (`Runs`): a run is any number of lines that
continue and then one that does not, and the last run may lack that line. There is exactly one such
cut (`exists_runs`, `Runs.eq_splitAfter`), the runs one behind the other are the lines of the file
(`Runs.flatten_eq`), and each logical line is what one run is written as (`Runs.joinFrom_eq`).

The step behind it is `joinFrom_append`: lines that continue are read without completing a line, and
what is pending grows by what they are written as. A line that continues leaves at least a space, so
what is pending is empty only where no run is open (`written_ne_nil`).
-/

namespace UntypedLambda

namespace Text

/-! ### What a line leaves -/

/-- A line without the blanks at its end, and without the mark if there is one before them. -/
def unmarked (line : List Char) : List Char :=
  if EndsInMark line then (trimEnd line).dropLast else trimEnd line

/-- What a run of lines is written as: the lines without their marks, one behind the other, and a
space behind each that continues. -/
def written (run : List (List Char)) : List Char :=
  run.flatMap fun line ↦ unmarked line ++ if EndsInMark line then [' '] else []

/-- Stripping takes off what the definitions above take off. -/
theorem strip_eq (line : List Char) : strip line = ⟨unmarked line, decide (EndsInMark line)⟩ := by
  by_cases h : EndsInMark line
  · obtain ⟨text, htext⟩ := h.exists_trimEnd_eq
    rw [strip_of_trimEnd_eq htext, unmarked, if_pos h, htext, List.dropLast_concat,
      decide_eq_true h]
  · rw [strip_of_not_endsInMark h, unmarked, if_neg h, decide_eq_false h]

theorem joinFrom_cons_of_endsInMark {line : List Char} (h : EndsInMark line) (pending : List Char)
    (lines : List (List Char)) :
    joinFrom pending (line :: lines) = joinFrom (pending ++ written [line]) lines := by
  rw [joinFrom, strip_eq]
  simp [written, h]

theorem joinFrom_cons_of_not_endsInMark {line : List Char} (h : ¬ EndsInMark line)
    (pending : List Char) (lines : List (List Char)) :
    joinFrom pending (line :: lines) = (pending ++ written [line]) :: joinFrom [] lines := by
  rw [joinFrom, strip_eq]
  simp [written, h]

theorem written_append (run run' : List (List Char)) :
    written (run ++ run') = written run ++ written run' :=
  List.flatMap_append

theorem written_cons (line : List Char) (run : List (List Char)) :
    written (line :: run) = written [line] ++ written run :=
  written_append [line] run

/-- A run that is open has at least a space in it, even if its lines have nothing but the mark. -/
theorem written_ne_nil {run : List (List Char)} (hne : run ≠ [])
    (h : ∀ line ∈ run, EndsInMark line) : written run ≠ [] := by
  obtain ⟨line, rest, rfl⟩ := List.exists_cons_of_ne_nil hne
  have hline : EndsInMark line := h line List.mem_cons_self
  simp [written, hline]

/-- Lines that continue complete no line, and what is pending grows by what they are written as. -/
theorem joinFrom_append {run : List (List Char)} (h : ∀ line ∈ run, EndsInMark line)
    (pending : List Char) (lines : List (List Char)) :
    joinFrom pending (run ++ lines) = joinFrom (pending ++ written run) lines := by
  induction run generalizing pending with
  | nil => rw [written, List.flatMap_nil, List.append_nil, List.nil_append]
  | cons line run ih =>
    obtain ⟨hline, hrun⟩ := List.forall_mem_cons.1 h
    rw [List.cons_append, joinFrom_cons_of_endsInMark hline, ih hrun, written_cons line run,
      List.append_assoc]

/-! ### Cutting lines into runs -/

/-- The lines are cut into runs, each of which ends at the first line that does not continue, or
where the lines end. -/
inductive Runs : List (List Char) → List (List (List Char)) → Prop
  | nil : Runs [] []
  /-- The lines end before the run does. -/
  | unfinished {run : List (List Char)} (hne : run ≠ []) (h : ∀ line ∈ run, EndsInMark line) :
      Runs run [run]
  | cons {run lines : List (List Char)} {last : List Char} {runs : List (List (List Char))}
      (h : ∀ line ∈ run, EndsInMark line) (hlast : ¬ EndsInMark last) (hlines : Runs lines runs) :
      Runs (run ++ last :: lines) ((run ++ [last]) :: runs)

/-- Every list of lines can be cut. By induction from the end: a line that continues goes in front
of the first run, and one that does not is a run of its own. -/
theorem exists_runs (lines : List (List Char)) : ∃ runs, Runs lines runs := by
  induction lines with
  | nil => exact ⟨[], .nil⟩
  | cons line lines ih =>
    obtain ⟨runs, hruns⟩ := ih
    by_cases hline : EndsInMark line
    · have hin {run : List (List Char)} (h : ∀ l ∈ run, EndsInMark l) :
          ∀ l ∈ line :: run, EndsInMark l := List.forall_mem_cons.2 ⟨hline, h⟩
      rcases hruns with - | ⟨hne, h⟩ | ⟨h, hlast, hrest⟩
      · exact ⟨[[line]], .unfinished (List.cons_ne_nil line []) (hin (List.forall_mem_nil _))⟩
      · exact ⟨_, .unfinished (List.cons_ne_nil line _) (hin h)⟩
      · exact ⟨_, .cons (hin h) hlast hrest⟩
    · exact ⟨_, .cons (List.forall_mem_nil _) hline hruns⟩

theorem countP_of_endsInMark {run : List (List Char)} (h : ∀ line ∈ run, EndsInMark line) :
    run.countP (¬ EndsInMark ·) = 0 :=
  List.countP_eq_zero.2 fun line hline ↦ by simpa using h line hline

namespace Runs

variable {lines : List (List Char)} {runs : List (List (List Char))}

/-- No line is lost, and none is taken twice or out of its place. -/
theorem flatten_eq (h : Runs lines runs) : runs.flatten = lines := by
  induction h with
  | nil => rfl
  | unfinished hne h => rw [List.flatten_singleton]
  | cons h hlast hlines ih => rw [List.flatten_cons, ih, List.append_assoc, List.singleton_append]

/-- There is no other cut than the one behind every line that does not continue. -/
theorem eq_splitAfter (h : Runs lines runs) : runs = splitAfter (¬ EndsInMark ·) lines := by
  induction h with
  | nil => rfl
  | unfinished hne h => rw [splitAfter_of_forall hne (by simpa using h)]
  | cons h hlast hlines ih =>
    rw [splitAfter_append_cons (by simpa using h) (by simpa using hlast), ih]

/-- Each run is written as one logical line. -/
theorem joinFrom_eq (h : Runs lines runs) : joinFrom [] lines = runs.map written := by
  induction h with
  | nil => rfl
  | @unfinished run hne h =>
    have hpending : (written run).isEmpty = false := by simpa using written_ne_nil hne h
    rw [← List.append_nil run, joinFrom_append h, List.nil_append, joinFrom, hpending,
      List.append_nil]
    rfl
  | @cons run lines last runs h hlast hlines ih =>
    rw [joinFrom_append h, joinFrom_cons_of_not_endsInMark hlast, ih, List.nil_append,
      List.map_cons, written_append]

/-- There is a run for each line that does not continue, and one more if the last line does. -/
theorem length_eq (h : Runs lines runs) :
    runs.length =
      lines.countP (¬ EndsInMark ·) + if lines.getLast?.any (EndsInMark ·) then 1 else 0 := by
  induction h with
  | nil => rfl
  | @unfinished run hne h =>
    have hlast : EndsInMark (run.getLast hne) := h _ (List.getLast_mem hne)
    rw [countP_of_endsInMark h, List.getLast?_eq_some_getLast hne]
    simp [hlast]
  | @cons run lines last runs h hlast hlines ih =>
    -- behind the run it is the last line of the others that counts, and if there are none it is
    -- the one that ends the run
    have hany : (run ++ last :: lines).getLast?.any (EndsInMark ·) =
        lines.getLast?.any (EndsInMark ·) := by
      rw [List.getLast?_append_of_ne_nil _ (List.cons_ne_nil last lines), List.getLast?_cons]
      rcases lines.getLast? with - | line <;> simp [hlast]
    rw [List.length_cons, ih, hany, List.countP_append, countP_of_endsInMark h, List.countP_cons]
    simp only [hlast, not_false_eq_true, decide_true, if_true]
    omega

end Runs

/-- **Joining loses, doubles and reorders nothing.** There is exactly one way to cut the physical
lines of a text into runs, each of which ends at a line that does not continue or at the last line
of the text. The runs one behind the other are those lines, and the logical lines are what the runs
are written as, one by one. So there are as many as there are lines that do not continue, and one
more if the last line does. -/
theorem logicalLines_are_runs (text : String) :
    ∃ runs, (∀ runs', Runs (physicalLines text.toList) runs' ↔ runs' = runs) ∧
      runs.flatten = physicalLines text.toList ∧
      logicalLines text = runs.map (fun run ↦ String.ofList (written run)) ∧
      (logicalLines text).length =
        (physicalLines text.toList).countP (¬ EndsInMark ·) +
          if (physicalLines text.toList).getLast?.any (EndsInMark ·) then 1 else 0 := by
  obtain ⟨runs, hruns⟩ := exists_runs (physicalLines text.toList)
  have hlines : logicalLines text = runs.map (fun run ↦ String.ofList (written run)) := by
    rw [logicalLines, hruns.joinFrom_eq, List.map_map]
    rfl
  refine ⟨runs, fun runs' ↦ ⟨fun h ↦ ?_, ?_⟩, hruns.flatten_eq, hlines, ?_⟩
  · rw [h.eq_splitAfter, hruns.eq_splitAfter]
  · rintro rfl
    exact hruns
  · rw [hlines, List.length_map, hruns.length_eq]

-- Lines with nothing but the mark are a run, also when the text ends behind them.
example : logicalLines "&\r\n&\n&" = ["   "] ∧ logicalLines "a\n\n&\n\n" = ["a", "", " "] := by
  decide

end Text

end UntypedLambda
