import UntypedLambda.Proofs.ContinuedLines
import UntypedLambda.Proofs.UnreadInput

/-!
# The lines that the prompt executes

`ContinuedLines` compares the lines of the prompt with those of a file as lists. Here the prompt
runs, on a world whose input is the UTF-8 form of a text.

* A line of bytes is a line of characters (`cutLine_encode`): the byte that ends a line is part of
  no other character.
* **Run lemma** (`converse_eq_executed`): as long as no execution touches the input, the prompt
  executes the lines of the text in order and nothing else. It is an equation, so it says of an
  execution that does not return that the prompt does not return either. The executor is
  arbitrary; the lemma is used of one that keeps a record of its lines (`noting`).
* `noted_lines_agree_iff`: the record of a session whose pause mode stays off, against the logical
  lines of the text. That such a session leaves the input alone is `undisturbed_execute`.
-/

namespace UntypedLambda

namespace Text

/-! ### Characters and their bytes -/

theorem encode_ofList (cs : List Char) :
    encode (String.ofList cs) = cs.flatMap String.utf8EncodeChar := by
  simp [encode, String.toUTF8, List.utf8Encode]

theorem encode_ofList_nil : encode (String.ofList []) = [] := by
  rw [encode_ofList, List.flatMap_nil]

theorem encode_ofList_append (as bs : List Char) :
    encode (String.ofList (as ++ bs)) = encode (String.ofList as) ++ encode (String.ofList bs) := by
  rw [encode_ofList, encode_ofList, encode_ofList, List.flatMap_append]

theorem decode?_encode (text : String) : decode? (encode text) = some text := by
  have hbytes : (encode text).toByteArray = text.toByteArray := by
    apply ByteArray.ext
    simp [encode, String.toUTF8]
  rw [decode?, hbytes, String.fromUTF8?, dif_pos text.isValidUTF8]
  rfl

theorem newline_ne_ofNat {n : Nat} (h : n % 256 ≠ 10) : newline ≠ UInt8.ofNat n := by
  intro heq
  have hn : 10 = n % 256 := by simpa [newline] using congrArg UInt8.toNat heq
  omega

/-- The byte that ends a line is no part of any other character. -/
theorem newline_notMem_utf8EncodeChar {c : Char} (h : c ≠ '\n') :
    newline ∉ String.utf8EncodeChar c := by
  have hc : c.val.toNat ≠ 10 := fun h10 ↦ h (Char.ext (UInt32.toNat_inj.mp h10))
  simp only [String.utf8EncodeChar]
  -- One case for each number of bytes. A character of more than one has none below 128.
  split_ifs <;> simp only [List.mem_cons, List.not_mem_nil, or_false, not_or]
  · exact newline_ne_ofNat (by omega)
  · exact ⟨newline_ne_ofNat (by omega), newline_ne_ofNat (by omega)⟩
  · exact ⟨newline_ne_ofNat (by omega), newline_ne_ofNat (by omega), newline_ne_ofNat (by omega)⟩
  · exact ⟨newline_ne_ofNat (by omega), newline_ne_ofNat (by omega), newline_ne_ofNat (by omega),
      newline_ne_ofNat (by omega)⟩

theorem cutLine_append_of_notMem {bs : Bytes} (h : newline ∉ bs) (rest : Bytes) :
    cutLine (bs ++ rest) = (bs ++ (cutLine rest).1, (cutLine rest).2) := by
  induction bs with
  | nil => rfl
  | cons b bs ih =>
    rw [List.mem_cons, not_or] at h
    rw [List.cons_append, cutLine, if_neg (Ne.symm h.1), ih h.2, List.cons_append]

theorem cutLine_newline_cons (rest : Bytes) : cutLine (newline :: rest) = ([newline], rest) := by
  rw [cutLine, if_pos rfl]

/-! ### The first physical line -/

/-- How a list with one more member in front is cut. -/
theorem splitAfter_cons_cases {α : Type} {p : α → Bool} {a : α} {as piece : List α}
    {pieces : List (List α)} (h : splitAfter p (a :: as) = piece :: pieces) :
    (p a = true ∧ piece = [a] ∧ splitAfter p as = pieces) ∨
      (p a = false ∧ piece = [a] ∧ pieces = []) ∨
      (p a = false ∧ ∃ rest, piece = a :: rest ∧ splitAfter p as = rest :: pieces) := by
  rw [splitAfter] at h
  rcases ha : p a with - | -
  · rw [if_neg (by simp [ha])] at h
    rcases hsplit : splitAfter p as with - | ⟨rest, rests⟩ <;> rw [hsplit] at h <;>
      obtain ⟨rfl, rfl⟩ := List.cons.inj h
    · exact .inr (.inl ⟨rfl, rfl, rfl⟩)
    · exact .inr (.inr ⟨rfl, rest, rfl, rfl⟩)
  · rw [if_pos ha] at h
    obtain ⟨rfl, rfl⟩ := List.cons.inj h
    exact .inl ⟨rfl, rfl, rfl⟩

/-- The first piece ends at the first cut, or there is none and it is the whole list. -/
theorem splitAfter_eq_cons {α : Type} {p : α → Bool} {as piece : List α}
    {pieces : List (List α)} (h : splitAfter p as = piece :: pieces) :
    (∃ front a, piece = front ++ [a] ∧ p a = true ∧ ∀ b ∈ front, p b = false) ∨
      (piece ≠ [] ∧ pieces = [] ∧ ∀ b ∈ piece, p b = false) := by
  induction as generalizing piece pieces with
  | nil => cases h
  | cons a as ih =>
    obtain ⟨ha, rfl, -⟩ | ⟨ha, rfl, rfl⟩ | ⟨ha, rest, rfl, hrest⟩ := splitAfter_cons_cases h
    · exact .inl ⟨[], a, rfl, ha, by simp⟩
    · exact .inr ⟨by simp, rfl, by simpa using ha⟩
    · rcases ih hrest with ⟨front, b, rfl, hb, hfront⟩ | ⟨-, hnil, hpiece⟩
      · exact .inl ⟨a :: front, b, rfl, hb, by simpa [ha] using hfront⟩
      · exact .inr ⟨by simp, hnil, by simpa [ha] using hpiece⟩

/-- The pieces behind the first are those of what is left. -/
theorem splitAfter_flatten_of_eq_cons {α : Type} {p : α → Bool} {as piece : List α}
    {pieces : List (List α)} (h : splitAfter p as = piece :: pieces) :
    splitAfter p pieces.flatten = pieces := by
  induction as generalizing piece pieces with
  | nil => cases h
  | cons a as ih =>
    obtain ⟨-, -, rfl⟩ | ⟨-, -, rfl⟩ | ⟨-, rest, -, hrest⟩ := splitAfter_cons_cases h
    · rw [flatten_splitAfter]
    · rfl
    · exact ih hrest

/-- What is read first of a text is its first physical line. -/
theorem cutLine_encode {cs piece : List Char} {pieces : List (List Char)}
    (h : splitAfter (· == '\n') cs = piece :: pieces) :
    cutLine (encode (String.ofList cs)) =
      (encode (String.ofList piece), encode (String.ofList pieces.flatten)) := by
  have hcs : cs = piece ++ pieces.flatten := by
    rw [← flatten_splitAfter (· == '\n') cs, h, List.flatten_cons]
  have hnewline {front : List Char} (hfront : ∀ b ∈ front, (b == '\n') = false) :
      newline ∉ encode (String.ofList front) := by
    rw [encode_ofList, List.mem_flatMap]
    rintro ⟨b, hb, hmem⟩
    exact newline_notMem_utf8EncodeChar (by simpa using hfront b hb) hmem
  rcases splitAfter_eq_cons h with ⟨front, c, rfl, hc, hfront⟩ | ⟨-, rfl, hpiece⟩
  · obtain rfl : c = '\n' := by simpa using hc
    rw [hcs, encode_ofList_append, encode_ofList_append, List.append_assoc,
      cutLine_append_of_notMem (hnewline hfront)]
    show (_ ++ (cutLine (newline :: _)).1, (cutLine (newline :: _)).2) = _
    rw [cutLine_newline_cons]
    rfl
  · rw [hcs, List.flatten_nil, encode_ofList_append, cutLine_append_of_notMem (hnewline hpiece)]
    simp only [encode_ofList_nil, cutLine, List.append_nil]

end Text

namespace Prompt

open Text

/-! ### The run of the prompt -/

theorem ofBytes_encode {piece : List Char} (h : piece ≠ []) :
    Input.ofBytes (encode (String.ofList piece)) = .line piece := by
  have hbytes : (encode (String.ofList piece)).isEmpty = false := by
    obtain ⟨c, cs, rfl⟩ := List.exists_cons_of_ne_nil h
    rw [encode_ofList, List.flatMap_cons]
    simp
  rw [Input.ofBytes, hbytes, decode?_encode]
  simp

section Run

variable {σ : Type} {files : FileTree} {inv : σ → Prop} {execute : String → StateT σ WorldM Unit}

theorem readLine_bind {α : Type} (f : Bytes → StateT σ WorldM α) (s : σ) (w : World) :
    (Console.readLine >>= f) s w =
      f (cutLine w.input).1 s (w.withInput (cutLine w.input).2) := rfl

/-- One round, with a physical line left. -/
theorem converse_cons {cs piece : List Char} {pieces : List (List Char)}
    (h : splitAfter (· == '\n') cs = piece :: pieces) (rounds : Nat)
    (before? : Option (List Char)) (history : History) (s : σ) (w : World) :
    converse execute (rounds + 1) before? history s (w.withInput (encode (String.ofList cs))) =
      (match Turn.ofInput before? (.line piece) with
      | .stop => pure history
      | .readMore before => converse execute rounds (some before) history
      | .submit line => do
        execute (String.ofList line)
        converse execute rounds none (history.add (String.ofList line))) s
        (w.withInput (encode (String.ofList pieces.flatten))) := by
  have hpiece : piece ≠ [] := by
    rcases splitAfter_eq_cons h with ⟨front, c, rfl, -⟩ | ⟨hne, -⟩
    · simp
    · exact hne
  rw [converse, readLine_bind, World.withInput_input, cutLine_encode h, ofBytes_encode hpiece]
  rfl

/-- The prompt having executed these lines, one after another, and read the input to its end. -/
def executed (execute : String → StateT σ WorldM Unit) (lines : List String) (history : History)
    (s : σ) (w : World) : Option ((History × σ) × World) :=
  (lines.forM execute s w).map fun r ↦
    ((lines.foldl History.add history, r.1.2), r.2.withInput [])

/-- A line that is executed without a look at the input, before all the others. -/
theorem execute_bind_eq_executed {rounds : Nat} {line : String} {lines : List String}
    {history : History} {input : Bytes} {s : σ} {w : World} (hw : w.files = files)
    (hline : Unheeding files (fun r ↦ inv r.2) (execute line s))
    (hlines : ∀ s' w', inv s' → w'.files = files →
      converse execute rounds none (history.add line) s' (w'.withInput input) =
        executed execute lines (history.add line) s' w') :
    (execute line >>= fun _ ↦ converse execute rounds none (history.add line)) s
        (w.withInput input) =
      executed execute (line :: lines) history s w := by
  show (execute line s (w.withInput input)).bind
      (fun r ↦ converse execute rounds none (history.add line) r.1.2 r.2) =
    ((execute line s w).bind fun r ↦ lines.forM execute r.1.2 r.2).map _
  rw [hline.withInput w input hw]
  rcases hrun : execute line s w with - | ⟨⟨⟨⟩, s'⟩, w'⟩
  · rfl
  · obtain ⟨hs', hw'⟩ := hline.result hw hrun
    exact hlines s' w' hs' hw'

/-- **The prompt executes the lines of the text in order, and nothing else.** The induction is on
the physical lines; `inv` is what executions preserve, and what they need to leave the input
alone. Two rounds more than there are physical lines are enough, for a run that is open at the end
and for the end itself. -/
theorem converse_eq_executed {cs : List Char} {pieces : List (List Char)}
    (hpieces : splitAfter (· == '\n') cs = pieces) {before? : Option (List Char)} {rounds : Nat}
    (hrounds : pieces.length + 1 < rounds) (history : History)
    (hexecute : ∀ line ∈ linesFrom before? pieces, ∀ s, inv s →
      Unheeding files (fun r ↦ inv r.2) (execute (String.ofList line) s))
    {s : σ} (hs : inv s) {w : World} (hw : w.files = files) :
    converse execute rounds before? history s (w.withInput (encode (String.ofList cs))) =
      executed execute ((linesFrom before? pieces).map String.ofList) history s w := by
  induction pieces generalizing cs before? rounds history s w with
  | nil =>
    obtain ⟨rounds, rfl⟩ : ∃ n, rounds = n + 2 := ⟨rounds - 2, by simp at hrounds; omega⟩
    obtain rfl : cs = [] := by rw [← flatten_splitAfter (· == '\n') cs, hpieces, List.flatten_nil]
    rw [encode_ofList_nil]
    rcases before? with - | before
    · rfl
    · -- The open line is executed when the input has ended, and the next round ends the prompt.
      exact execute_bind_eq_executed hw (hexecute before (by simp [linesFrom]) s hs)
        fun _ _ _ _ ↦ rfl
  | cons piece pieces ih =>
    obtain ⟨rounds, rfl⟩ : ∃ n, rounds = n + 1 := ⟨rounds - 1, by omega⟩
    have hrounds' : pieces.length + 1 < rounds := by simpa using hrounds
    have hrest := splitAfter_flatten_of_eq_cons hpieces
    rw [converse_cons hpieces]
    rw [linesFrom] at hexecute ⊢
    rcases hturn : Turn.ofInput before? (.line piece) with - | before | line
    · rw [ofInput_line] at hturn
      split at hturn <;> cases hturn
    · rw [hturn] at hexecute
      exact ih hrest hrounds' history hexecute hs hw
    · rw [hturn] at hexecute
      refine execute_bind_eq_executed hw (hexecute line List.mem_cons_self s hs) ?_
      intro s' w' hs' hw'
      exact ih hrest hrounds' _ (fun l hl ↦ hexecute l (List.mem_cons_of_mem line hl)) hs' hw'

end Run

/-! ### The record of a session -/

/-- Executes a line and makes a note of it. -/
def noting (execute : String → SessionT WorldM Unit) (line : String) :
    StateT (List String × Session) WorldM Unit := fun (noted, session) ↦ do
  let ((), session) ← execute line session
  return ((), noted ++ [line], session)

/-- Making notes is all that is added. -/
theorem forM_noting (execute : String → SessionT WorldM Unit) (lines noted : List String)
    (session : Session) (w : World) :
    lines.forM (noting execute) (noted, session) w =
      (lines.forM execute session w).map fun r ↦ (((), noted ++ lines, r.1.2), r.2) := by
  induction lines generalizing noted session w with
  | nil =>
    show some (((), noted, session), w) = some (((), noted ++ [], session), w)
    rw [List.append_nil]
  | cons line lines ih =>
    show (noting execute line (noted, session) w).bind
        (fun r ↦ lines.forM (noting execute) r.1.2 r.2) =
      ((execute line session w).bind fun r ↦ lines.forM execute r.1.2 r.2).map _
    have hnoting : noting execute line (noted, session) w =
        (execute line session w).map fun r ↦ (((), noted ++ [line], r.1.2), r.2) := by
      show (execute line session w).bind _ = _
      rcases execute line session w with - | ⟨⟨⟨⟩, session'⟩, w'⟩ <;> rfl
    rw [hnoting]
    rcases execute line session w with - | ⟨⟨⟨⟩, session'⟩, w'⟩
    · rfl
    · show lines.forM (noting execute) (noted ++ [line], session') w' = _
      rw [ih, List.append_assoc]
      rfl

theorem unheeding_noting {files : FileTree} {execute : String → SessionT WorldM Unit}
    {line : String} (h : Undisturbed files (execute line)) (s : List String × Session)
    (hs : s.2.settings.pause = false) :
    Unheeding files (fun r ↦ r.2.2.settings.pause = false) (noting execute line s) :=
  (h s.2 hs).bind fun _ hr ↦ .pure hr

/-- **What the prompt of a session hands over, against the logical lines of the text.**

With pause mode off throughout, the prompt on a text executes the lines `submittedLines` in order,
and has made a note of exactly these when it returns; it returns if all of these executions do.
Up to blanks at their ends these are the logical lines of the text **if and only if** none of the
logical lines that a physical line completes ends in `&`. -/
theorem noted_lines_agree_iff (text : String) (budget : Budget) (history : History)
    (session : Session) (world : World)
    (hlines : (physicalLines text.toList).length + 1 < budget.lines)
    (hpause : session.settings.pause = false)
    (htoggle : ∀ line ∈ submittedLines text,
      togglesPause (world.files.togglesPause budget.depth) line = false) :
    let execute line := discard (Session.execute budget line)
    converse (noting execute) budget.lines none history ([], session)
        (world.withInput (encode text)) =
      ((submittedLines text).forM execute session world).map (fun r ↦
        (((submittedLines text).foldl History.add history, submittedLines text, r.1.2),
          r.2.withInput [])) ∧
    ((submittedLines text).map trimmed = (logicalLines text).map trimmed ↔
      ∀ line ∈ completeLines text, ¬ EndsInMark line.toList) := by
  intro execute
  refine ⟨?_, map_trimmed_submittedLines_eq_iff text⟩
  have hexecute : ∀ line ∈ linesFrom none (splitAfter (· == '\n') text.toList),
      ∀ s : List String × Session, s.2.settings.pause = false →
        Unheeding world.files (fun r ↦ r.2.2.settings.pause = false)
          (noting execute (String.ofList line) s) := by
    intro line hline
    have hquiet := htoggle (String.ofList line) (List.mem_map_of_mem hline)
    exact unheeding_noting ((undisturbed_execute budget hquiet).bind fun _ ↦ .pure ())
  have hrun := converse_eq_executed rfl (by simpa [physicalLines] using hlines) history hexecute
    (s := ([], session)) hpause (w := world) rfl
  rw [String.ofList_toList] at hrun
  rw [hrun]
  show ((submittedLines text).forM (noting execute) ([], session) world).map _ = _
  rw [forM_noting, Option.map_map]
  rfl

/-- A blank line behind a line with two marks: the prompt goes on and hands over one line, and the
text has two. -/
theorem noted_lines_differ_behind_two_marks :
    (converse (noting fun line ↦ discard (Session.execute ⟨100, 1, 5⟩ line)) 5 none {} ([], {})
      (World.withInput {} (encode "x &&\n\ny\n"))).map (·.1.2.1) = some ["x  y"] ∧
    logicalLines "x &&\n\ny\n" = ["x & ", "y"] ∧
    (submittedLines "x &&\n\ny\n").map trimmed ≠ (logicalLines "x &&\n\ny\n").map trimmed := by
  obtain ⟨hrun, hagree⟩ :=
    noted_lines_agree_iff "x &&\n\ny\n" ⟨100, 1, 5⟩ {} {} {} (by decide) rfl (by decide)
  refine ⟨?_, by decide, hagree.not.mpr (by decide)⟩
  rw [hrun]
  decide +kernel

end Prompt

end UntypedLambda
