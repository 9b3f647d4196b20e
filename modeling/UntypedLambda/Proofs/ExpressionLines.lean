import UntypedLambda.Proofs.ContinuedLines
import UntypedLambda.Proofs.Loading
import UntypedLambda.Proofs.Spelling

/-!
# Expressions in files

A file has more in it than expressions: marks of continuation, comments, commands. None of these is
ever taken for an expression or an expression for one of them. The reason is the alphabet: `&`, `#`
and `:` stand in no text that is scanned without an error (`belongs_of_tokenize`).

An expression may be written in pieces, on lines that continue. The pieces come to one logical line
(`joinFrom_pieces`), on which a space stands where two of them met. So no name grows together with
the next one, and the line is scanned as the tokens of the pieces one behind the other
(`ScannedAs.append_space`). It is neither a comment nor a command nor blank, and to load the file is
to evaluate what these tokens stand for (`load_apply_of_executableLines`).
-/

namespace UntypedLambda

namespace Token

open Text (trimEnd)

/-! ### Texts that are scanned without an error -/

/-- Wherever it starts, the text is scanned as these tokens. -/
def ScannedAs (cs : List Char) (ts : List Token) : Prop :=
  ∀ position, scanFrom position cs = ts.map .ok

theorem ScannedAs.of_scanFrom {position : Nat} {cs : List Char} {ts : List Token}
    (h : scanFrom position cs = ts.map .ok) : ScannedAs cs ts := by
  obtain ⟨gap, body, hgap, hbody, rfl⟩ := spelled_of_scanFrom h
  have hwords : ∀ x, ident x ∈ ts → IsWord x := by
    intro x hx
    have hitem : .ok (ident x) ∈ (ts.map .ok : List Item) := List.mem_map_of_mem hx
    rw [← h] at hitem
    exact isWord_of_mem_scanFrom hitem
  intro position'
  obtain ⟨position'', hscan⟩ := scanFrom_blanks hgap position' body
  rw [hscan, scanFrom_of_spelled hbody hwords]

theorem ScannedAs.of_tokenize {text : String} {ts : List Token} (h : tokenize text = .ok ts) :
    ScannedAs text.toList ts :=
  .of_scanFrom (eq_map_of_mapM_id h)

theorem ScannedAs.tokenize {cs : List Char} {ts : List Token} (h : ScannedAs cs ts) :
    tokenize (String.ofList cs) = .ok ts := by
  rw [Token.tokenize, scan, String.toList_ofList, h 0, mapM_id_map_ok]

/-- Blanks are scanned as nothing. -/
theorem scannedAs_blanks {gap : List Char} (h : IsBlankRun gap) : ScannedAs gap [] := by
  intro position
  obtain ⟨position', hscan⟩ := scanFrom_blanks h position []
  rw [List.append_nil] at hscan
  rw [hscan, scanFrom_nil, List.map_nil]

/-- A space keeps two texts apart. -/
theorem ScannedAs.append_space {as bs : List Char} {ts us : List Token} (ha : ScannedAs as ts)
    (hb : ScannedAs bs us) : ScannedAs (as ++ ' ' :: bs) (ts ++ us) := by
  intro position
  have hhead : ∀ c ∈ (' ' :: bs).head?, isLetter c = false := by
    rintro c ⟨⟩
    rfl
  rw [scanFrom_append hhead, ha, scanFrom_blank rfl, hb, List.map_append]

/-- What is trimmed off is blank. -/
theorem exists_trimEnd_append (cs : List Char) :
    ∃ gap, IsBlankRun gap ∧ trimEnd cs ++ gap = cs := by
  refine ⟨(cs.reverse.takeWhile Text.isBlank).reverse, fun c hc ↦ ?_, ?_⟩
  · exact List.mem_takeWhile_imp (List.mem_reverse.1 hc)
  · rw [Text.trimEnd, ← List.reverse_append, List.takeWhile_append_dropWhile, List.reverse_reverse]

/-- Blanks at the end do not matter. -/
theorem ScannedAs.trimEnd {cs : List Char} {ts : List Token} (h : ScannedAs cs ts) :
    ScannedAs (trimEnd cs) ts := by
  obtain ⟨gap, hgap, hcs⟩ := exists_trimEnd_append cs
  have hhead : ∀ c ∈ gap.head?, isLetter c = false := fun c hc ↦
    isLetter_eq_false_of_isBlank (hgap c (List.mem_of_head? hc))
  intro position
  have hscan := h position
  rwa [← hcs, scanFrom_append hhead, scannedAs_blanks hgap, List.map_nil, List.append_nil] at hscan

/-- Only characters of the notation stand in a text that is scanned without an error. -/
theorem belongs_of_tokenize {text : String} {ts : List Token} (h : tokenize text = .ok ts) :
    ∀ c ∈ text.toList, belongs c = true := by
  intro c hc
  by_contra hnot
  rcases hfind : text.toList.find? (!belongs ·) with - | d
  · exact absurd (List.find?_eq_none.1 hfind c hc) (by simpa using hnot)
  · obtain ⟨hd, before, after, htext, hbefore⟩ := List.find?_eq_some_iff_append.1 hfind
    rw [tokenize_eq_error htext (by simpa using hbefore) (by simpa using hd)] at h
    cases h

end Token

/-! ### What such a text is not -/

open Token

/-- The first character of a text, blanks apart, is a character of the text. -/
theorem mem_of_head?_trimStart {cs : List Char} {c : Char}
    (h : (Text.trimStart cs).head? = some c) : c ∈ cs :=
  (List.dropWhile_sublist Text.isBlank).mem (List.mem_of_head? h)

section Alphabet

variable {line : String} (h : ∀ c ∈ line.toList, belongs c = true)

include h

theorem isComment_eq_false_of_belongs : isComment line = false := by
  rw [isComment, beq_eq_false_iff_ne]
  intro hhead
  exact absurd (h '#' (mem_of_head?_trimStart hhead)) (by decide)

theorem ofLine?_eq_none_of_belongs : Command.ofLine? line = none := by
  unfold Command.ofLine?
  split
  · next rest hrest =>
    exact absurd (h ':' (mem_of_head?_trimStart (by rw [hrest, List.head?_cons]))) (by decide)
  · rfl

end Alphabet

/-- A line with a token on it is not blank. -/
theorem isBlankLine_eq_false_of_tokenize {line : String} {ts : List Token}
    (h : tokenize line = .ok ts) (hts : ts ≠ []) : isBlankLine line = false := by
  rw [Bool.eq_false_iff]
  intro hblank
  have hrun : IsBlankRun line.toList := List.all_eq_true.1 hblank
  have hscan := ScannedAs.of_tokenize h 0
  rw [scannedAs_blanks hrun 0] at hscan
  exact hts (List.map_eq_nil_iff.1 hscan.symm)

/-! ### Pieces -/

namespace Text

/-- The line that pieces are joined to: behind each but the last stands a space, and the last is
trimmed. -/
def joined : List String → List Char
  | [] => []
  | [piece] => trimEnd piece.toList
  | piece :: piece' :: pieces => piece.toList ++ ' ' :: joined (piece' :: pieces)

theorem joined_cons_cons (piece piece' : String) (pieces : List String) :
    joined (piece :: piece' :: pieces) = piece.toList ++ ' ' :: joined (piece' :: pieces) := rfl

theorem not_endsInMark_of_notMem {line : List Char} (h : '&' ∉ line) : ¬ EndsInMark line :=
  fun hmark ↦ h ((trimEnd_isPrefix line).mem (List.mem_of_getLast? hmark))

theorem beq_newline_eq_false {cs : List Char} (h : '\n' ∉ cs) : ∀ c ∈ cs, (c == '\n') = false := by
  intro c hc
  rw [beq_eq_false_iff_ne]
  rintro rfl
  exact h hc

/-- The physical lines of pieces that continue: the first one has its mark and its line end. -/
theorem splitAfter_intercalate {piece : String} (hpiece : '\n' ∉ piece.toList) (piece' : String)
    (pieces : List String) :
    splitAfter (· == '\n') ("&\n".intercalate (piece :: piece' :: pieces)).toList =
      (piece.toList ++ ['&', '\n']) ::
        splitAfter (· == '\n') ("&\n".intercalate (piece' :: pieces)).toList := by
  have htext : ("&\n".intercalate (piece :: piece' :: pieces)).toList =
      (piece.toList ++ ['&']) ++ '\n' :: ("&\n".intercalate (piece' :: pieces)).toList := by
    simp [String.intercalate_cons_cons]
  have hfront : '\n' ∉ piece.toList ++ ['&'] := by simpa using hpiece
  rw [htext, splitAfter_append_cons (beq_newline_eq_false hfront) rfl, List.append_assoc]
  rfl

/-- A piece with its mark continues. -/
theorem strip_piece (piece : List Char) : strip (piece ++ ['&', '\n']) = ⟨piece, true⟩ := by
  refine strip_of_trimEnd_eq ?_
  rw [trimEnd_append, if_neg (by decide)]
  rfl

/-- Pieces that continue are one logical line, unless it would be empty. By induction on the pieces;
`pending` is what was joined before. -/
theorem joinFrom_pieces {pieces : List String} (hpieces : pieces ≠ [])
    (hnewlines : ∀ piece ∈ pieces, '\n' ∉ piece.toList)
    (hmarks : ∀ piece ∈ pieces, '&' ∉ piece.toList) {pending : List Char}
    (hne : pending ++ joined pieces ≠ []) :
    joinFrom pending (splitAfter (· == '\n') ("&\n".intercalate pieces).toList) =
      [pending ++ joined pieces] := by
  induction pieces generalizing pending with
  | nil => exact absurd rfl hpieces
  | cons piece pieces ih =>
    rw [List.forall_mem_cons] at hnewlines hmarks
    rcases pieces with - | ⟨piece', pieces⟩
    · rw [joined] at hne
      rw [String.intercalate_singleton, joined]
      by_cases hlast : piece.toList = []
      · -- Nothing stands behind the last mark, so the run is still open when the text ends.
        have hpending : pending ≠ [] := by simpa [hlast, trimEnd] using hne
        simp [hlast, splitAfter, joinFrom, trimEnd, hpending]
      · rw [splitAfter_of_forall hlast (beq_newline_eq_false hnewlines.1), joinFrom,
          strip_of_not_endsInMark (not_endsInMark_of_notMem hmarks.1)]
        rfl
    · have hpending : pending ++ piece.toList ++ [' '] ++ joined (piece' :: pieces) ≠ [] := by simp
      rw [splitAfter_intercalate hnewlines.1, joinFrom, strip_piece, if_pos rfl,
        ih (List.cons_ne_nil piece' pieces) hnewlines.2 hmarks.2 hpending,
        joined_cons_cons, List.append_assoc, List.append_assoc, List.singleton_append]

end Text

open Text (joined logicalLines physicalLines)

theorem notMem_mark_of_tokenize {pieces : List String} {tokens : List (List Token)}
    (h : List.Forall₂ (fun piece ts ↦ tokenize piece = .ok ts) pieces tokens) :
    ∀ piece ∈ pieces, '&' ∉ piece.toList := by
  induction h with
  | nil => exact List.forall_mem_nil _
  | cons hpiece hpieces ih =>
    refine List.forall_mem_cons.2 ⟨fun hmark ↦ ?_, ih⟩
    exact absurd (belongs_of_tokenize hpiece '&' hmark) (by decide)

/-- The line is scanned as the tokens of the pieces, one behind the other. -/
theorem scannedAs_joined {pieces : List String} {tokens : List (List Token)}
    (h : List.Forall₂ (fun piece ts ↦ tokenize piece = .ok ts) pieces tokens) :
    ScannedAs (joined pieces) tokens.flatten := by
  induction h with
  | nil => exact scannedAs_blanks (List.forall_mem_nil _)
  | @cons piece ts pieces tokens hpiece hpieces ih =>
    rw [List.flatten_cons]
    rcases hpieces with - | ⟨hpiece', hpieces⟩
    · rw [List.flatten_nil, List.append_nil]
      exact (ScannedAs.of_tokenize hpiece).trimEnd
    · exact (ScannedAs.of_tokenize hpiece).append_space ih

/-- The pieces of an expression are one logical line, and it is scanned as what they are scanned
as. -/
theorem exists_logicalLines_eq {pieces : List String} {tokens : List (List Token)}
    (hnewlines : ∀ piece ∈ pieces, '\n' ∉ piece.toList)
    (htokens : List.Forall₂ (fun piece ts ↦ tokenize piece = .ok ts) pieces tokens)
    (hne : tokens.flatten ≠ []) :
    ∃ line, logicalLines ("&\n".intercalate pieces) = [line] ∧
      tokenize line = .ok tokens.flatten := by
  have hscanned := scannedAs_joined htokens
  have hjoined : [] ++ joined pieces ≠ [] := by
    intro hnil
    rw [List.nil_append] at hnil
    rw [hnil] at hscanned
    exact hne (List.map_eq_nil_iff.1 ((hscanned 0).symm.trans (scanFrom_nil 0)))
  have hpieces : pieces ≠ [] := by
    rintro rfl
    exact hjoined rfl
  refine ⟨String.ofList (joined pieces), ?_, hscanned.tokenize⟩
  rw [logicalLines, physicalLines, Text.joinFrom_map_dropLineEnd,
    Text.joinFrom_pieces hpieces hnewlines (notMem_mark_of_tokenize htokens) hjoined]
  rfl

/-! ### Loading -/

theorem read_of_tokenize {line : String} {ts : List Token} (h : tokenize line = .ok ts) :
    Expr.read line = (Expr.parse ts).mapError .parse := by
  simp only [Expr.read, h]
  rcases Expr.parse ts with fault | e <;> rfl

/-- What is read was scanned, and there was a token. -/
theorem exists_tokenize_of_read {text : String} {e : Expr} (h : Expr.read text = .ok e) :
    ∃ ts, tokenize text = .ok ts ∧ ts ≠ [] := by
  rcases hscan : tokenize text with fault | ts
  · simp [Expr.read, hscan] at h
  · refine ⟨ts, rfl, ?_⟩
    rintro rfl
    simp [read_of_tokenize hscan, Expr.parse, Expr.checkParens, Expr.parseUnchecked,
      Expr.parseSpine, Except.mapError] at h

namespace Session

/-- A load that has one expression to evaluate, behind its evaluation. -/
def expressionLoaded (source : Source) :
    (Option Expr × Session) × World → (Except LoadError Nat × Session) × World
  | ((some _, session), w) => ((.ok 0, session), w)
  | ((none, session), w) => ((.ok 1, session), w.complained (loadReport source 1))

/-- To execute a line that is neither a command nor blank is to evaluate it. -/
theorem execute_of_ofLine?_eq_none {budget : Budget} {line : String}
    (hcommand : Command.ofLine? line = none) (hblank : isBlankLine line = false) :
    (execute budget line : SessionT WorldM Bool) =
      (do return (← evaluate budget line).isSome) := by
  simp [execute, executeWith, hcommand, hblank]

theorem load_apply_of_executableLines {budget : Budget} {source : Source} {session : Session}
    {w : World} {text line : String} (hdepth : 0 < budget.depth) (htext : w.text source = .ok text)
    (hlines : executableLines text = [line]) (hcommand : Command.ofLine? line = none)
    (hblank : isBlankLine line = false) :
    (load budget source : SessionT WorldM _) session w =
      ((evaluate budget line : SessionT WorldM _) (session.loading source) (w.behind source)).map
        (expressionLoaded source) := by
  obtain ⟨steps, depth, lines⟩ := budget
  obtain ⟨depth, rfl⟩ := Nat.exists_eq_add_one.2 hdepth
  have hrun : (executeAll ⟨steps, depth, lines⟩ [line] : SessionT WorldM _) =
      (do return [(← evaluate ⟨steps, depth + 1, lines⟩ line).isSome]) := by
    simp only [executeAll, List.mapM_cons, List.mapM_nil, pure_bind,
      execute_of_ofLine?_eq_none hcommand hblank, bind_assoc]
    rfl
  rw [load_apply htext, hlines, hrun]
  show Option.map _ (Option.bind _ _) = _
  rcases (evaluate ⟨steps, depth + 1, lines⟩ line : SessionT WorldM _) (session.loading source)
    (w.behind source) with - | ⟨⟨- | normal, session'⟩, w'⟩
  · rfl
  · rfl
  · show some ((Except.ok 0, session'), w'.complained (loadReport source 0)) =
      some ((.ok 0, session'), w')
    rw [loadReport, if_neg (Nat.lt_irrefl 0), World.complained_empty]

/-- To load a text of one logical line with a token on it is to evaluate that line. -/
theorem load_apply_of_tokenize {budget : Budget} {source : Source} {session : Session} {w : World}
    {text line : String} {ts : List Token} (hdepth : 0 < budget.depth)
    (htext : w.text source = .ok text) (hlines : logicalLines text = [line])
    (hscan : tokenize line = .ok ts) (hne : ts ≠ []) :
    (load budget source : SessionT WorldM _) session w =
      ((evaluate budget line : SessionT WorldM _) (session.loading source) (w.behind source)).map
        (expressionLoaded source) := by
  have halphabet := belongs_of_tokenize hscan
  have hexecutable : executableLines text = [line] := by
    rw [executableLines, hlines]
    simp [isComment_eq_false_of_belongs halphabet]
  exact load_apply_of_executableLines hdepth htext hexecutable
    (ofLine?_eq_none_of_belongs halphabet) (isBlankLine_eq_false_of_tokenize hscan hne)

/-- **An expression in a file is taken for an expression.**

Let the texts `pieces` be free of line ends, and let each of them be scanned without an error, with
a token in at least one. Written on lines that continue they are one logical line. It is scanned as
all the tokens in order, is no comment and no command, and is read as what these tokens are parsed
to. To load it, as a file or from the input, is to evaluate it.

In particular, an expression on one line is evaluated as it stands. -/
theorem load_pieces_evaluates_tokens :
    (∀ (pieces : List String) (tokens : List (List Token)),
      (∀ piece ∈ pieces, '\n' ∉ piece.toList) →
      List.Forall₂ (fun piece ts ↦ tokenize piece = .ok ts) pieces tokens →
      tokens.flatten ≠ [] →
      ∃ line, logicalLines ("&\n".intercalate pieces) = [line] ∧
        tokenize line = .ok tokens.flatten ∧
        isComment line = false ∧
        Command.ofLine? line = none ∧
        Expr.read line = (Expr.parse tokens.flatten).mapError .parse ∧
        ∀ (budget : Budget) (source : Source) (session : Session) (world : World),
          0 < budget.depth → world.text source = .ok ("&\n".intercalate pieces) →
          (load budget source : SessionT WorldM _) session world =
            ((evaluate budget line : SessionT WorldM _) (session.loading source)
              (world.behind source)).map (expressionLoaded source)) ∧
    ∀ (text : String) (e : Expr), '\n' ∉ text.toList → Expr.read text = .ok e →
      ∀ (budget : Budget) (source : Source) (session : Session) (world : World),
        0 < budget.depth → world.text source = .ok text →
        (load budget source : SessionT WorldM _) session world =
          ((evaluate budget text : SessionT WorldM _) (session.loading source)
            (world.behind source)).map (expressionLoaded source) := by
  refine ⟨fun pieces tokens hnewlines htokens hne ↦ ?_,
    fun text e hnewline hread budget source session world hdepth htext ↦ ?_⟩
  · obtain ⟨line, hlines, hscan⟩ := exists_logicalLines_eq hnewlines htokens hne
    exact ⟨line, hlines, hscan, isComment_eq_false_of_belongs (belongs_of_tokenize hscan),
      ofLine?_eq_none_of_belongs (belongs_of_tokenize hscan), read_of_tokenize hscan,
      fun budget source session world hdepth htext ↦
        load_apply_of_tokenize hdepth htext hlines hscan hne⟩
  · -- The one logical line is the text with its end trimmed, which reads the same.
    obtain ⟨ts, hts, hne⟩ := exists_tokenize_of_read hread
    obtain ⟨line, hlines, hscan⟩ := exists_logicalLines_eq (List.forall_mem_singleton.2 hnewline)
      (.cons hts .nil) (List.flatten_singleton.trans_ne hne)
    rw [String.intercalate_singleton] at hlines
    rw [List.flatten_singleton] at hscan
    have hsame : Expr.read line = Expr.read text :=
      (read_of_tokenize hscan).trans (read_of_tokenize hts).symm
    rw [load_apply_of_tokenize hdepth htext hlines hscan hne, evaluate_apply, evaluate_apply, hsame]

/-- An application in three pieces, the second of them empty. The names on both sides of a mark do
not grow together. -/
theorem load_pieces_evaluates_tokens_empty_piece :
    (load ⟨2, 1, 0⟩ .input : SessionT WorldM _) {} { input := Text.encode "(λx. x&\n&\ny) z" } =
      some ((.ok 0, {}), { output := "z y\n" }) := by
  have htokens : List.Forall₂ (fun piece ts ↦ tokenize piece = .ok ts) ["(λx. x", "", "y) z"]
      [[.openParen, .lambda, .ident "x", .dot, .ident "x"], [],
        [.ident "y", .closeParen, .ident "z"]] :=
    .cons (by decide +kernel) (.cons (by decide +kernel) (.cons (by decide +kernel) .nil))
  obtain ⟨line, hlines, -, -, -, -, hload⟩ :=
    load_pieces_evaluates_tokens.1 _ _ (by decide) htokens (by decide)
  have hline : [line] = ["(λx. x  y) z"] := hlines.symm.trans (by decide)
  obtain rfl := List.singleton_inj.1 hline
  exact (hload ⟨2, 1, 0⟩ .input {} _ Nat.one_pos (by decide)).trans (by decide +kernel)

end Session

end UntypedLambda
