import UntypedLambda.Expr.Render
import UntypedLambda.Proofs.Grammar

/-!
# The printed form is read back

The text of an expression is read as that expression if and only if all of its names are words
(`read_render_iff`). Printing goes through the tokens, and each of its two steps is undone on its
own.

* The gaps keep the tokens apart: a name is followed by a space or by a parenthesis, never by a
  letter, so scanning finds the tokens that were written (`scanFrom_spaced`).
* The tokens of an expression derive it in the grammar, so they are parsed as it is
  (`parse_of_derives`). What they derive depends on the place: an atom as an operand, the head of an
  abstraction behind a bound name, and as an operator an expression in front of any further
  operands (`IsWritten`). The last is why the tokens are written in front of others: an operator
  without parentheses is not a phrase of its own.

In the other direction, every name that is read is a word.
-/

namespace UntypedLambda

/-! ### Scanning what was written -/

namespace Token

/-- The letters as two ranges of code points. -/
theorem toNat_of_isLetter {c : Char} (h : isLetter c = true) :
    (65 ≤ c.toNat ∧ c.toNat ≤ 90) ∨ (97 ≤ c.toNat ∧ c.toNat ≤ 122) := by
  rcases Bool.or_eq_true_iff.1 h with hupper | hlower
  · exact .inl (of_decide_eq_true hupper)
  · obtain ⟨hge, hle⟩ := Bool.and_eq_true_iff.1 hlower
    exact .inr ⟨of_decide_eq_true hge, of_decide_eq_true hle⟩

/-- No blank lies between the space and the end of ASCII. -/
theorem isBlank_eq_false_of_toNat {c : Char} (hge : 33 ≤ c.toNat) (hle : c.toNat ≤ 127) :
    Text.isBlank c = false := by
  rw [Bool.eq_false_iff]
  intro hblank
  simp only [Text.isBlank, Bool.or_eq_true, Bool.and_eq_true, decide_eq_true_eq, beq_iff_eq]
    at hblank
  omega

theorem isBlank_eq_false_of_isLetter {c : Char} (h : isLetter c = true) :
    Text.isBlank c = false := by
  have hrange := toNat_of_isLetter h
  exact isBlank_eq_false_of_toNat (by omega) (by omega)

theorem scanFrom_nil (position : Nat) : scanFrom position [] = [] :=
  scanFrom.eq_def position []

theorem scanFrom_cons (position : Nat) (c : Char) (cs : List Char) :
    scanFrom position (c :: cs) =
      if Text.isBlank c then scanFrom (position + c.utf8Size) cs
      else if isLetter c then
        .ok (.ident (String.ofList (c :: cs.takeWhile isLetter))) ::
          scanFrom (position + (c :: cs.takeWhile isLetter).length) (cs.dropWhile isLetter)
      else
        (match ofMark? c with
          | some token => .ok token
          | none => .error ⟨c, position⟩) :: scanFrom (position + c.utf8Size) cs :=
  scanFrom.eq_def position (c :: cs)

theorem scanFrom_blank {c : Char} (h : Text.isBlank c = true) (position : Nat)
    (cs : List Char) :
    scanFrom position (c :: cs) = scanFrom (position + c.utf8Size) cs := by
  rw [scanFrom_cons, if_pos h]

theorem scanFrom_mark {c : Char} {t : Token} (hmark : ofMark? c = some t) (position : Nat)
    (cs : List Char) :
    scanFrom position (c :: cs) = .ok t :: scanFrom (position + c.utf8Size) cs := by
  have hclass : Text.isBlank c = false ∧ isLetter c = false := by
    unfold ofMark? at hmark
    split at hmark
    case h_6 => cases hmark
    all_goals decide
  rw [scanFrom_cons, if_neg (by simp [hclass.1]), if_neg (by simp [hclass.2]), hmark]

/-- A run of characters of one class ends in front of a character that is not of the class. -/
theorem takeWhile_append_of_run {p : Char → Bool} {word cs : List Char}
    (hword : ∀ c ∈ word, p c = true) (hcs : ∀ c ∈ cs.head?, p c = false) :
    (word ++ cs).takeWhile p = word ∧ (word ++ cs).dropWhile p = cs := by
  rw [List.takeWhile_append_of_pos hword, List.dropWhile_append_of_pos hword]
  rcases cs with - | ⟨c, cs⟩
  · exact ⟨List.append_nil word, rfl⟩
  · have hc := hcs c rfl
    simp [hc]

/-- A word in front of no letter is scanned as one identifier. -/
theorem scanFrom_word {x : Name} (hx : IsWord x) {cs : List Char}
    (hcs : ∀ c ∈ cs.head?, isLetter c = false) (position : Nat) :
    scanFrom position (x.toList ++ cs) =
      .ok (.ident x) :: scanFrom (position + x.toList.length) cs := by
  obtain ⟨c, word, hword⟩ := List.exists_cons_of_ne_nil hx.1
  have hletters : ∀ d ∈ c :: word, isLetter d = true := by
    rw [← hword]
    exact hx.2
  obtain ⟨hc, hrest⟩ := List.forall_mem_cons.1 hletters
  obtain ⟨htake, hdrop⟩ := takeWhile_append_of_run hrest hcs
  rw [hword, List.cons_append, scanFrom_cons, if_neg (by simp [isBlank_eq_false_of_isLetter hc]),
    if_pos hc, htake, hdrop, ← hword, String.ofList_toList]

/-- What may follow a token so that it is scanned as itself. -/
def Apart (cs : List Char) : Token → Prop
  | ident x => IsWord x ∧ ∀ c ∈ cs.head?, isLetter c = false
  | _ => True

/-- A token that stands apart from what follows is scanned as itself. -/
theorem scanFrom_text {t : Token} {cs : List Char} (h : t.Apart cs) (position : Nat) :
    ∃ position', scanFrom position (t.text.toList ++ cs) = .ok t :: scanFrom position' cs := by
  cases t with
  | ident x => exact ⟨_, scanFrom_word h.1 h.2 position⟩
  | _ => exact ⟨_, scanFrom_mark rfl position cs⟩

theorem gap_eq (t u : Token) : gap t u = [] ∨ gap t u = [' '] := by
  cases t <;> cases u <;> simp [gap]

theorem scanFrom_gap (t u : Token) (position : Nat) (cs : List Char) :
    ∃ position', scanFrom position (gap t u ++ cs) = scanFrom position' cs := by
  rcases gap_eq t u with hgap | hgap
  · exact ⟨position, by rw [hgap, List.nil_append]⟩
  · rw [hgap, List.singleton_append]
    exact ⟨_, scanFrom_blank (by decide) position cs⟩

theorem apart_nil {t : Token} (ht : ∀ x, t = ident x → IsWord x) : t.Apart [] := by
  cases t with
  | ident x => exact ⟨ht x rfl, fun c hc ↦ by cases hc⟩
  | _ => trivial

/-- Right behind a name stands a space or a closing parenthesis. -/
theorem eq_of_mem_head?_gap {x : Name} {u : Token} {ts : List Token} {c : Char}
    (hc : c ∈ (gap (ident x) u ++ spaced (u :: ts)).head?) : c = ' ' ∨ c = ')' := by
  cases u with
  | closeParen =>
    have hhead : (spaced (closeParen :: ts)).head? = some ')' := by cases ts <;> rfl
    exact .inr (Option.some.inj (hhead.symm.trans hc)).symm
  | _ => exact .inl (Option.some.inj hc).symm

/-- No letter stands right behind a name. -/
theorem apart_spaced {t : Token} (ht : ∀ x, t = ident x → IsWord x) (u : Token)
    (ts : List Token) : t.Apart (gap t u ++ spaced (u :: ts)) := by
  cases t with
  | ident x =>
    refine ⟨ht x rfl, fun c hc ↦ ?_⟩
    rcases eq_of_mem_head?_gap hc with rfl | rfl <;> decide
  | _ => trivial

/-- What was written as the text of tokens is scanned as these tokens. -/
theorem scanFrom_spaced {ts : List Token} (h : ∀ x, ident x ∈ ts → IsWord x) (position : Nat) :
    scanFrom position (spaced ts) = ts.map .ok := by
  induction ts generalizing position with
  | nil => rw [spaced, scanFrom_nil, List.map_nil]
  | cons t ts ih =>
    have ht : ∀ x, t = ident x → IsWord x := fun x hx ↦ h x (hx ▸ List.mem_cons_self)
    have hts : ∀ x, ident x ∈ ts → IsWord x := fun x hx ↦ h x (List.mem_cons_of_mem t hx)
    rcases ts with - | ⟨u, ts⟩
    · obtain ⟨p, hp⟩ := scanFrom_text (apart_nil ht) position
      rw [spaced, ← List.append_nil t.text.toList, hp, scanFrom_nil]
      rfl
    · obtain ⟨p, hp⟩ := scanFrom_text (apart_spaced ht u ts) position
      obtain ⟨q, hq⟩ := scanFrom_gap t u p (spaced (u :: ts))
      rw [spaced, List.append_assoc, hp, hq, ih hts]
      rfl

theorem mapM_id_map_ok (ts : List Token) : (ts.map Except.ok : List Item).mapM id = .ok ts := by
  induction ts with
  | nil => rfl
  | cons t ts ih => simp [ih, bind, Except.bind, pure, Except.pure]

theorem tokenize_spaced {ts : List Token} (h : ∀ x, ident x ∈ ts → IsWord x) :
    tokenize (String.ofList (spaced ts)) = .ok ts := by
  rw [tokenize, scan, String.toList_ofList, scanFrom_spaced h, mapM_id_map_ok]

/-- The name of an identifier. -/
def name? : Token → Option Name
  | ident x => some x
  | _ => none

end Token

/-! ### The tokens of an expression derive it -/

namespace Expr

open Token

theorem emit_append (e : Expr) (place : Place) (k l : List Token) :
    e.emit place (k ++ l) = e.emit place k ++ l := by
  induction e generalizing place k with
  | var x => cases place <;> rfl
  | lam x body ih => cases place <;> simp only [emit, ← List.cons_append, ih]
  | app f a ihf iha => cases place <;> simp only [emit, ← List.cons_append, ihf, iha]

/-- An expression in parentheses, in front of the tokens `k`. -/
def emitGroup (e : Expr) (k : List Token) : List Token :=
  openParen :: e.emit .whole (closeParen :: k)

theorem emitGroup_append (e : Expr) (k : List Token) :
    e.emitGroup k = e.emitGroup [] ++ k := by
  show openParen :: e.emit .whole ([closeParen] ++ k) = _
  rw [emit_append]
  rfl

/-- What the tokens of an expression derive, by its place. -/
structure IsWritten (e : Expr) : Prop where
  whole : Derives (e.emit .whole []) (.expr e)
  head : ∃ xs ts body, e.emit .head [] = xs.map ident ++ dot :: ts ∧ Derives ts (.expr body) ∧
    lams xs body = e
  operator : ∀ {ts as}, Derives ts (.tail as) →
    Derives (e.emit .operator ts) (.expr (as.foldl app e))
  operand : Derives (e.emit .operand []) (.atom e)

theorem derives_emitGroup {e : Expr} (h : Derives (e.emit .whole []) (.expr e)) :
    Derives (e.emitGroup []) (.atom e) := by
  have hgroup : Derives (openParen :: (e.emit .whole [] ++ [closeParen])) (.atom e) := .group h
  rwa [← emit_append] at hgroup

theorem isWritten_var (x : Name) : IsWritten (var x) where
  whole := .application (.ident x) .tailNil
  head := ⟨[], [ident x], var x, rfl, .application (.ident x) .tailNil, rfl⟩
  operator h := .application (.ident x) h
  operand := .ident x

theorem isWritten_lam (x : Name) {body : Expr} (h : IsWritten body) : IsWritten (lam x body) := by
  obtain ⟨xs, ts, b, hhead, hb, rfl⟩ := h.head
  have hwhole : Derives ((lam x (lams xs b)).emit .whole []) (.expr (lam x (lams xs b))) := by
    rw [emit, hhead]
    exact .abstraction (List.cons_ne_nil x xs) hb
  refine ⟨hwhole, ⟨x :: xs, ts, b, ?_, hb, rfl⟩, ?_, derives_emitGroup hwhole⟩
  · rw [emit, hhead]
    rfl
  · intro us as has
    show Derives (emitGroup (lam x (lams xs b)) us) _
    rw [emitGroup_append]
    exact .application (derives_emitGroup hwhole) has

theorem isWritten_app {f a : Expr} (hf : IsWritten f) (ha : IsWritten a) :
    IsWritten (app f a) := by
  have hoperator : ∀ {ts as}, Derives ts (.tail as) →
      Derives ((app f a).emit .operator ts) (.expr (as.foldl app (app f a))) := by
    intro ts as has
    have htail : Derives (a.emit .operand ts) (.tail (a :: as)) := by
      rw [← List.nil_append ts, emit_append]
      exact .tailCons ha.operand has
    exact hf.operator htail
  have hwhole : Derives ((app f a).emit .whole []) (.expr (app f a)) := hoperator .tailNil
  exact ⟨hwhole, ⟨[], _, app f a, rfl, hwhole, rfl⟩, hoperator, derives_emitGroup hwhole⟩

theorem isWritten (e : Expr) : IsWritten e := by
  induction e with
  | var x => exact isWritten_var x
  | lam x body ih => exact isWritten_lam x ih
  | app f a ihf iha => exact isWritten_app ihf iha

/-- The tokens of an expression are parsed as that expression, whatever its names are. -/
theorem parse_tokens (e : Expr) : parse e.tokens = .ok e :=
  parse_of_derives (isWritten e).whole

/-! ### The printed text -/

/-- The identifiers of the tokens are the names of the expression, in order. -/
theorem filterMap_name?_emit (e : Expr) (place : Place) (k : List Token) :
    (e.emit place k).filterMap name? = e.names ++ k.filterMap name? := by
  induction e generalizing place k with
  | var x => cases place <;> rfl
  | lam x body ih => cases place <;> simp [emit, List.filterMap_cons, name?, names, ih]
  | app f a ihf iha => cases place <;> simp [emit, List.filterMap_cons, name?, names, ihf, iha]

theorem mem_names_of_mem_tokens {e : Expr} {x : Name} (h : ident x ∈ e.tokens) :
    x ∈ e.names := by
  have hmem : x ∈ e.tokens.filterMap name? := List.mem_filterMap.2 ⟨ident x, h, rfl⟩
  rw [tokens, filterMap_name?_emit] at hmem
  simpa using hmem

/-- **Printing then parsing is exact.** The printed form of an expression is read back as that
very expression if and only if each of its names, bound or not, is a run of at least one letter. -/
theorem read_render_iff (e : Expr) : read e.render = .ok e ↔ ∀ x ∈ e.names, IsWord x := by
  constructor
  · intro h
    exact isWord_of_read h
  · intro h
    have hwords : ∀ x, ident x ∈ e.tokens → IsWord x :=
      fun x hx ↦ h x (mem_names_of_mem_tokens hx)
    simp only [read, render, tokenize_spaced hwords, parse_tokens]

end Expr

end UntypedLambda
