import UntypedLambda.Proofs.PrintedForm

/-!
# Which texts are scanned, and as what

A text is scanned as a list of tokens if and only if it spells them: the tokens one behind the
other, an abstraction as `λ` or as a backslash, with any blanks around them, and at least one blank
where two names meet. Otherwise the error is the first character that can stand in no such text,
with the number of bytes before it (`tokenize_spec`).

The spellings are a relation of their own (`Spelled`), which says nothing about how a text is cut.
That the scanner cuts it in the right places has two sides. A name in a spelling is followed by
something that is no letter, so the longest run of letters is the name (`scanFrom_of_spelled`); and
where the scanner ends a name, no letter follows, so two names that it finds have a blank between
them (`spelled_of_scanFrom`).

Positions come from one law: in front of anything but a letter a text can be cut in two, and the
items of the second part are those it has from its own position on (`scanFrom_append`).
-/

namespace UntypedLambda

namespace Token

/-! ### Spellings -/

/-- The ways to write a token. -/
def spellings : Token → List (List Char)
  | lambda => [['λ'], ['\\']]
  | t => [t.text.toList]

/-- Nothing but blanks. -/
def IsBlankRun (cs : List Char) : Prop := ∀ c ∈ cs, Text.isBlank c = true

/-- A name, in front of tokens of which the first is a name too. -/
def MeetsName : Token → List Token → Prop
  | ident _, ident _ :: _ => True
  | _, _ => False

/-- The tokens are written one behind the other, each with blanks behind it, and two names with at
least one blank between them. -/
inductive Spelled : List Token → List Char → Prop
  | nil : Spelled [] []
  | cons {t : Token} {ts : List Token} {word gap cs : List Char} (hword : word ∈ t.spellings)
      (hgap : IsBlankRun gap) (hapart : MeetsName t ts → gap ≠ []) (h : Spelled ts cs) :
      Spelled (t :: ts) (word ++ gap ++ cs)

theorem mem_spellings_of_ofMark? {c : Char} {t : Token} (h : ofMark? c = some t) :
    [c] ∈ t.spellings := by
  unfold ofMark? at h
  split at h
  case h_6 => cases h
  all_goals
    obtain rfl := Option.some.inj h
    decide

/-- A token that is no name is written as one character, which is scanned as it. -/
theorem exists_ofMark? {t : Token} (ht : ∀ x, t ≠ ident x) {word : List Char}
    (h : word ∈ t.spellings) : ∃ c, word = [c] ∧ ofMark? c = some t := by
  cases t with
  | ident x => exact absurd rfl (ht x)
  | lambda =>
    rcases List.mem_pair.1 h with rfl | rfl
    · exact ⟨'λ', rfl, rfl⟩
    · exact ⟨'\\', rfl, rfl⟩
  | _ =>
    obtain rfl := List.mem_singleton.1 h
    exact ⟨_, rfl, rfl⟩

theorem isLetter_eq_false_of_isBlank {c : Char} (h : Text.isBlank c = true) :
    isLetter c = false := by
  rw [Bool.eq_false_iff]
  intro hletter
  rw [isBlank_eq_false_of_isLetter hletter] at h
  cases h

theorem isLetter_eq_false_of_ofMark? {c : Char} {t : Token} (h : ofMark? c = some t) :
    isLetter c = false := by
  unfold ofMark? at h
  split at h
  case h_6 => cases h
  all_goals decide

/-! ### The characters of the notation -/

/-- Whether a character can stand in a spelling. -/
def belongs (c : Char) : Bool :=
  Text.isBlank c || isLetter c || ['λ', '\\', '.', '(', ')'].contains c

theorem ofMark?_eq_none_of_not_belongs {c : Char} (h : belongs c = false) : ofMark? c = none := by
  unfold ofMark?
  split
  case h_6 => rfl
  all_goals exact absurd h (by decide)

theorem not_belongs {c : Char} (h : belongs c = false) :
    Text.isBlank c = false ∧ isLetter c = false := by
  rw [belongs, Bool.or_eq_false_iff, Bool.or_eq_false_iff] at h
  exact h.1

theorem scanFrom_letter {c : Char} (h : isLetter c = true) (position : Nat) (cs : List Char) :
    scanFrom position (c :: cs) =
      .ok (.ident (String.ofList (c :: cs.takeWhile isLetter))) ::
        scanFrom (position + (c :: cs.takeWhile isLetter).length) (cs.dropWhile isLetter) := by
  rw [scanFrom_cons, if_neg (by simp [isBlank_eq_false_of_isLetter h]), if_pos h]

theorem scanFrom_unknown {c : Char} (h : belongs c = false) (position : Nat) (cs : List Char) :
    scanFrom position (c :: cs) = .error ⟨c, position⟩ :: scanFrom (position + c.utf8Size) cs := by
  obtain ⟨hblank, hletter⟩ := not_belongs h
  rw [scanFrom_cons, if_neg (by simp [hblank]), if_neg (by simp [hletter]),
    ofMark?_eq_none_of_not_belongs h]

/-- Induction along the scan. The cases are the kinds of character that an item can begin with; a
letter begins a run of letters, and the scan goes on behind it. -/
@[elab_as_elim]
theorem scanFrom_induction {motive : Nat → List Char → Prop}
    (nil : ∀ position, motive position [])
    (blank : ∀ position c cs, Text.isBlank c = true → motive (position + c.utf8Size) cs →
      motive position (c :: cs))
    (letter : ∀ position c cs, isLetter c = true →
      motive (position + (c :: cs.takeWhile isLetter).length) (cs.dropWhile isLetter) →
      motive position (c :: cs))
    (mark : ∀ position c cs t, ofMark? c = some t → motive (position + c.utf8Size) cs →
      motive position (c :: cs))
    (unknown : ∀ position c cs, belongs c = false → motive (position + c.utf8Size) cs →
      motive position (c :: cs))
    (position : Nat) (cs : List Char) : motive position cs := by
  induction hn : cs.length using Nat.strong_induction_on generalizing position cs with
  | _ n ih =>
    subst hn
    rcases cs with - | ⟨c, cs⟩
    · exact nil position
    have hrest : ∀ position', motive position' cs := fun position' ↦
      ih cs.length (Nat.lt_succ_self _) position' cs rfl
    rcases hblank : Text.isBlank c with - | -
    · rcases hletter : isLetter c with - | -
      · rcases hmark : ofMark? c with - | t
        · have hunknown : belongs c = false := by
            rw [belongs, hblank, hletter]
            unfold ofMark? at hmark
            split at hmark
            case h_6 => simp_all
            all_goals cases hmark
          exact unknown position c cs hunknown (hrest _)
        · exact mark position c cs t hmark (hrest _)
      · have hshorter : (cs.dropWhile isLetter).length < (c :: cs).length :=
          Nat.lt_succ_of_le (length_dropWhile_le isLetter cs)
        exact letter position c cs hletter (ih _ hshorter _ _ rfl)
    · exact blank position c cs hblank (hrest _)

/-! ### Spelled texts are scanned -/

theorem scanFrom_blanks {gap : List Char} (h : IsBlankRun gap) (position : Nat)
    (cs : List Char) :
    ∃ position', scanFrom position (gap ++ cs) = scanFrom position' cs := by
  induction gap generalizing position with
  | nil => exact ⟨position, rfl⟩
  | cons c gap ih =>
    obtain ⟨hc, hgap⟩ := List.forall_mem_cons.1 h
    obtain ⟨position', hrest⟩ := ih hgap (position + c.utf8Size)
    exact ⟨position', by rw [List.cons_append, scanFrom_blank hc, hrest]⟩

/-- No letter stands right behind a name in a spelling. -/
theorem head?_of_spelled {x : Name} {ts : List Token} {gap cs : List Char}
    (hgap : IsBlankRun gap) (hapart : MeetsName (ident x) ts → gap ≠ []) (h : Spelled ts cs) :
    ∀ c ∈ (gap ++ cs).head?, isLetter c = false := by
  rcases gap with - | ⟨d, gap⟩
  · cases h with
    | nil => exact fun c hc ↦ nomatch hc
    | @cons t ts word gap cs hword hgap _ h =>
      have ht : ∀ y, t ≠ ident y := by
        rintro y rfl
        exact hapart trivial rfl
      obtain ⟨d, rfl, hd⟩ := exists_ofMark? ht hword
      intro c hc
      obtain rfl : d = c := Option.some.inj hc
      exact isLetter_eq_false_of_ofMark? hd
  · intro c hc
    obtain rfl : d = c := Option.some.inj hc
    exact isLetter_eq_false_of_isBlank (hgap d List.mem_cons_self)

theorem scanFrom_of_spelled {ts : List Token} {cs : List Char} (h : Spelled ts cs)
    (hwords : ∀ x, ident x ∈ ts → IsWord x) (position : Nat) :
    scanFrom position cs = ts.map .ok := by
  induction h generalizing position with
  | nil => rw [scanFrom_nil, List.map_nil]
  | @cons t ts word gap cs hword hgap hapart h ih =>
    have hitem : ∃ position', scanFrom position (word ++ (gap ++ cs)) =
        .ok t :: scanFrom position' (gap ++ cs) := by
      cases t with
      | ident x =>
        obtain rfl := List.mem_singleton.1 hword
        exact ⟨_, scanFrom_word (hwords x List.mem_cons_self) (head?_of_spelled hgap hapart h) _⟩
      | _ =>
        obtain ⟨c, rfl, hc⟩ := exists_ofMark? (by rintro x ⟨⟩) hword
        exact ⟨_, scanFrom_mark hc position (gap ++ cs)⟩
    obtain ⟨p, hp⟩ := hitem
    obtain ⟨q, hq⟩ := scanFrom_blanks hgap p cs
    rw [List.append_assoc, hp, hq, ih (fun x hx ↦ hwords x (List.mem_cons_of_mem t hx)),
      List.map_cons]

/-! ### Scanned texts are spelled -/

/-- Where no letter follows, the next name has a blank in front of it. -/
theorem gap_ne_nil_of_meetsName {x : Name} {ts : List Token} {gap body : List Char}
    (hhead : ∀ c ∈ (gap ++ body).head?, isLetter c = false) (hbody : Spelled ts body)
    (hwords : ∀ y, ident y ∈ ts → IsWord y) (hmeets : MeetsName (ident x) ts) : gap ≠ [] := by
  rintro rfl
  cases hbody with
  | nil => exact hmeets
  | @cons t ts word gap cs hword _ _ _ =>
    cases t with
    | ident y =>
      obtain rfl := List.mem_singleton.1 hword
      obtain ⟨hne, hletters⟩ := hwords y List.mem_cons_self
      obtain ⟨c, cs', hy⟩ := List.exists_cons_of_ne_nil hne
      have hy' : (ident y).text.toList = c :: cs' := hy
      have hletter : isLetter c = true := hletters c (hy ▸ List.mem_cons_self)
      rw [hy'] at hhead
      rw [hhead c rfl] at hletter
      cases hletter
    | _ => exact hmeets

theorem head?_dropWhile_isLetter (cs : List Char) :
    ∀ c ∈ (cs.dropWhile isLetter).head?, isLetter c = false := by
  intro c hc
  have hnot := List.head?_dropWhile_not isLetter cs
  rwa [Option.mem_def.1 hc] at hnot

/-- What is scanned without an error is a spelling of its tokens, behind some blanks. -/
theorem spelled_of_scanFrom {position : Nat} {cs : List Char} {ts : List Token}
    (h : scanFrom position cs = ts.map .ok) :
    ∃ gap body, IsBlankRun gap ∧ Spelled ts body ∧ cs = gap ++ body := by
  induction position, cs using scanFrom_induction generalizing ts with
  | nil position =>
    rw [scanFrom_nil] at h
    obtain rfl : ts = [] := List.map_eq_nil_iff.1 h.symm
    exact ⟨[], [], List.forall_mem_nil _, .nil, rfl⟩
  | blank position c cs hblank ih =>
    rw [scanFrom_blank hblank] at h
    obtain ⟨gap, body, hgap, hbody, rfl⟩ := ih h
    exact ⟨c :: gap, body, List.forall_mem_cons.2 ⟨hblank, hgap⟩, hbody, rfl⟩
  | letter position c cs hletter ih =>
    rw [scanFrom_letter hletter] at h
    obtain ⟨t, us, rfl, ht, hus⟩ := List.map_eq_cons_iff.1 h.symm
    obtain rfl : t = ident (String.ofList (c :: cs.takeWhile isLetter)) := Except.ok.inj ht
    obtain ⟨gap, body, hgap, hbody, hrest⟩ := ih hus.symm
    have hwords : ∀ y, ident y ∈ us → IsWord y := by
      intro y hy
      have hitem : .ok (ident y) ∈ (us.map .ok : List Item) := List.mem_map_of_mem hy
      rw [hus] at hitem
      exact isWord_of_mem_scanFrom hitem
    have hhead := head?_dropWhile_isLetter cs
    rw [hrest] at hhead
    refine ⟨[], (c :: cs.takeWhile isLetter) ++ gap ++ body, List.forall_mem_nil _,
      .cons ?_ hgap (gap_ne_nil_of_meetsName hhead hbody hwords) hbody, ?_⟩
    · simp [spellings, text]
    · rw [List.nil_append, List.append_assoc, ← hrest, List.cons_append,
        List.takeWhile_append_dropWhile]
  | mark position c cs t hmark ih =>
    rw [scanFrom_mark hmark] at h
    obtain ⟨u, us, rfl, hu, hus⟩ := List.map_eq_cons_iff.1 h.symm
    obtain rfl : u = t := Except.ok.inj hu
    obtain ⟨gap, body, hgap, hbody, rfl⟩ := ih hus.symm
    refine ⟨[], [c] ++ gap ++ body, List.forall_mem_nil _,
      .cons (mem_spellings_of_ofMark? hmark) hgap ?_ hbody, by simp⟩
    intro hmeets
    cases u with
    | ident x => exact absurd hmark (ofMark?_ne_ident c x)
    | _ => exact absurd hmeets id
  | unknown position c cs hunknown ih =>
    rw [scanFrom_unknown hunknown] at h
    obtain ⟨t, us, rfl, ht, -⟩ := List.map_eq_cons_iff.1 h.symm
    cases ht

/-! ### Positions -/

theorem utf8ByteSize_ofList_cons (c : Char) (cs : List Char) :
    (String.ofList (c :: cs)).utf8ByteSize = c.utf8Size + (String.ofList cs).utf8ByteSize := by
  rw [← List.singleton_append, String.ofList_append, String.utf8ByteSize_append,
    ← String.singleton_eq_ofList, String.utf8ByteSize_singleton]

/-- A letter takes up one byte. -/
theorem utf8Size_of_isLetter {c : Char} (h : isLetter c = true) : c.utf8Size = 1 := by
  have hrange := toNat_of_isLetter h
  rw [Char.utf8Size_eq_one_iff, UInt32.le_iff_toNat_le]
  show c.toNat ≤ 127
  omega

theorem utf8ByteSize_ofList_takeWhile (cs : List Char) :
    (String.ofList (cs.takeWhile isLetter)).utf8ByteSize = (cs.takeWhile isLetter).length := by
  induction cs with
  | nil => rfl
  | cons c cs ih =>
    rcases hc : isLetter c with - | -
    · simp [hc]
    · rw [List.takeWhile_cons_of_pos hc, utf8ByteSize_ofList_cons, utf8Size_of_isLetter hc, ih,
        List.length_cons, Nat.add_comm]

theorem takeWhile_append_of_head? {ds : List Char} (h : ∀ c ∈ ds.head?, isLetter c = false)
    (cs : List Char) :
    (cs ++ ds).takeWhile isLetter = cs.takeWhile isLetter ∧
      (cs ++ ds).dropWhile isLetter = cs.dropWhile isLetter ++ ds := by
  induction cs with
  | nil =>
    rcases ds with - | ⟨d, ds⟩
    · exact ⟨rfl, rfl⟩
    · have hd := h d rfl
      simp [hd]
  | cons c cs ih =>
    rcases hc : isLetter c with - | -
    · simp [hc]
    · simp [hc, ih]

/-- In front of anything but a letter a text can be cut: the items of the parts are the items of
the whole, the second part having its own position. -/
theorem scanFrom_append {ds : List Char} (hds : ∀ c ∈ ds.head?, isLetter c = false)
    (position : Nat) (cs : List Char) :
    scanFrom position (cs ++ ds) =
      scanFrom position cs ++ scanFrom (position + (String.ofList cs).utf8ByteSize) ds := by
  induction position, cs using scanFrom_induction with
  | nil position => simp [scanFrom_nil]
  | blank position c cs hblank ih =>
    rw [List.cons_append, scanFrom_blank hblank, scanFrom_blank hblank, ih,
      utf8ByteSize_ofList_cons, Nat.add_assoc]
  | letter position c cs hletter ih =>
    obtain ⟨htake, hdrop⟩ := takeWhile_append_of_head? hds cs
    have hsize : (String.ofList (c :: cs)).utf8ByteSize = (c :: cs.takeWhile isLetter).length +
        (String.ofList (cs.dropWhile isLetter)).utf8ByteSize := by
      have hword := utf8ByteSize_ofList_takeWhile (c :: cs)
      rw [List.takeWhile_cons_of_pos hletter] at hword
      rw [← hword, ← String.utf8ByteSize_append, ← String.ofList_append, List.cons_append,
        List.takeWhile_append_dropWhile]
    rw [List.cons_append, scanFrom_letter hletter, scanFrom_letter hletter, htake, hdrop, ih,
      List.cons_append, hsize, Nat.add_assoc]
  | mark position c cs t hmark ih =>
    rw [List.cons_append, scanFrom_mark hmark, scanFrom_mark hmark, ih, List.cons_append,
      utf8ByteSize_ofList_cons, Nat.add_assoc]
  | unknown position c cs hunknown ih =>
    rw [List.cons_append, scanFrom_unknown hunknown, scanFrom_unknown hunknown, ih,
      List.cons_append, utf8ByteSize_ofList_cons, Nat.add_assoc]

/-- A text of the right characters is scanned without an error. -/
theorem exists_scanFrom_eq_map {cs : List Char} (h : ∀ c ∈ cs, belongs c = true)
    (position : Nat) : ∃ ts : List Token, scanFrom position cs = ts.map .ok := by
  induction position, cs using scanFrom_induction with
  | nil position => exact ⟨[], scanFrom_nil position⟩
  | blank position c cs hblank ih =>
    obtain ⟨ts, hts⟩ := ih (List.forall_mem_cons.1 h).2
    exact ⟨ts, by rw [scanFrom_blank hblank, hts]⟩
  | letter position c cs hletter ih =>
    obtain ⟨ts, hts⟩ := ih fun d hd ↦
      (List.forall_mem_cons.1 h).2 d ((List.dropWhile_sublist isLetter).mem hd)
    exact ⟨_ :: ts, by rw [scanFrom_letter hletter, hts, List.map_cons]⟩
  | mark position c cs t hmark ih =>
    obtain ⟨ts, hts⟩ := ih (List.forall_mem_cons.1 h).2
    exact ⟨t :: ts, by rw [scanFrom_mark hmark, hts, List.map_cons]⟩
  | unknown position c cs hunknown ih =>
    have hc := (List.forall_mem_cons.1 h).1
    rw [hunknown] at hc
    cases hc

theorem mapM_id_append_error (ts : List Token) (fault : ScanError) (items : List Item) :
    ((ts.map .ok : List Item) ++ .error fault :: items).mapM id = .error fault := by
  induction ts with
  | nil => simp [bind, Except.bind]
  | cons t ts ih => simp [ih, bind, Except.bind]

/-- The first character that belongs to no spelling is the error. -/
theorem tokenize_eq_error {text : String} {before after : List Char} {c : Char}
    (htext : text.toList = before ++ c :: after) (hbefore : ∀ d ∈ before, belongs d = true)
    (hc : belongs c = false) :
    tokenize text = .error ⟨c, (String.ofList before).utf8ByteSize⟩ := by
  have hhead : ∀ d ∈ (c :: after).head?, isLetter d = false := by
    rintro d ⟨⟩
    exact (not_belongs hc).2
  obtain ⟨ts, hts⟩ := exists_scanFrom_eq_map hbefore 0
  rw [tokenize, scan, htext, scanFrom_append hhead, hts, scanFrom_unknown hc, Nat.zero_add,
    mapM_id_append_error]

/-- **Which texts are scanned, and as what.** A text is scanned as a list of tokens if and only if
the names among them are words and the text spells the tokens, behind some blanks. The error is
`c` at byte `position` if and only if `c` is the first character of the text that is no blank, no
letter and none of the five marks, and `position` is the number of bytes before it. -/
theorem tokenize_spec (text : String) :
    (∀ ts, tokenize text = .ok ts ↔
      (∀ x, ident x ∈ ts → IsWord x) ∧
      ∃ gap body, IsBlankRun gap ∧ Spelled ts body ∧ text.toList = gap ++ body) ∧
    ∀ c position, tokenize text = .error ⟨c, position⟩ ↔
      ∃ before after, text.toList = before ++ c :: after ∧ (∀ d ∈ before, belongs d = true) ∧
        belongs c = false ∧ position = (String.ofList before).utf8ByteSize := by
  refine ⟨fun ts ↦ ⟨fun h ↦ ?_, ?_⟩, fun c position ↦ ⟨fun h ↦ ?_, ?_⟩⟩
  · exact ⟨fun x hx ↦ isWord_of_tokenize h hx, spelled_of_scanFrom (eq_map_of_mapM_id h)⟩
  · rintro ⟨hwords, gap, body, hgap, hbody, htext⟩
    obtain ⟨position, hscan⟩ := scanFrom_blanks hgap 0 body
    rw [tokenize, scan, htext, hscan, scanFrom_of_spelled hbody hwords, mapM_id_map_ok]
  · have hsplit := List.takeWhile_append_dropWhile (p := belongs) (l := text.toList)
    rcases hdrop : text.toList.dropWhile belongs with - | ⟨d, after⟩
    · -- every character belongs to a spelling, so there is no error
      have hall : ∀ d ∈ text.toList, belongs d = true := List.dropWhile_eq_nil_iff.1 hdrop
      obtain ⟨ts, hts⟩ := exists_scanFrom_eq_map hall 0
      rw [tokenize, scan, hts, mapM_id_map_ok] at h
      cases h
    · have hd : belongs d = false := by
        have hnot := List.head?_dropWhile_not belongs text.toList
        rwa [hdrop] at hnot
      have hbefore : ∀ d ∈ text.toList.takeWhile belongs, belongs d = true := fun d hd ↦
        List.mem_takeWhile_imp hd
      rw [hdrop] at hsplit
      rw [tokenize_eq_error hsplit.symm hbefore hd] at h
      obtain ⟨rfl, rfl⟩ := ScanError.mk.inj (Except.error.inj h)
      exact ⟨_, after, hsplit.symm, hbefore, hd, rfl⟩
  · rintro ⟨before, after, htext, hbefore, hc, rfl⟩
    exact tokenize_eq_error htext hbefore hc

end Token

end UntypedLambda
