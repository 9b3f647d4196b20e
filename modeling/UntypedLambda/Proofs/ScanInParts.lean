import Mathlib.Algebra.BigOperators.Group.List.Basic
import Mathlib.Data.List.DropRight
import UntypedLambda.Proofs.Spelling

/-!
# Scanning a text in parts

A text can be scanned in two parts, and what is found in the second one is found where it stands in
the whole: each error lies further back by the bytes of the first part (`scan_append_of_apart`).
Only one thing can go wrong. A cut between two letters cuts a word, and its halves are scanned as
two names; they have to be put together again, and all other items are as before
(`scan_append_of_words_meet`). So the items of a text are known from those of its parts, wherever it
is cut and whatever is wrong with it (`scan_in_parts`).

* The cut in front of no letter is `scanFrom_append`. The cut behind no letter is the same law used
  twice, one character earlier: what is no letter is scanned without a look at what follows it
  (`scanFrom_cons_of_not_isLetter`).
* A cut in a word is undone by cuts at its two ends, which lie between a letter and none.
* That nothing is left out does not follow from the cuts. The items spell the text character by
  character, blanks apart (`flatMap_characters_scanFrom`).
-/

namespace UntypedLambda

namespace Token

/-! ### Items further back -/

/-- The item as it is found behind `bytes` more bytes. -/
def Item.movedBy (bytes : Nat) : Item → Item :=
  Except.mapError fun fault ↦ { fault with position := fault.position + bytes }

theorem Item.movedBy_movedBy (bytes bytes' : Nat) (item : Item) :
    (item.movedBy bytes).movedBy bytes' = item.movedBy (bytes + bytes') := by
  rcases item with fault | t
  · simp [movedBy, Except.mapError, Nat.add_assoc]
  · rfl

/-- The items of a text that starts further back are the same, further back. -/
theorem scanFrom_add (position bytes : Nat) (cs : List Char) :
    scanFrom (position + bytes) cs = (scanFrom position cs).map (Item.movedBy bytes) := by
  induction position, cs using scanFrom_induction with
  | nil position => simp [scanFrom_nil]
  | blank position c cs hblank ih =>
    rw [scanFrom_blank hblank, scanFrom_blank hblank, Nat.add_right_comm, ih]
  | letter position c cs hletter ih =>
    rw [scanFrom_letter hletter, scanFrom_letter hletter, Nat.add_right_comm, ih]
    rfl
  | mark position c cs t hmark ih =>
    rw [scanFrom_mark hmark, scanFrom_mark hmark, Nat.add_right_comm, ih]
    rfl
  | unknown position c cs hunknown ih =>
    rw [scanFrom_unknown hunknown, scanFrom_unknown hunknown, Nat.add_right_comm, ih]
    rfl

/-! ### Cuts outside of words -/

/-- Whether the last character of a text is a letter. -/
def endsInLetter (text : String) : Bool := text.toList.getLast?.any isLetter

/-- Whether the first character of a text is a letter. -/
def startsWithLetter (text : String) : Bool := text.toList.head?.any isLetter

/-- What is no letter is scanned without a look at what follows it. -/
theorem scanFrom_cons_of_not_isLetter {c : Char} (h : isLetter c = false) (position : Nat)
    (cs : List Char) :
    scanFrom position (c :: cs) =
      scanFrom position [c] ++ scanFrom (position + c.utf8Size) cs := by
  rw [scanFrom_cons, scanFrom_cons position c [], h]
  rcases Text.isBlank c with - | - <;> simp [scanFrom_nil]

/-- Behind anything but a letter a text can be cut, too. -/
theorem scanFrom_append_of_getLast? {cs : List Char} (h : cs.getLast?.any isLetter = false)
    (position : Nat) (ds : List Char) :
    scanFrom position (cs ++ ds) =
      scanFrom position cs ++ scanFrom (position + (String.ofList cs).utf8ByteSize) ds := by
  rcases List.eq_nil_or_concat' cs with rfl | ⟨front, c, rfl⟩
  · simp [scanFrom_nil]
  · have hc : isLetter c = false := by simpa using h
    have hhead (rest : List Char) : ∀ d ∈ (c :: rest).head?, isLetter d = false := by
      rintro d ⟨⟩
      exact hc
    -- both sides are cut in front of `c`, behind which `ds` stands on the left alone
    rw [List.append_assoc, List.singleton_append, scanFrom_append (hhead ds),
      scanFrom_append (hhead []), scanFrom_cons_of_not_isLetter hc _ ds, List.append_assoc,
      String.ofList_append, String.utf8ByteSize_append, ← String.singleton_eq_ofList,
      String.utf8ByteSize_singleton, Nat.add_assoc]

/-- A text can be cut where no letters stand on both sides. -/
theorem scan_append_of_apart {s t : String}
    (h : endsInLetter s = false ∨ startsWithLetter t = false) :
    scan (s ++ t) = scan s ++ (scan t).map (Item.movedBy s.utf8ByteSize) := by
  have hcut : scanFrom 0 (s.toList ++ t.toList) =
      scanFrom 0 s.toList ++ scanFrom (0 + (String.ofList s.toList).utf8ByteSize) t.toList := by
    rcases h with hs | ht
    · exact scanFrom_append_of_getLast? hs 0 t.toList
    · refine scanFrom_append (fun c hc ↦ ?_) 0 s.toList
      rwa [startsWithLetter, Option.mem_def.1 hc] at ht
  rw [scan, String.toList_append, hcut, String.ofList_toList, scanFrom_add]
  rfl

/-! ### Cuts in words -/

theorem IsWord.append {x y : Name} (hx : IsWord x) (hy : IsWord y) : IsWord (x ++ y) := by
  rw [IsWord, String.toList_append]
  exact ⟨by simp [hx.1], List.forall_mem_append.2 ⟨hx.2, hy.2⟩⟩

theorem scan_word {x : Name} (hx : IsWord x) : scan x = [.ok (ident x)] := by
  have hend : ∀ c ∈ ([] : List Char).head?, isLetter c = false := fun c hc ↦ nomatch hc
  have hscan := scanFrom_word hx hend 0
  rwa [List.append_nil, scanFrom_nil] at hscan

theorem any_head?_dropWhile (cs : List Char) :
    (cs.dropWhile isLetter).head?.any isLetter = false := by
  rcases hhead : (cs.dropWhile isLetter).head? with - | c
  · rfl
  · exact head?_dropWhile_isLetter cs c hhead

theorem takeWhile_ne_nil {cs : List Char} (h : cs.head?.any isLetter = true) :
    cs.takeWhile isLetter ≠ [] := by
  rcases cs with - | ⟨c, cs⟩
  · exact absurd h Bool.false_ne_true
  · have hc : isLetter c = true := h
    simp [hc]

/-- A text that starts with a letter starts with a word, behind which no letter stands. -/
theorem exists_word_append {t : String} (h : startsWithLetter t = true) :
    ∃ y rest, IsWord y ∧ startsWithLetter rest = false ∧ t = y ++ rest := by
  refine ⟨String.ofList (t.toList.takeWhile isLetter), String.ofList (t.toList.dropWhile isLetter),
    ⟨?_, ?_⟩, ?_, ?_⟩
  · rw [String.toList_ofList]
    exact takeWhile_ne_nil h
  · rw [String.toList_ofList]
    exact fun c hc ↦ List.mem_takeWhile_imp hc
  · rw [startsWithLetter, String.toList_ofList]
    exact any_head?_dropWhile t.toList
  · rw [← String.ofList_append, List.takeWhile_append_dropWhile, String.ofList_toList]

/-- A text that ends in a letter ends in a word, before which no letter stands. -/
theorem exists_append_word {s : String} (h : endsInLetter s = true) :
    ∃ front x, IsWord x ∧ endsInLetter front = false ∧ s = front ++ x := by
  refine ⟨String.ofList (s.toList.rdropWhile isLetter),
    String.ofList (s.toList.rtakeWhile isLetter), ⟨?_, ?_⟩, ?_, ?_⟩
  · rw [String.toList_ofList, List.rtakeWhile, Ne, List.reverse_eq_nil_iff]
    refine takeWhile_ne_nil ?_
    rwa [List.head?_reverse]
  · rw [String.toList_ofList]
    exact fun c hc ↦ List.mem_rtakeWhile_imp hc
  · rw [endsInLetter, String.toList_ofList, List.rdropWhile, List.getLast?_reverse]
    exact any_head?_dropWhile s.toList.reverse
  · rw [← String.ofList_append, List.rdropWhile_append_rtakeWhile, String.ofList_toList]

/-- Where a cut goes through a word, its two halves are one name again and all else is as it was. -/
theorem scan_append_of_words_meet {s t : String} (hs : endsInLetter s = true)
    (ht : startsWithLetter t = true) :
    ∃ front x y rest, scan s = front ++ [.ok (ident x)] ∧ scan t = .ok (ident y) :: rest ∧
      scan (s ++ t) =
        front ++ .ok (ident (x ++ y)) :: rest.map (Item.movedBy s.utf8ByteSize) := by
  obtain ⟨front, x, hx, hfront, rfl⟩ := exists_append_word hs
  obtain ⟨y, rest, hy, hrest, rfl⟩ := exists_word_append ht
  have hword {z : Name} (hz : IsWord z) : scan (front ++ z) = scan front ++ [.ok (ident z)] := by
    rw [scan_append_of_apart (.inl hfront), scan_word hz]
    rfl
  refine ⟨scan front, x, y, (scan rest).map (Item.movedBy y.utf8ByteSize), hword hx, ?_, ?_⟩
  · rw [scan_append_of_apart (.inr hrest), scan_word hy]
    rfl
  · -- the cut between `x` and `y` is given up for the cuts before `x` and behind `y`
    have hwhole : front ++ x ++ (y ++ rest) = front ++ (x ++ y) ++ rest := by
      simp only [String.append_assoc]
    rw [hwhole, scan_append_of_apart (.inr hrest), hword (hx.append hy), List.map_map,
      List.append_assoc, List.singleton_append]
    congr 3
    funext item
    rw [Function.comp_apply, Item.movedBy_movedBy, ← String.append_assoc,
      String.utf8ByteSize_append, Nat.add_comm]

/-! ### What the items spell -/

/-- The characters of an item. -/
def Item.characters : Item → List Char
  | .ok t => t.text.toList
  | .error fault => [fault.character]

/-- A backslash is read as `λ`. -/
def readAs (c : Char) : Char := if c = '\\' then 'λ' else c

/-- The characters of a text that are no blanks, a backslash read as `λ`. -/
def significant (cs : List Char) : List Char := (cs.filter (!Text.isBlank ·)).map readAs

theorem significant_append (cs ds : List Char) :
    significant (cs ++ ds) = significant cs ++ significant ds := by
  rw [significant, List.filter_append, List.map_append]
  rfl

theorem significant_letters {cs : List Char} (h : ∀ c ∈ cs, isLetter c = true) :
    significant cs = cs := by
  have hfilter : cs.filter (!Text.isBlank ·) = cs :=
    List.filter_eq_self.2 fun c hc ↦ by rw [isBlank_eq_false_of_isLetter (h c hc)]; rfl
  have hread : ∀ c ∈ cs, readAs c = id c := by
    intro c hc
    refine if_neg ?_
    rintro rfl
    exact absurd (h _ hc) (by decide)
  rw [significant, hfilter, List.map_congr_left hread, List.map_id]

theorem significant_mark {c : Char} {t : Token} (h : ofMark? c = some t) :
    significant [c] = t.text.toList := by
  unfold ofMark? at h
  split at h
  case h_6 => cases h
  all_goals
    obtain rfl := Option.some.inj h
    decide

theorem significant_unknown {c : Char} (h : belongs c = false) : significant [c] = [c] := by
  have hc : c ≠ '\\' := by
    rintro rfl
    exact absurd h (by decide)
  simp [significant, (not_belongs h).1, readAs, hc]

/-- The items one behind the other spell the text without its blanks. -/
theorem flatMap_characters_scanFrom (position : Nat) (cs : List Char) :
    (scanFrom position cs).flatMap Item.characters = significant cs := by
  induction position, cs using scanFrom_induction with
  | nil position => simp [scanFrom_nil, significant]
  | blank position c cs hblank ih => simp [scanFrom_blank hblank, ih, significant, hblank]
  | letter position c cs hletter ih =>
    have hword : ∀ d ∈ c :: cs.takeWhile isLetter, isLetter d = true :=
      List.forall_mem_cons.2 ⟨hletter, fun d hd ↦ List.mem_takeWhile_imp hd⟩
    have hcut : c :: cs = (c :: cs.takeWhile isLetter) ++ cs.dropWhile isLetter := by
      rw [List.cons_append, List.takeWhile_append_dropWhile]
    rw [scanFrom_letter hletter, List.flatMap_cons, ih, hcut, significant_append,
      significant_letters hword]
    simp [Item.characters, text]
  | mark position c cs t hmark ih =>
    rw [scanFrom_mark hmark, List.flatMap_cons, ih, ← List.singleton_append, significant_append,
      significant_mark hmark]
    rfl
  | unknown position c cs hunknown ih =>
    rw [scanFrom_unknown hunknown, List.flatMap_cons, ih, ← List.singleton_append,
      significant_append, significant_unknown hunknown]
    rfl

/-- No item is without characters. -/
theorem characters_ne_nil {position : Nat} {cs : List Char} {item : Item}
    (h : item ∈ scanFrom position cs) : item.characters ≠ [] := by
  rcases item with fault | t
  · exact List.cons_ne_nil _ _
  · cases t with
    | ident x => exact (isWord_of_mem_scanFrom h).1
    | _ => exact List.cons_ne_nil _ _

/-- There are no more items than there are characters, blanks apart. -/
theorem length_scanFrom_le (position : Nat) (cs : List Char) :
    (scanFrom position cs).length ≤ (significant cs).length := by
  rw [← flatMap_characters_scanFrom position cs, List.length_flatMap]
  calc (scanFrom position cs).length
      = ((scanFrom position cs).map fun item ↦ item.characters.length).length := by
        rw [List.length_map]
    _ ≤ ((scanFrom position cs).map fun item ↦ item.characters.length).sum := by
        refine List.length_le_sum_of_one_le _ fun n hn ↦ ?_
        obtain ⟨item, hitem, rfl⟩ := List.mem_map.1 hn
        exact List.length_pos_of_ne_nil (characters_ne_nil hitem)

/-- **A text is scanned in parts as it is scanned in one.** Cut where no letters stand on both
sides, its items are those of the first part and then those of the second, whose errors lie further
back by the bytes of the first. Cut between two letters, the same holds except that the last item
of the first part and the first one of the second are one name, in which theirs stand one behind the
other. The items come to an end, since there are no more of them than characters, and they spell the
text without its blanks, each backslash as `λ`. -/
theorem scan_in_parts (s t : String) :
    (endsInLetter s = false ∨ startsWithLetter t = false →
      scan (s ++ t) = scan s ++ (scan t).map (Item.movedBy s.utf8ByteSize)) ∧
    (endsInLetter s = true ∧ startsWithLetter t = true →
      ∃ front x y rest, scan s = front ++ [.ok (ident x)] ∧ scan t = .ok (ident y) :: rest ∧
        scan (s ++ t) =
          front ++ .ok (ident (x ++ y)) :: rest.map (Item.movedBy s.utf8ByteSize)) ∧
    (scan (s ++ t)).length ≤ (s ++ t).toList.length ∧
    (scan (s ++ t)).flatMap Item.characters =
      ((s ++ t).toList.filter (!Text.isBlank ·)).map readAs := by
  refine ⟨scan_append_of_apart, fun h ↦ scan_append_of_words_meet h.1 h.2, ?_,
    flatMap_characters_scanFrom 0 (s ++ t).toList⟩
  calc (scan (s ++ t)).length
      ≤ (significant (s ++ t).toList).length := length_scanFrom_le 0 (s ++ t).toList
    _ = ((s ++ t).toList.filter (!Text.isBlank ·)).length := List.length_map readAs
    _ ≤ (s ++ t).toList.length := List.length_filter_le _ _

/-- A cut behind a character that belongs to no token, and a cut in a word between two of them. -/
theorem scan_in_parts_two_cuts :
    (endsInLetter "é\\ =" = false ∧
      scan ("é\\ =" ++ "xé") = scan "é\\ =" ++ [.ok (ident "x"), .error ⟨'é', 6⟩]) ∧
    (endsInLetter "é ab" = true ∧ startsWithLetter "cd=" = true) ∧
    ∃ front x y rest, scan "é ab" = front ++ [.ok (ident x)] ∧
      scan "cd=" = .ok (ident y) :: rest ∧
      scan ("é ab" ++ "cd=") = front ++ .ok (ident (x ++ y)) :: rest.map (Item.movedBy 5) := by
  have hbehind : endsInLetter "é\\ =" = false := by decide +kernel
  have hinside : endsInLetter "é ab" = true ∧ startsWithLetter "cd=" = true := by decide +kernel
  refine ⟨⟨hbehind, ?_⟩, hinside, (scan_in_parts "é ab" "cd=").2.1 hinside⟩
  rw [(scan_in_parts "é\\ =" "xé").1 (.inl hbehind)]
  decide +kernel

end Token

end UntypedLambda
