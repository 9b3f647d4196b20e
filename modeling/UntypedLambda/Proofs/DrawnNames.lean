import UntypedLambda.Proofs.ReadNames

/-!
# Fresh names never repeat

A supply hands out one name for each draw. Whatever the names are that it draws for, no two of the
names that it hands out are equal, and none of them can be read from a text.

* `drawAll_eq`: the names are known beforehand. Draw number `i` gets the stem of its own base and
  the number at which the supply stands, plus `i`; nothing else of the bases is looked at.
* `nodup_drawAll`: so two draws have different numbers, and the number can be read off a name
  (`numbered_inj`). The stems need not differ, and a base may even be the very name that is drawn
  for it.
* `count_prime_numbered`: the stem ends before the first `'`, and there is none among the digits, so
  the `'` between them is the only one. What is read has none (`IsWord.unprimed`).
-/

namespace UntypedLambda

namespace Supply

/-! ### One draw -/

theorem prime_notMem_toDigits (k : Nat) : '\'' ∉ Nat.toDigits 10 k := by
  intro h
  have hdigit := Nat.isDigit_of_mem_toDigits (by decide) (by decide) h
  revert hdigit
  decide

/-- A fresh name has one `'`. -/
theorem count_prime_numbered (y : Name) (k : Nat) : (numbered y k).toList.count '\'' = 1 := by
  have hstem : (stem y).toList.count '\'' = 0 := List.count_eq_zero_of_not_mem (unprimed_stem y)
  have hdigits : (Nat.toDigits 10 k).count '\'' = 0 :=
    List.count_eq_zero_of_not_mem (prime_notMem_toDigits k)
  rw [toList_numbered, List.count_append, List.count_cons_self, hstem, hdigits]

/-- A fresh name is no word, so the scanner does not make an identifier of it. -/
theorem not_isWord_numbered (y : Name) (k : Nat) : ¬ Token.IsWord (numbered y k) := by
  intro h
  refine h.unprimed (List.count_pos_iff.1 ?_)
  rw [count_prime_numbered]
  exact Nat.one_pos

/-! ### A sequence of draws -/

/-- The stem of a drawn name is that of its base, and the numbers go up by one. -/
theorem drawAll_eq (s : Supply) (bases : List Name) :
    s.drawAll bases =
      (bases.mapIdx fun i base ↦ numbered base (s.next + i),
        { s with next := s.next + bases.length }) := by
  induction bases generalizing s with
  | nil => rfl
  | cons base bases ih =>
    rw [drawAll, ih, List.mapIdx_cons]
    simp only [fresh, advance, List.length_cons, Nat.add_zero, Nat.add_assoc, Nat.add_comm 1]

theorem exists_numbered_of_mem_drawAll {s : Supply} {bases : List Name} {x : Name}
    (h : x ∈ (s.drawAll bases).1) : ∃ base k, x = numbered base k := by
  rw [drawAll_eq] at h
  obtain ⟨i, hi, rfl⟩ := List.mem_mapIdx.1 h
  exact ⟨bases[i], s.next + i, rfl⟩

/-- No two draws return the same name. -/
theorem nodup_drawAll (s : Supply) (bases : List Name) : (s.drawAll bases).1.Nodup := by
  rw [drawAll_eq, List.Nodup, List.pairwise_iff_getElem]
  intro i j hi hj hij heq
  rw [List.getElem_mapIdx, List.getElem_mapIdx] at heq
  obtain ⟨-, hnumber⟩ := numbered_inj heq
  omega

/-- **Fresh names never repeat and never look like names that are read.** Let a supply, wherever it
stands, draw one name for each of any number of bases, with any characters in them. Each draw gets
the stem of its base, a `'`, and the next number. The names drawn are pairwise distinct, each of
them has exactly one `'`, and none of them is an identifier among the tokens of a text, nor among
the items of a text that has characters which belong to no token. -/
theorem drawn_names_never_repeat (s : Supply) (bases : List Name) :
    s.drawAll bases =
      (bases.mapIdx fun i base ↦ stem base ++ "'" ++ toString (s.next + i),
        { s with next := s.next + bases.length }) ∧
    (s.drawAll bases).1.Nodup ∧
    ∀ x ∈ (s.drawAll bases).1,
      x.toList.count '\'' = 1 ∧
      ∀ text : String, .ok (.ident x) ∉ Token.scan text ∧
        ∀ ts, Token.tokenize text = .ok ts → Token.ident x ∉ ts := by
  refine ⟨drawAll_eq s bases, nodup_drawAll s bases, fun x hx ↦ ?_⟩
  obtain ⟨base, k, rfl⟩ := exists_numbered_of_mem_drawAll hx
  refine ⟨count_prime_numbered base k, fun text ↦ ⟨fun hitem ↦ ?_, fun ts hts hident ↦ ?_⟩⟩
  · exact not_isWord_numbered base k (Token.isWord_of_mem_scanFrom hitem)
  · exact not_isWord_numbered base k (Token.isWord_of_tokenize hts hident)

/-- The first base has an empty stem, the second is the very name that is drawn for it, and the
third has the same stem again. -/
theorem drawn_names_never_repeat_fresh_bases :
    ({ next := 9 } : Supply).drawAll ["'", "x'10", "x"] = (["'9", "x'10", "x'11"], { next := 12 }) ∧
    ["'9", "x'10", "x'11"].Nodup ∧
    "x'10" ∈ ["'9", "x'10", "x'11"] ∧
    "x'10".toList.count '\'' = 1 ∧
    Token.tokenize "λx. y" = .ok [.lambda, .ident "x", .dot, .ident "y"] ∧
    Token.ident "x'10" ∉ [Token.lambda, .ident "x", .dot, .ident "y"] := by
  obtain ⟨hdraws, hnodup, hnew⟩ :=
    drawn_names_never_repeat { next := 9 } ["'", "x'10", "x"]
  have hnames : ({ next := 9 } : Supply).drawAll ["'", "x'10", "x"] =
      (["'9", "x'10", "x'11"], { next := 12 }) := hdraws.trans (by decide +kernel)
  have htokens : Token.tokenize "λx. y" = .ok [.lambda, .ident "x", .dot, .ident "y"] := by
    decide +kernel
  have hmem : "x'10" ∈ ["'9", "x'10", "x'11"] := by decide
  rw [hnames] at hnodup hnew
  obtain ⟨hcount, hunread⟩ := hnew "x'10" hmem
  exact ⟨hnames, hnodup, hmem, hcount, htokens, (hunread "λx. y").2 _ htokens⟩

end Supply

end UntypedLambda
