import UntypedLambda.Expr.Parse
import UntypedLambda.Proofs.SafeName

/-!
# The names that are read

A name of an expression that was read from a text is a run of ASCII letters, at least one of them
(`isWord_of_read`). In particular it has no `'`, so it is safe at every number.

The scanner makes identifiers out of runs of letters only, and the parser takes names from
identifiers only: whatever is a name of the result was an identifier among the tokens, or a name
of the spine that was given (`mem_names_of_parseSpine`).
-/

namespace UntypedLambda

namespace Token

/-- A run of letters, at least one. -/
def IsWord (x : Name) : Prop := x.toList ≠ [] ∧ ∀ c ∈ x.toList, isLetter c = true

theorem ofMark?_ne_ident (c : Char) (x : Name) : ofMark? c ≠ some (.ident x) := by
  unfold ofMark?
  split <;> simp

theorem isWord_of_mem_scanFrom {position : Nat} {cs : List Char} {x : Name}
    (h : .ok (.ident x) ∈ scanFrom position cs) : IsWord x := by
  fun_induction scanFrom position cs with
  | case1 => cases h
  | case2 position c cs hblank ih => exact ih h
  | case3 position c cs hblank hletter word ih =>
    rcases List.mem_cons.1 h with heq | h
    · obtain rfl : x = String.ofList word := by simpa using heq
      rw [IsWord, String.toList_ofList]
      refine ⟨List.cons_ne_nil _ _, fun d hd ↦ ?_⟩
      rcases List.mem_cons.1 hd with rfl | hd
      · exact hletter
      · exact List.mem_takeWhile_imp hd
    · exact ih h
  | case4 position c cs hblank hletter item ih =>
    rcases List.mem_cons.1 h with heq | h
    · rcases hmark : ofMark? c with - | token
      · simp [item, hmark] at heq
      · obtain rfl : .ident x = token := by simpa [item, hmark] using heq
        exact absurd hmark (ofMark?_ne_ident c x)
    · exact ih h

/-- There are tokens only if no item is an error, and then all items are tokens. -/
theorem eq_map_of_mapM_id {items : List Item} {ts : List Token} (h : items.mapM id = .ok ts) :
    items = ts.map .ok := by
  induction items generalizing ts with
  | nil =>
    obtain rfl : ts = [] := by simpa [pure, Except.pure] using h
    rfl
  | cons item items ih =>
    rcases item with fault | token
    · simp [bind, Except.bind] at h
    · rcases hrest : items.mapM id with fault | rest
      · simp [hrest, bind, Except.bind] at h
      · obtain rfl : token :: rest = ts := by
          simpa [hrest, bind, Except.bind, pure, Except.pure] using h
        rw [ih hrest, List.map_cons]

theorem isWord_of_tokenize {text : String} {ts : List Token} {x : Name}
    (h : tokenize text = .ok ts) (hx : .ident x ∈ ts) : IsWord x := by
  have hitem : .ok (.ident x) ∈ scan text := by
    rw [eq_map_of_mapM_id h]
    exact List.mem_map_of_mem hx
  exact isWord_of_mem_scanFrom hitem

theorem IsWord.unprimed {x : Name} (h : IsWord x) : Supply.Unprimed x := by
  intro hprime
  have hletter := h.2 _ hprime
  revert hletter
  decide

end Token

namespace Expr

open Token

theorem names_lams (xs : List Name) (body : Expr) : (lams xs body).names = xs ++ body.names := by
  induction xs with
  | nil => rfl
  | cons x xs ih => rw [lams_cons, names, ih, List.cons_append]

theorem mem_names_applied {spine : Option Expr} {e : Expr} {x : Name}
    (h : x ∈ (applied spine e).names) : (∃ f ∈ spine, x ∈ f.names) ∨ x ∈ e.names := by
  cases spine with
  | none => exact .inr h
  | some f =>
    rcases List.mem_append.1 h with h | h
    · exact .inl ⟨f, rfl, h⟩
    · exact .inr h

/-- The head and the body of an abstraction hold all of its tokens but the dot. -/
theorem append_of_splitHead {ts body : List Token} {xs : List Name}
    (h : splitHead ts = .ok (xs, body)) : ts = xs.map ident ++ dot :: body := by
  have happend := append_splitNames ts
  unfold splitHead at h
  split at h
  · cases h
  · next hsplit =>
    cases h
    rw [hsplit] at happend
    exact happend.symm
  · cases h

/-- The names of what is read were identifiers, or names of the spine so far. -/
theorem mem_names_of_parseSpine {spine : Option Expr} {ts : List Token} {e : Expr} {x : Name}
    (h : parseSpine spine ts = .ok e) (hx : x ∈ e.names) :
    (∃ f ∈ spine, x ∈ f.names) ∨ ident x ∈ ts := by
  fun_induction parseSpine spine ts generalizing e with
  | case1 | case4 | case5 | case7 | case8 | case10 | case11 => cases h
  | case2 f =>
    cases h
    exact .inl ⟨f, rfl, hx⟩
  | case3 spine y ts ih =>
    rcases ih h hx with ⟨f, hf, hxf⟩ | hts
    · obtain rfl := Option.some.inj hf
      rcases mem_names_applied hxf with hspine | hy
      · exact .inl hspine
      · obtain rfl : x = y := List.mem_singleton.1 hy
        exact .inr List.mem_cons_self
    · exact .inr (List.mem_cons_of_mem _ hts)
  | case6 spine ts inner rest hsplit hlength f hinner ihinner ihrest =>
    have happend := append_of_splitGroup hsplit
    rcases ihrest h hx with ⟨g, hg, hxg⟩ | hrest
    · obtain rfl := Option.some.inj hg
      rcases mem_names_applied hxg with hspine | hxf
      · exact .inl hspine
      · rcases ihinner hinner hxf with ⟨_, hnone, -⟩ | hxinner
        · cases hnone
        · exact .inr (by simp [happend, hxinner])
    · exact .inr (by simp [happend, hrest])
  | case9 spine ts xs body hsplit hlength f hbody ih =>
    have happend := append_of_splitHead hsplit
    cases h
    rcases mem_names_applied hx with hspine | hlams
    · exact .inl hspine
    · rw [names_lams, List.mem_append] at hlams
      rcases hlams with hxs | hxf
      · exact .inr (by simp [happend, hxs])
      · rcases ih hbody hxf with ⟨_, hnone, -⟩ | hxbody
        · cases hnone
        · exact .inr (by simp [happend, hxbody])

theorem parseSpine_of_parse {ts : List Token} {e : Expr} (h : parse ts = .ok e) :
    parseSpine none ts = .ok e := by
  unfold parse at h
  split at h
  · cases h
  · exact h

theorem tokenize_of_read {text : String} {e : Expr} (h : read text = .ok e) :
    ∃ ts, tokenize text = .ok ts ∧ parse ts = .ok e := by
  unfold read at h
  split at h
  · cases h
  · next ts htokens =>
    split at h
    · cases h
    · next f hparse =>
      cases h
      exact ⟨ts, htokens, hparse⟩

/-- Every name that is read is a word. -/
theorem isWord_of_read {text : String} {e : Expr} (h : read text = .ok e) :
    ∀ x ∈ e.names, IsWord x := by
  intro x hx
  obtain ⟨ts, htokens, hparse⟩ := tokenize_of_read h
  rcases mem_names_of_parseSpine (parseSpine_of_parse hparse) hx with ⟨_, hnone, -⟩ | hident
  · cases hnone
  · exact isWord_of_tokenize htokens hident

/-- No name that is read has a `'`. -/
theorem unprimed_of_read {text : String} {e : Expr} (h : read text = .ok e) : e.Unprimed :=
  fun x hx ↦ (isWord_of_read h x hx).unprimed

end Expr

end UntypedLambda
