import Mathlib.Data.List.Basic
import UntypedLambda.Expr.Parse

/-!
# Parentheses

Three questions are asked about the parentheses of a list of tokens: whether they match, where a
group ends, and how many there are of each kind. All three are answered by one number, the depth
that is reached when the list is read from a given depth. What one token does to the depth is said
once (`pass?`): there is no depth behind a closing parenthesis at depth zero, and otherwise the
depth changes by what the token opens or closes (`pass?_eq_some_iff`). Then

* the check before parsing looks at the depth at the end (`checkParens_eq`);
* a group ends at the token that cannot be passed, so its inside is balanced
  (`splitGroup_eq_some_iff`), and if the whole is balanced then so is the rest
  (`Balanced.of_splitGroup`);
* the depth is the difference of the counts (`count_of_depthAfter?`), and it exists as long as no
  part in front closes more than it opens (`depthAfter?_eq_none_iff`).
-/

namespace UntypedLambda

namespace Expr

open Token

/-! ### The depth -/

/-- The number of open groups behind a token, if there are `depth` in front of it. -/
def pass? : Nat → Token → Option Nat
  | depth, openParen => some (depth + 1)
  | 0, closeParen => none
  | depth + 1, closeParen => some depth
  | depth, _ => some depth

/-- The number of open groups behind a list of tokens, if there are `depth` in front of it. -/
def depthAfter? (depth : Nat) (ts : List Token) : Option Nat := ts.foldlM pass? depth

/-- Every group that is opened is closed, and nothing else is closed. -/
def Balanced (ts : List Token) : Prop := depthAfter? 0 ts = some 0

theorem pass?_eq_none_iff {depth : Nat} {t : Token} :
    pass? depth t = none ↔ depth = 0 ∧ t = closeParen := by
  rcases depth with - | depth <;> cases t <;> simp [pass?]

theorem pass?_eq_some_iff {depth depth' : Nat} {t : Token} :
    pass? depth t = some depth' ↔
      depth' + [t].count closeParen = depth + [t].count openParen := by
  rcases depth with - | depth <;> cases t <;> simp [pass?, eq_comm]

/-- Groups that are open around a token stay open behind it. -/
theorem pass?_add {depth depth' : Nat} {t : Token} (h : pass? depth t = some depth') (k : Nat) :
    pass? (depth + k) t = some (depth' + k) := by
  rw [pass?_eq_some_iff] at h ⊢
  omega

theorem depthAfter?_cons (depth : Nat) (t : Token) (ts : List Token) :
    depthAfter? depth (t :: ts) = (pass? depth t).bind (depthAfter? · ts) :=
  List.foldlM_cons

theorem depthAfter?_append (depth : Nat) (ts us : List Token) :
    depthAfter? depth (ts ++ us) = (depthAfter? depth ts).bind (depthAfter? · us) :=
  List.foldlM_append

/-- Groups that are open around a list stay open throughout it. -/
theorem depthAfter?_add {depth depth' : Nat} {ts : List Token}
    (h : depthAfter? depth ts = some depth') (k : Nat) :
    depthAfter? (depth + k) ts = some (depth' + k) := by
  induction ts generalizing depth with
  | nil =>
    obtain rfl : depth = depth' := Option.some.inj h
    rfl
  | cons t ts ih =>
    rw [depthAfter?_cons] at h
    obtain ⟨d, hpass, hrest⟩ := Option.bind_eq_some_iff.1 h
    rw [depthAfter?_cons, pass?_add hpass k, Option.bind_some]
    exact ih hrest

/-! ### The counts -/

/-- The depth changes by the difference of the counts. -/
theorem count_of_depthAfter? {depth depth' : Nat} {ts : List Token}
    (h : depthAfter? depth ts = some depth') :
    depth' + ts.count closeParen = depth + ts.count openParen := by
  induction ts generalizing depth with
  | nil =>
    obtain rfl : depth = depth' := Option.some.inj h
    rfl
  | cons t ts ih =>
    rw [depthAfter?_cons] at h
    obtain ⟨d, hpass, hrest⟩ := Option.bind_eq_some_iff.1 h
    have hhead := pass?_eq_some_iff.1 hpass
    have htail := ih hrest
    rw [← List.singleton_append, List.count_append, List.count_append]
    omega

theorem exists_prefix_of_depthAfter? {depth : Nat} {ts : List Token}
    (h : depthAfter? depth ts = none) :
    ∃ us, us <+: ts ∧ depth + us.count openParen < us.count closeParen := by
  induction ts generalizing depth with
  | nil => cases h
  | cons t ts ih =>
    rw [depthAfter?_cons] at h
    rcases hpass : pass? depth t with - | d
    · obtain ⟨rfl, rfl⟩ := pass?_eq_none_iff.1 hpass
      exact ⟨[closeParen], by simp, by decide⟩
    · rw [hpass, Option.bind_some] at h
      obtain ⟨us, hfront, hcount⟩ := ih h
      have hhead := pass?_eq_some_iff.1 hpass
      refine ⟨t :: us, (List.prefix_cons_inj t).2 hfront, ?_⟩
      rw [← List.singleton_append, List.count_append, List.count_append]
      omega

/-- There is no depth if and only if some part in front closes more than it opens. -/
theorem depthAfter?_eq_none_iff {depth : Nat} {ts : List Token} :
    depthAfter? depth ts = none ↔
      ∃ us, us <+: ts ∧ depth + us.count openParen < us.count closeParen := by
  refine ⟨exists_prefix_of_depthAfter?, ?_⟩
  rintro ⟨us, ⟨vs, rfl⟩, hcount⟩
  rw [depthAfter?_append]
  rcases hus : depthAfter? depth us with - | d
  · rfl
  · have hbalance := count_of_depthAfter? hus
    omega

/-- If no part in front closes more than it opens, the depth at the end is what is left open. -/
theorem exists_depthAfter? {ts : List Token}
    (h : ∀ us, us <+: ts → us.count closeParen ≤ us.count openParen) :
    ∃ d, depthAfter? 0 ts = some d ∧ d + ts.count closeParen = ts.count openParen := by
  rcases hdepth : depthAfter? 0 ts with - | d
  · obtain ⟨us, hus, hcount⟩ := depthAfter?_eq_none_iff.1 hdepth
    have := h us hus
    omega
  · have hcount := count_of_depthAfter? hdepth
    exact ⟨d, rfl, by omega⟩

/-! ### The check and the cut -/

/-- What is to be reported about the depth at the end. -/
def reportDepth : Option Nat → Except ParseError Unit
  | none => .error .unexpectedCloseParen
  | some 0 => .ok ()
  | some (_ + 1) => .error .unclosedParen

/-- The check looks at the depth at the end. -/
theorem checkParens_eq (depth : Nat) (ts : List Token) :
    checkParens depth ts = reportDepth (depthAfter? depth ts) := by
  induction ts generalizing depth with
  | nil => rcases depth with - | depth <;> rfl
  | cons t ts ih =>
    have hstep : checkParens depth (t :: ts) =
        (pass? depth t).elim (.error .unexpectedCloseParen) (checkParens · ts) := by
      rcases depth with - | depth <;> cases t <;> rfl
    rw [hstep, depthAfter?_cons]
    rcases pass? depth t with - | d
    · rfl
    · exact ih d

theorem checkParens_eq_ok_iff {ts : List Token} : checkParens 0 ts = .ok () ↔ Balanced ts := by
  rw [checkParens_eq, Balanced]
  rcases depthAfter? 0 ts with - | - | d <;> simp [reportDepth]

theorem parse_of_balanced {ts : List Token} (h : Balanced ts) : parse ts = parseUnchecked ts := by
  rw [parse, checkParens_eq_ok_iff.2 h]

/-- A group ends at the token that cannot be passed. -/
theorem splitGroup_cons (depth : Nat) (t : Token) (ts : List Token) :
    splitGroup depth (t :: ts) =
      (pass? depth t).elim (some ([], ts)) fun d ↦
        (splitGroup d ts).map fun p ↦ (t :: p.1, p.2) := by
  rcases depth with - | depth <;> cases t <;> rfl

theorem depthAfter?_of_splitGroup {depth : Nat} {ts inner rest : List Token}
    (h : splitGroup depth ts = some (inner, rest)) : depthAfter? depth inner = some 0 := by
  induction ts generalizing depth inner with
  | nil => cases depth <;> cases h
  | cons t ts ih =>
    rw [splitGroup_cons] at h
    rcases hpass : pass? depth t with - | d
    · rw [hpass] at h
      cases h
      rw [(pass?_eq_none_iff.1 hpass).1]
      rfl
    · rw [hpass] at h
      obtain ⟨⟨inner', rest'⟩, hsplit, heq⟩ := Option.map_eq_some_iff.1 h
      cases heq
      rw [depthAfter?_cons, hpass, Option.bind_some]
      exact ih hsplit

theorem splitGroup_of_depthAfter? {depth : Nat} {inner : List Token}
    (h : depthAfter? depth inner = some 0) (rest : List Token) :
    splitGroup depth (inner ++ closeParen :: rest) = some (inner, rest) := by
  induction inner generalizing depth with
  | nil =>
    obtain rfl : depth = 0 := Option.some.inj h
    rfl
  | cons t inner ih =>
    rw [depthAfter?_cons] at h
    obtain ⟨d, hpass, hrest⟩ := Option.bind_eq_some_iff.1 h
    rw [List.cons_append, splitGroup_cons, hpass, Option.elim_some, ih hrest, Option.map_some]

/-- What is cut off as the inside of a group is the part up to the first closing parenthesis at
depth zero. -/
theorem splitGroup_eq_some_iff {depth : Nat} {ts inner rest : List Token} :
    splitGroup depth ts = some (inner, rest) ↔
      ts = inner ++ closeParen :: rest ∧ depthAfter? depth inner = some 0 := by
  constructor
  · intro h
    exact ⟨append_of_splitGroup h, depthAfter?_of_splitGroup h⟩
  · rintro ⟨rfl, h⟩
    exact splitGroup_of_depthAfter? h rest

/-- A group that is open in front and closed at the end has an end. -/
theorem splitGroup_ne_none {depth : Nat} {ts : List Token}
    (h : depthAfter? (depth + 1) ts = some 0) : splitGroup depth ts ≠ none := by
  induction ts generalizing depth with
  | nil => cases h
  | cons t ts ih =>
    rw [splitGroup_cons]
    rcases hpass : pass? depth t with - | d
    · exact Option.some_ne_none _
    · rw [depthAfter?_cons, pass?_add hpass 1, Option.bind_some] at h
      exact Option.map_eq_none_iff.not.2 (ih h)

/-! ### Balanced lists -/

namespace Balanced

theorem append {ts us : List Token} (hts : Balanced ts) (hus : Balanced us) :
    Balanced (ts ++ us) := by
  rw [Balanced, depthAfter?_append, hts]
  exact hus

theorem of_append {ts us : List Token} (h : Balanced (ts ++ us)) (hts : Balanced ts) :
    Balanced us := by
  rw [Balanced, depthAfter?_append, hts] at h
  exact h

theorem map_ident (xs : List Name) : Balanced (xs.map ident) := by
  induction xs with
  | nil => rfl
  | cons x xs ih => exact ih

theorem group {ts : List Token} (h : Balanced ts) :
    Balanced (openParen :: ts ++ [closeParen]) := by
  have hinside : depthAfter? 1 ts = some 1 := depthAfter?_add h 1
  rw [List.cons_append, Balanced, depthAfter?_cons, pass?, Option.bind_some, depthAfter?_append,
    hinside]
  rfl

theorem abstraction_iff {xs : List Name} {ts : List Token} :
    Balanced (lambda :: xs.map ident ++ dot :: ts) ↔ Balanced ts := by
  have hhead : Balanced (lambda :: xs.map ident) := map_ident xs
  constructor
  · intro h
    have hbody : Balanced (dot :: ts) := of_append h hhead
    exact hbody
  · intro h
    have hbody : Balanced (dot :: ts) := h
    exact append hhead hbody

/-- A group in front of a balanced list has an end. -/
theorem splitGroup_ne_none {ts : List Token} (h : Balanced (openParen :: ts)) :
    splitGroup 0 ts ≠ none :=
  Expr.splitGroup_ne_none h

/-- The inside of a group is balanced, and so is what stands behind it in a balanced list. -/
theorem of_splitGroup {ts inner rest : List Token} (h : Balanced (openParen :: ts))
    (hsplit : splitGroup 0 ts = some (inner, rest)) : Balanced inner ∧ Balanced rest := by
  obtain ⟨rfl, hinner⟩ := splitGroup_eq_some_iff.1 hsplit
  have hwhole : Balanced ((openParen :: inner ++ [closeParen]) ++ rest) := by simpa using h
  exact ⟨hinner, of_append hwhole (group hinner)⟩

end Balanced

end Expr

end UntypedLambda
