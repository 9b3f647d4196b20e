import UntypedLambda.Proofs.Grammar

/-!
# Parsing by indices

The parser cuts lists in two, and nothing can go wrong with that. The same descent can be made on
one list with indices into it: the end of a group is an index, found by counting the depth up and
down, and the parts are slices between two indices. There every slice may lie outside of the list,
and the depth may be counted below zero. `parseSliced` is this descent, and it stops at once if
something of the kind happens (`Stop`). It never does: on every list of tokens, balanced or not, the
descent by indices ends as the parser without the check of the parentheses does
(`parseSliced_eq`).

* The depth is at least one from the opening parenthesis on until the index is found, which is the
  invariant of the loop (`seekClose_succ`). The index is then that of the token at which the group
  is cut.
* What stands between the two parentheses and what stands behind the second are the slices at that
  index, and the body of an abstraction is the slice behind its names and the dot.

The check of the parentheses takes no part in this, and what is accepted without it is accepted
with it, since what derives an expression is balanced.
-/

namespace UntypedLambda

namespace Expr

open Token

/-! ### The descent -/

/-- Why the descent ends without an expression. -/
inductive Stop where
  /-- The tokens are no expression. -/
  | fault (cause : ParseError)
  /-- The end of a group is sought where no group begins. -/
  | noGroup
  /-- The depth is counted down from zero. -/
  | belowZero
  /-- The indices of a slice are out of order, or beyond the end. -/
  | outOfRange
deriving DecidableEq, Repr

/-- The tokens from index `i` up to index `j`. -/
def slice (i j : Nat) (ts : List Token) :
    Except Stop { us : List Token // us.length + i = j ∧ j ≤ ts.length } :=
  if h : i ≤ j ∧ j ≤ ts.length then .ok ⟨(ts.take j).drop i, by simp; omega⟩
  else .error .outOfRange

/-- The tokens from index `i` on. -/
def sliceFrom (i : Nat) (ts : List Token) :
    Except Stop { us : List Token // us.length + i = ts.length ∧ ts.length ≤ ts.length } :=
  slice i ts.length ts

/-- The index of the parenthesis behind which no group is open any more, if `depth` groups are open
in front of the token at index `i`. -/
def seekClose (i depth : Nat) : List Token → Except Stop Nat
  | [] => .error (.fault .unclosedParen)
  | openParen :: ts => seekClose (i + 1) (depth + 1) ts
  | closeParen :: ts =>
    if depth = 0 then .error .belowZero
    else if depth - 1 = 0 then .ok i
    else seekClose (i + 1) (depth - 1) ts
  | _ :: ts => seekClose (i + 1) depth ts

/-- The index of the parenthesis that closes the group at the start of a list. -/
def closeIndex (ts : List Token) : Except Stop Nat :=
  if ts.head? = some openParen then seekClose 0 0 ts else .error .noGroup

/-- The names in the head of an abstraction, behind its `λ`. -/
def boundNames (ts : List Token) : Except Stop (List Name) :=
  if (splitNames ts).1 = [] then .error (.fault .missingBoundVariable)
  else if ts[(splitNames ts).1.length]? = some dot then .ok (splitNames ts).1
  else .error (.fault .missingDot)

/-- Reads the rest of a spine. -/
def parseSliced (spine : Option Expr) : List Token → Except Stop Expr
  | [] =>
    match spine with
    | none => .error (.fault .emptyExpression)
    | some e => .ok e
  | ident x :: ts => do
    let ⟨rest, _⟩ ← sliceFrom 1 (ident x :: ts)
    parseSliced (some (applied spine (var x))) rest
  | openParen :: ts => do
    let close ← closeIndex (openParen :: ts)
    let ⟨inner, _⟩ ← slice 1 close (openParen :: ts)
    let e ← parseSliced none inner
    let ⟨rest, _⟩ ← sliceFrom (close + 1) (openParen :: ts)
    parseSliced (some (applied spine e)) rest
  | lambda :: ts => do
    let ⟨head, _⟩ ← sliceFrom 1 (lambda :: ts)
    let names ← boundNames head
    let ⟨body, _⟩ ← sliceFrom (names.length + 1) head
    let e ← parseSliced none body
    return applied spine (lams names e)
  | closeParen :: _ => .error (.fault .unexpectedCloseParen)
  | dot :: _ => .error (.fault .unexpectedDot)
termination_by ts => ts.length
decreasing_by all_goals omega

example : seekClose 0 0 [closeParen] = .error .belowZero ∧
    closeIndex [ident "x", closeParen] = .error .noGroup ∧
    slice 2 1 [ident "x", ident "y"] = .error .outOfRange := by decide

/-! ### Slices within the list -/

/-- What stands between two parts of a list is a slice of it. -/
theorem slice_of_append {i j : Nat} {ts us vs ws : List Token} (hts : ts = us ++ vs ++ ws)
    (hi : us.length = i) (hj : i + vs.length = j) :
    slice i j ts = .ok ⟨vs, by omega, by simp [hts]; omega⟩ := by
  subst hts hi hj
  have hrange : us.length ≤ us.length + vs.length ∧
      us.length + vs.length ≤ (us ++ vs ++ ws).length := by simp
  have htake : (us ++ vs ++ ws).take (us.length + vs.length) = us ++ vs := by
    rw [← List.length_append, List.take_left]
  simp only [slice, dif_pos hrange, htake, List.drop_left]

/-- What stands behind a part of a list is a slice of it. -/
theorem sliceFrom_of_append {i : Nat} {ts us vs : List Token} (hts : ts = us ++ vs)
    (hi : us.length = i) :
    sliceFrom i ts = .ok ⟨vs, by simp [hts]; omega, Nat.le_refl _⟩ :=
  slice_of_append (by rw [hts, List.append_nil]) hi (by rw [hts, List.length_append, hi])

theorem sliceFrom_one (t : Token) (ts : List Token) :
    sliceFrom 1 (t :: ts) = .ok ⟨ts, rfl, Nat.le_refl _⟩ :=
  sliceFrom_of_append (List.singleton_append (x := t)).symm rfl

/-! ### The end of a group -/

/-- As long as a group is open, the depth is not counted below zero, and the index found is that of
the parenthesis at which the group is cut. -/
theorem seekClose_succ (i depth : Nat) (ts : List Token) :
    seekClose i (depth + 1) ts =
      match splitGroup depth ts with
      | none => .error (.fault .unclosedParen)
      | some (inner, _) => .ok (i + inner.length) := by
  induction ts generalizing i depth with
  | nil => cases depth <;> rfl
  | cons t ts ih =>
    have hstep : seekClose i (depth + 1) (t :: ts) =
        (pass? depth t).elim (.ok i) fun d ↦ seekClose (i + 1) (d + 1) ts := by
      rcases depth with - | depth <;> cases t <;> rfl
    rw [hstep, splitGroup_cons]
    rcases pass? depth t with - | d
    · rfl
    · rw [Option.elim_some, Option.elim_some, ih]
      rcases splitGroup d ts with - | ⟨inner, rest⟩
      · rfl
      · simp [Nat.add_assoc, Nat.add_comm 1]

theorem closeIndex_of_splitGroup {ts inner rest : List Token}
    (h : splitGroup 0 ts = some (inner, rest)) :
    closeIndex (openParen :: ts) = .ok (1 + inner.length) := by
  have hseek : closeIndex (openParen :: ts) = seekClose 1 1 ts := rfl
  rw [hseek, seekClose_succ, h]

theorem closeIndex_of_splitGroup_eq_none {ts : List Token} (h : splitGroup 0 ts = none) :
    closeIndex (openParen :: ts) = .error (.fault .unclosedParen) := by
  have hseek : closeIndex (openParen :: ts) = seekClose 1 1 ts := rfl
  rw [hseek, seekClose_succ, h]

/-! ### The head of an abstraction -/

/-- The names are found as the parser finds them. -/
theorem boundNames_eq (ts : List Token) :
    boundNames ts = ((splitHead ts).map Prod.fst).mapError .fault := by
  have happend := append_splitNames ts
  rcases hsplit : splitNames ts with ⟨xs, rest⟩
  rw [hsplit] at happend
  have hbehind : ts[xs.length]? = rest.head? := by
    rw [← happend, List.getElem?_append_right (by simp)]
    simp [List.head?_eq_getElem?]
  rw [boundNames, splitHead, hsplit]
  rcases xs with - | ⟨x, xs⟩
  · rfl
  · rw [if_neg (List.cons_ne_nil x xs), hbehind]
    rcases rest with - | ⟨t, rest⟩
    · rfl
    · cases t <;> rfl

/-! ### The descent follows the parser -/

theorem parseSliced_ident (spine : Option Expr) (x : Name) (ts : List Token) :
    parseSliced spine (ident x :: ts) = parseSliced (some (applied spine (var x))) ts := by
  rw [parseSliced, sliceFrom_one]
  rfl

theorem parseSliced_unclosed {ts : List Token} (h : splitGroup 0 ts = none)
    (spine : Option Expr) :
    parseSliced spine (openParen :: ts) = .error (.fault .unclosedParen) := by
  rw [parseSliced, closeIndex_of_splitGroup_eq_none h]
  rfl

/-- The two slices at a group are the two parts that the parser cuts. -/
theorem parseSliced_group {ts inner rest : List Token}
    (h : splitGroup 0 ts = some (inner, rest)) (spine : Option Expr) :
    parseSliced spine (openParen :: ts) =
      (parseSliced none inner).bind fun e ↦ parseSliced (some (applied spine e)) rest := by
  have hinner : openParen :: ts = [openParen] ++ inner ++ closeParen :: rest := by
    rw [append_of_splitGroup h]
    rfl
  have hrest : openParen :: ts = ([openParen] ++ inner ++ [closeParen]) ++ rest := by
    rw [hinner, List.append_assoc _ [closeParen]]
    rfl
  have hone : [openParen].length = 1 := rfl
  have hlength : ([openParen] ++ inner ++ [closeParen]).length = 1 + inner.length + 1 := by
    rw [List.length_append, List.length_append, hone]
    rfl
  rw [parseSliced, closeIndex_of_splitGroup h]
  show (slice 1 (1 + inner.length) (openParen :: ts)).bind _ = _
  rw [slice_of_append hinner hone rfl]
  show (parseSliced none inner).bind (fun e ↦
    (sliceFrom (1 + inner.length + 1) (openParen :: ts)).bind _) = _
  rw [sliceFrom_of_append hrest hlength]
  rfl

theorem parseSliced_lambda_error {ts : List Token} {fault : ParseError}
    (h : splitHead ts = .error fault) (spine : Option Expr) :
    parseSliced spine (lambda :: ts) = .error (.fault fault) := by
  rw [parseSliced, sliceFrom_one]
  show (boundNames ts).bind _ = _
  rw [boundNames_eq, h]
  rfl

/-- The slice behind the names and the dot is the body that the parser cuts off. -/
theorem parseSliced_lambda {ts body : List Token} {xs : List Name}
    (h : splitHead ts = .ok (xs, body)) (spine : Option Expr) :
    parseSliced spine (lambda :: ts) =
      (parseSliced none body).map fun e ↦ applied spine (lams xs e) := by
  have hbody : ts = (xs.map ident ++ [dot]) ++ body := by
    rw [append_of_splitHead h, List.append_assoc, List.singleton_append]
  have hlength : (xs.map ident ++ [dot]).length = xs.length + 1 := by simp
  rw [parseSliced, sliceFrom_one]
  show (boundNames ts).bind (fun names ↦ (sliceFrom (names.length + 1) ts).bind _) = _
  rw [boundNames_eq, h]
  show (sliceFrom (xs.length + 1) ts).bind _ = _
  rw [sliceFrom_of_append hbody hlength]
  show (parseSliced none body).bind (fun e ↦ .ok (applied spine (lams xs e))) = _
  rcases parseSliced none body with stop | e <;> rfl

/-- The descent by indices ends as the parser without the check of the parentheses does. -/
theorem parseSliced_eq (spine : Option Expr) (ts : List Token) :
    parseSliced spine ts = (parseSpine spine ts).mapError .fault := by
  fun_induction parseSpine spine ts with
  | case1 | case2 | case10 | case11 => rw [parseSliced]; rfl
  | case3 spine x ts ih => rw [parseSliced_ident, ih]
  | case4 spine ts hsplit => rw [parseSliced_unclosed hsplit]; rfl
  | case5 spine ts inner rest hsplit hlength fault hinner ihinner =>
    rw [parseSliced_group hsplit, ihinner, hinner]
    rfl
  | case6 spine ts inner rest hsplit hlength a hinner ihinner ihrest =>
    rw [parseSliced_group hsplit, ihinner, hinner, ← ihrest]
    rfl
  | case7 spine ts fault hsplit => rw [parseSliced_lambda_error hsplit]; rfl
  | case8 spine ts xs body hsplit hlength _ hbody ih
  | case9 spine ts xs body hsplit hlength _ hbody ih =>
    rw [parseSliced_lambda hsplit, ih, hbody]
    rfl

/-- **Without the check of the parentheses the same is accepted, and no index goes astray.** On
every list of tokens, balanced or not, parsing accepts an expression without the check if and only
if it does with it. The descent by indices ends as parsing without the check does, with the same
expression or the same fault. In particular it seeks the end of a group only where a group begins,
never counts the depth down from zero, and takes slices only within the list. -/
theorem parseUnchecked_accepts_and_stays_in_range (ts : List Token) :
    (∀ e, parseUnchecked ts = .ok e ↔ parse ts = .ok e) ∧
    parseSliced none ts = (parseUnchecked ts).mapError .fault ∧
    parseSliced none ts ≠ .error .noGroup ∧ parseSliced none ts ≠ .error .belowZero ∧
    parseSliced none ts ≠ .error .outOfRange := by
  have hsliced : parseSliced none ts = (parseUnchecked ts).mapError .fault :=
    parseSliced_eq none ts
  refine ⟨fun e ↦ ⟨fun h ↦ ?_, parseSpine_of_parse⟩, hsliced, ?_⟩
  · exact parse_of_derives (parseUnchecked_eq_ok_iff.1 h)
  · rw [hsliced]
    rcases parseUnchecked ts with fault | e <;> simp [Except.mapError]

end Expr

end UntypedLambda
