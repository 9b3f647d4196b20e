import Mathlib.Data.List.Infix
import UntypedLambda.Proofs.Nameless.Redex
import UntypedLambda.Proofs.Substitution

/-!
# Which bound names are changed

A substitution changes the bound names that would capture a variable, and no others, and it draws
one fresh name for each of them in pre-order. So the numbers in the result are known beforehand:
`captureSites x r e` lists the places of the abstractions of `e` that would capture, and the `i`-th
of them gets the number at which the supply stands, plus `i` (`substitute_renames_in_preorder`).

The list is made of the expression as it is before the substitution, while the substitution looks
at the inner abstractions only after the outer ones have been renamed. On safe names a renaming is
a replacement of leaves: a fresh name is not bound anywhere in the body, so it can neither be
captured nor draw a further name, and all abstractions stay where they are under the names that
they have (`SameBinders`). Hence the inner abstractions that capture are the same before and after.

What a substitution does to the bound names is put together from what it does in the parts
(`Renumbered`), one lemma for each way an abstraction is met.
-/

namespace UntypedLambda

namespace Expr

open Nameless (Position)

/-! ### Abstractions and their places -/

/-- The name that is bound at a place, if an abstraction stands there. -/
def binderAt? : Expr → Position → Option Name
  | lam x _, [] => some x
  | lam _ body, .body :: p => body.binderAt? p
  | app f _, .operator :: p => f.binderAt? p
  | app _ a, .operand :: p => a.binderAt? p
  | _, _ => none

/-- The places of all abstractions, in pre-order. -/
def abstractions : Expr → List Position
  | var _ => []
  | lam _ body => [] :: body.abstractions.map (.body :: ·)
  | app f a => f.abstractions.map (.operator :: ·) ++ a.abstractions.map (.operand :: ·)

/-- Whether the abstraction at a place would capture a variable of `r` that is put in for `x`: it
neither binds `x` nor lies inside an abstraction that does, and its name is free in `r`. -/
def capturesAt (x : Name) (r e : Expr) (p : Position) : Bool :=
  (p.inits.all fun q ↦ e.binderAt? q != some x) && (e.binderAt? p).any fun y ↦ r.isFree y

/-- The places of the abstractions that would capture, in pre-order. -/
def captureSites (x : Name) (r e : Expr) : List Position :=
  e.abstractions.filter (capturesAt x r e)

theorem binderAt?_var (x : Name) (p : Position) : (var x).binderAt? p = none := by
  cases p <;> rfl

theorem mem_names_of_binderAt? {e : Expr} {p : Position} {y : Name}
    (h : e.binderAt? p = some y) : y ∈ e.names := by
  fun_induction binderAt? e p with
  | case1 x body =>
    obtain rfl := Option.some.inj h
    exact List.mem_cons_self
  | case2 x body p ih => exact List.mem_cons_of_mem x (ih h)
  | case3 f a p ih => exact List.mem_append_left _ (ih h)
  | case4 f a p ih => exact List.mem_append_right _ (ih h)
  | case5 => cases h

/-- The list of the abstractions is complete. -/
theorem mem_abstractions_iff {e : Expr} {p : Position} :
    p ∈ e.abstractions ↔ (e.binderAt? p).isSome := by
  induction e generalizing p with
  | var x => simp [abstractions, binderAt?_var]
  | lam x body ih => rcases p with - | ⟨- | - | -, p⟩ <;> simp [abstractions, binderAt?, ih]
  | app f a ihf iha => rcases p with - | ⟨- | - | -, p⟩ <;> simp [abstractions, binderAt?, ihf, iha]

theorem mem_captureSites_iff {x : Name} {r e : Expr} {p : Position} :
    p ∈ captureSites x r e ↔
      (∀ q, q <+: p → e.binderAt? q ≠ some x) ∧
        ∃ y, e.binderAt? p = some y ∧ r.isFree y = true := by
  rw [captureSites, List.mem_filter, mem_abstractions_iff, capturesAt, Bool.and_eq_true,
    List.all_eq_true, Option.any_eq_true]
  simp only [List.mem_inits, bne_iff_ne]
  constructor
  · rintro ⟨-, hfront, hcapture⟩
    exact ⟨hfront, hcapture⟩
  · rintro ⟨hfront, y, hy, hfree⟩
    exact ⟨hy ▸ rfl, hfront, y, hy, hfree⟩

/-! ### The places that capture, constructor by constructor -/

section Sites

variable (x : Name) (r : Expr)

theorem capturesAt_operator (f a : Expr) (p : Position) :
    capturesAt x r (app f a) (.operator :: p) = capturesAt x r f p := by
  simp [capturesAt, binderAt?, Function.comp_def, bne]

theorem capturesAt_operand (f a : Expr) (p : Position) :
    capturesAt x r (app f a) (.operand :: p) = capturesAt x r a p := by
  simp [capturesAt, binderAt?, Function.comp_def, bne]

theorem capturesAt_body (y : Name) (body : Expr) (p : Position) :
    capturesAt x r (lam y body) (.body :: p) = ((y != x) && capturesAt x r body p) := by
  simp [capturesAt, binderAt?, Function.comp_def, bne, Bool.and_assoc]

theorem capturesAt_nil (y : Name) (body : Expr) :
    capturesAt x r (lam y body) [] = ((y != x) && r.isFree y) := by
  simp [capturesAt, binderAt?, bne]

theorem captureSites_app (f a : Expr) :
    captureSites x r (app f a) =
      (captureSites x r f).map (.operator :: ·) ++ (captureSites x r a).map (.operand :: ·) := by
  simp only [captureSites, abstractions, List.filter_append, List.filter_map, Function.comp_def,
    capturesAt_operator, capturesAt_operand]

theorem captureSites_shadowed (body : Expr) : captureSites x r (lam x body) = [] := by
  simp [captureSites, abstractions, List.filter_map, Function.comp_def, capturesAt_nil,
    capturesAt_body]

theorem captureSites_lam {y : Name} (hyx : y ≠ x) (body : Expr) :
    captureSites x r (lam y body) =
      (if r.isFree y then [[]] else []) ++ (captureSites x r body).map (.body :: ·) := by
  rw [captureSites, abstractions, List.filter_cons, List.filter_map, capturesAt_nil]
  simp only [Function.comp_def, capturesAt_body, bne_iff_ne.2 hyx, Bool.true_and]
  split <;> rfl

end Sites

/-! ### Renamings leave the abstractions alone -/

/-- The same abstractions stand at the same places and bind the same names. -/
structure SameBinders (e e' : Expr) : Prop where
  binderAt? : e'.binderAt? = e.binderAt?
  abstractions : e'.abstractions = e.abstractions

namespace SameBinders

theorem refl (e : Expr) : SameBinders e e := ⟨rfl, rfl⟩

theorem vars (x y : Name) : SameBinders (var x) (var y) := by
  refine ⟨?_, rfl⟩
  funext p
  rw [binderAt?_var, binderAt?_var]

theorem lam (x : Name) {body body' : Expr} (h : SameBinders body body') :
    SameBinders (lam x body) (lam x body') := by
  refine ⟨?_, by rw [Expr.abstractions, Expr.abstractions, h.abstractions]⟩
  funext p
  rcases p with - | ⟨- | - | -, p⟩
  · rfl
  · exact congrFun h.binderAt? p
  · rfl
  · rfl

theorem app {f f' a a' : Expr} (hf : SameBinders f f') (ha : SameBinders a a') :
    SameBinders (app f a) (app f' a') := by
  refine ⟨?_, by rw [Expr.abstractions, Expr.abstractions, hf.abstractions, ha.abstractions]⟩
  funext p
  rcases p with - | ⟨- | - | -, p⟩
  · rfl
  · rfl
  · exact congrFun hf.binderAt? p
  · exact congrFun ha.binderAt? p

/-- Which abstractions capture depends on the bound names only. -/
theorem captureSites {e e' : Expr} (h : SameBinders e e') (x : Name) (r : Expr) :
    captureSites x r e' = captureSites x r e := by
  have hcaptures : capturesAt x r e' = capturesAt x r e := by
    funext p
    rw [capturesAt, capturesAt, h.binderAt?]
  rw [Expr.captureSites, Expr.captureSites, h.abstractions, hcaptures]

end SameBinders

/-- A variable is put in for another without a draw and without a change to the abstractions, if
its name is nowhere bound. -/
theorem sameBinders_substitute_var {y z : Name} {e : Expr} (h : ∀ p, e.binderAt? p ≠ some z)
    (s : Supply) :
    (substitute y (var z) e s).2 = s ∧ SameBinders e (substitute y (var z) e s).1 := by
  induction e generalizing s with
  | var w =>
    rw [substitute_var]
    split
    · exact ⟨rfl, .vars w z⟩
    · exact ⟨rfl, .refl _⟩
  | lam w body ih =>
    by_cases hwy : w = y
    · subst hwy
      rw [substitute_shadowed]
      exact ⟨rfl, .refl _⟩
    · have hzw : z ≠ w := fun hzw ↦ h [] (hzw ▸ rfl)
      have hfree : (var z).isFree w = false := by simp [isFree, hzw]
      obtain ⟨hsupply, hsame⟩ := ih (fun p ↦ h (.body :: p)) s
      rw [substitute_plain hwy hfree]
      exact ⟨hsupply, hsame.lam w⟩
  | app f a ihf iha =>
    obtain ⟨hsupply, hf⟩ := ihf (fun p ↦ h (.operator :: p)) s
    obtain ⟨hsupply', ha⟩ := iha (fun p ↦ h (.operand :: p)) s
    rw [substitute_app, hsupply]
    exact ⟨hsupply', hf.app ha⟩

/-- On safe names, changing a bound name draws one name and leaves the abstractions of the body
alone. -/
theorem sameBinders_freshen {y : Name} {body : Expr} {s : Supply} (h : body.SafeAt s.next) :
    (freshen y body s).2.next = s.next + 1 ∧ SameBinders body (freshen y body s).1 := by
  have hnew : ∀ p, body.binderAt? p ≠ some (s.fresh y) :=
    fun p hp ↦ (h _ (mem_names_of_binderAt? hp)).ne_fresh y rfl
  obtain ⟨hsupply, hsame⟩ :=
    sameBinders_substitute_var (y := y) hnew (s.advance.note (.renamed y (s.fresh y)))
  exact ⟨congrArg Supply.next hsupply, hsame⟩

/-! ### Bound names that get numbers -/

/-- The bound names of `e` at `sites` have become fresh names in `e'`, numbered from `n` on, and all
other bound names of `e` are the same in `e'`. -/
structure Renumbered (n : Nat) (sites : List Position) (e e' : Expr) : Prop where
  renamed : ∀ (i : Nat) (p : Position), sites[i]? = some p →
    ∃ y, e.binderAt? p = some y ∧ e'.binderAt? p = some (Supply.numbered y (n + i))
  kept : ∀ (p : Position) (y : Name), e.binderAt? p = some y → p ∉ sites →
    e'.binderAt? p = some y

namespace Renumbered

theorem refl (n : Nat) (e : Expr) : Renumbered n [] e e :=
  ⟨fun _ _ h ↦ (nomatch List.getElem?_nil.symm.trans h), fun _ _ h _ ↦ h⟩

theorem of_var (n : Nat) (x : Name) (e' : Expr) : Renumbered n [] (var x) e' where
  renamed _ _ h := nomatch List.getElem?_nil.symm.trans h
  kept p _ h _ := nomatch (binderAt?_var x p).symm.trans h

/-- Only the abstractions of the left side count. -/
theorem of_sameBinders {n : Nat} {sites : List Position} {e₁ e₂ e' : Expr}
    (h : SameBinders e₁ e₂) (he : Renumbered n sites e₂ e') : Renumbered n sites e₁ e' where
  renamed i p hp := h.binderAt? ▸ he.renamed i p hp
  kept p y hp hsites := he.kept p y (h.binderAt? ▸ hp) hsites

/-- Under an abstraction that keeps its name. -/
theorem lam {n : Nat} {sites : List Position} {body body' : Expr} (x : Name)
    (h : Renumbered n sites body body') :
    Renumbered n (sites.map (.body :: ·)) (lam x body) (lam x body') where
  renamed i p hp := by
    rw [List.getElem?_map] at hp
    obtain ⟨q, hq, rfl⟩ := Option.map_eq_some_iff.1 hp
    exact h.renamed i q hq
  kept p y hp hsites := by
    rcases p with - | ⟨- | - | -, q⟩
    · exact hp
    · exact h.kept q y hp fun hq ↦ hsites (List.mem_map_of_mem hq)
    · cases hp
    · cases hp

/-- Under an abstraction that gets the first number. -/
theorem lam_numbered {n : Nat} {sites : List Position} {body body' : Expr} (x : Name)
    (h : Renumbered (n + 1) sites body body') :
    Renumbered n ([] :: sites.map (.body :: ·)) (.lam x body)
      (.lam (Supply.numbered x n) body') where
  renamed i p hp := by
    rcases i with - | i
    · obtain rfl := Option.some.inj hp
      exact ⟨x, rfl, rfl⟩
    · rw [List.getElem?_cons_succ, List.getElem?_map] at hp
      obtain ⟨q, hq, rfl⟩ := Option.map_eq_some_iff.1 hp
      rw [Nat.add_comm i 1, ← Nat.add_assoc]
      exact h.renamed i q hq
  kept p y hp hsites := by
    rcases p with - | ⟨- | - | -, q⟩
    · exact absurd List.mem_cons_self hsites
    · exact h.kept q y hp fun hq ↦ hsites (List.mem_cons_of_mem _ (List.mem_map_of_mem hq))
    · cases hp
    · cases hp

/-- The numbers of the operand follow those of the operator. -/
theorem app {n : Nat} {fsites asites : List Position} {f f' a a' : Expr}
    (hf : Renumbered n fsites f f') (ha : Renumbered (n + fsites.length) asites a a') :
    Renumbered n (fsites.map (.operator :: ·) ++ asites.map (.operand :: ·)) (app f a)
      (app f' a') where
  renamed i p hp := by
    rw [List.getElem?_append, List.length_map] at hp
    split at hp
    · rw [List.getElem?_map] at hp
      obtain ⟨q, hq, rfl⟩ := Option.map_eq_some_iff.1 hp
      exact hf.renamed i q hq
    next hi =>
      rw [List.getElem?_map] at hp
      obtain ⟨q, hq, rfl⟩ := Option.map_eq_some_iff.1 hp
      have hnumber : n + i = n + fsites.length + (i - fsites.length) := by omega
      rw [hnumber]
      exact ha.renamed _ q hq
  kept p y hp hsites := by
    rcases p with - | ⟨- | - | -, q⟩
    · cases hp
    · cases hp
    · refine hf.kept q y hp fun hq ↦ hsites ?_
      exact List.mem_append_left _ (List.mem_map_of_mem hq)
    · refine ha.kept q y hp fun hq ↦ hsites ?_
      exact List.mem_append_right _ (List.mem_map_of_mem hq)

end Renumbered

/-- A substitution draws one name for each place that captures, and numbers the bound names there
in order. -/
theorem renumbered_substitute {x : Name} {r e : Expr} {s : Supply}
    (hx : Supply.SafeAt s.next x) (hr : r.SafeAt s.next) (he : e.SafeAt s.next) :
    (substitute x r e s).2.next = s.next + (captureSites x r e).length ∧
      Renumbered s.next (captureSites x r e) e (substitute x r e s).1 := by
  induction x, r, e, s using substitute_induction with
  | var x r y s =>
    rw [substitute_var]
    split <;> exact ⟨rfl, .of_var _ _ _⟩
  | app x r f a s ihf iha =>
    obtain ⟨hf, ha⟩ := safeAt_app.1 he
    have hle := next_le_substitute x r f s
    obtain ⟨hnext, hrenumbered⟩ := ihf hx hr hf
    obtain ⟨hnext', hrenumbered'⟩ := iha (hx.mono hle) (hr.mono hle) (ha.mono hle)
    rw [hnext] at hnext' hrenumbered'
    rw [substitute_app, captureSites_app]
    refine ⟨?_, hrenumbered.app hrenumbered'⟩
    rw [hnext', List.length_append, List.length_map, List.length_map, Nat.add_assoc]
  | shadowed x r body s =>
    rw [substitute_shadowed, captureSites_shadowed]
    exact ⟨rfl, .refl _ _⟩
  | captured x r y body s hyx hfree ihrename ih =>
    obtain ⟨-, hbody⟩ := safeAt_lam.1 he
    have hle := Nat.le_of_lt (next_lt_freshen y body s)
    obtain ⟨hdrawn, hsame⟩ := sameBinders_freshen (y := y) hbody
    obtain ⟨hnext, hrenumbered⟩ := ih (hx.mono hle) (hr.mono hle) (safeAt_freshen hbody)
    rw [hdrawn, hsame.captureSites] at hnext hrenumbered
    rw [substitute_captured hyx hfree, captureSites_lam x r hyx, if_pos hfree,
      List.singleton_append]
    refine ⟨?_, (hrenumbered.of_sameBinders hsame).lam_numbered y⟩
    rw [hnext, List.length_cons, List.length_map, Nat.add_assoc, Nat.add_comm 1]
  | plain x r y body s hyx hfree ih =>
    obtain ⟨-, hbody⟩ := safeAt_lam.1 he
    obtain ⟨hnext, hrenumbered⟩ := ih hx hr hbody
    rw [substitute_plain hyx hfree, captureSites_lam x r hyx, hfree, if_neg Bool.false_ne_true,
      List.nil_append]
    exact ⟨by rw [hnext, List.length_map], hrenumbered.lam y⟩

/-- **Bound names are changed in pre-order, and only those that would capture.** Let the names be
safe. The places of the abstractions that neither bind the name replaced nor lie inside one that
does, and whose own name is free in what is put in, are listed in pre-order. The supply counts up by
the length of the list, the bound name at member number `i` of the list becomes its stem with the
number at which the supply stood plus `i`, and every other bound name of the expression stays. -/
theorem substitute_renames_in_preorder (x : Name) (r e : Expr) (s : Supply)
    (hx : Supply.SafeAt s.next x) (hr : r.SafeAt s.next) (he : e.SafeAt s.next) :
    (∀ p, p ∈ captureSites x r e ↔
      (∀ q, q <+: p → e.binderAt? q ≠ some x) ∧
        ∃ y, e.binderAt? p = some y ∧ r.isFree y = true) ∧
    (captureSites x r e).Sublist e.abstractions ∧
    (substitute x r e s).2.next = s.next + (captureSites x r e).length ∧
    (∀ (i : Nat) (p : Position), (captureSites x r e)[i]? = some p →
      ∃ y, e.binderAt? p = some y ∧
        (substitute x r e s).1.binderAt? p =
          some (Supply.stem y ++ "'" ++ toString (s.next + i))) ∧
    ∀ (p : Position) (y : Name), e.binderAt? p = some y → p ∉ captureSites x r e →
      (substitute x r e s).1.binderAt? p = some y := by
  obtain ⟨hnext, hrenumbered⟩ := renumbered_substitute hx hr he
  exact ⟨fun p ↦ mem_captureSites_iff, List.filter_sublist, hnext, hrenumbered.renamed,
    hrenumbered.kept⟩

/-- An expression in which an abstraction is to be renamed, one inside it as well, and two are to
be left alone, since one binds the name that is replaced and the other lies inside it. -/
def nested : Expr :=
  app (lam "y" (app (var "x") (lam "z'3" (var "x")))) (lam "x" (lam "y" (var "x")))

/-- The stem of a fresh name of an earlier draw gets a new number, and the names around and below
`x` stay. -/
theorem substitute_renames_in_preorder_nested :
    Supply.SafeAt 4 "x" ∧ (app (var "y") (var "z'3")).SafeAt 4 ∧ nested.SafeAt 4 ∧
    captureSites "x" (app (var "y") (var "z'3")) nested =
      [[.operator], [.operator, .body, .operand]] ∧
    (substitute "x" (app (var "y") (var "z'3")) nested { next := 4 }).2.next = 6 ∧
    (substitute "x" (app (var "y") (var "z'3")) nested { next := 4 }).1.binderAt?
      [.operator, .body, .operand] = some "z'5" ∧
    (substitute "x" (app (var "y") (var "z'3")) nested { next := 4 }).1.binderAt?
      [.operand, .body] = some "y" := by
  have hx : Supply.SafeAt 4 "x" := Supply.safeAt_of_unprimed (by decide) 4
  have hy : Supply.SafeAt 4 "y" := Supply.safeAt_of_unprimed (by decide) 4
  have hz : Supply.SafeAt 4 "z'3" := Supply.safeAt_numbered "z" (by decide : 3 < 4)
  have hr : (app (var "y") (var "z'3")).SafeAt 4 := by simp [hy, hz]
  have he : nested.SafeAt 4 := by simp [nested, hx, hy, hz]
  have hsites : captureSites "x" (app (var "y") (var "z'3")) nested =
      [[.operator], [.operator, .body, .operand]] := by decide
  obtain ⟨-, -, hnext, hrenamed, hkept⟩ :=
    substitute_renames_in_preorder "x" _ nested { next := 4 } hx hr he
  refine ⟨hx, hr, he, hsites, ?_, ?_, ?_⟩
  · rw [hnext, hsites]
    rfl
  · obtain ⟨y, hy, hnumbered⟩ := hrenamed 1 [.operator, .body, .operand] (by rw [hsites]; rfl)
    obtain rfl : "z'3" = y := Option.some.inj hy
    rw [hnumbered]
    decide
  · exact hkept _ "y" rfl (by rw [hsites]; decide)

end Expr

end UntypedLambda
