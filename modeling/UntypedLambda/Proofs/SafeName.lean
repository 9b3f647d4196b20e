import Mathlib.Data.List.TakeWhile
import UntypedLambda.Supply

/-!
# Names that are never drawn again

A supply does not look at the names that are in use. Whether a fresh name is new therefore rests on
an invariant of the names themselves: a name is *safe* at a number when it is not a fresh name with
that number or a larger one. Names without a `'` are safe at every number, a drawn name is safe
behind its draw (`safeAt_numbered`), and what is safe stays safe as the supply counts up
(`SafeAt.mono`). What is safe now is not the name drawn next (`SafeAt.ne_fresh`).

All of it comes down to reading a fresh name apart again: the `'` ends the stem, since no stem has
one, and the decimal digits behind it determine the number (`primed_inj`).
-/

namespace UntypedLambda

namespace Supply

/-! ### Fresh names are read apart -/

/-- A name without a `'` in it. -/
def Unprimed (x : Name) : Prop := '\'' ∉ x.toList

instance (x : Name) : Decidable (Unprimed x) := inferInstanceAs (Decidable (_ ∉ _))

theorem unprimed_stem (x : Name) : Unprimed (stem x) := by
  intro h
  rw [stem, String.toList_ofList] at h
  simpa using List.mem_takeWhile_imp h

theorem Unprimed.forall_ne {b : Name} (hb : Unprimed b) :
    ∀ c ∈ b.toList, decide (c ≠ '\'') = true := by
  rintro c hc
  exact decide_eq_true fun h ↦ hb (h ▸ hc)

/-- The stem of a name ends right before its first `'`. -/
theorem stem_append {b : Name} (hb : Unprimed b) (tail : String) : stem (b ++ "'" ++ tail) = b := by
  have hlist : (b ++ "'" ++ tail).toList = b.toList ++ '\'' :: tail.toList := by simp
  rw [stem, hlist, List.takeWhile_append_of_pos hb.forall_ne]
  simp

theorem stem_of_unprimed {b : Name} (hb : Unprimed b) : stem b = b := by
  rw [stem, List.takeWhile_eq_self_iff.2 hb.forall_ne, String.ofList_toList]

theorem toString_inj {k l : Nat} (h : toString k = toString l) : k = l := by
  have hdigits : Nat.toDigits 10 k = Nat.toDigits 10 l := by
    simpa only [Nat.toString_eq_repr, Nat.toList_repr] using congrArg String.toList h
  simpa using congrArg (Nat.ofDigitChars 10 · 0) hdigits

/-- The stem and the number of a fresh name can be read off it. -/
theorem primed_inj {b c : Name} {k l : Nat} (hb : Unprimed b) (hc : Unprimed c)
    (h : b ++ "'" ++ toString k = c ++ "'" ++ toString l) : b = c ∧ k = l := by
  obtain rfl : b = c := by rw [← stem_append hb (toString k), h, stem_append hc]
  exact ⟨rfl, toString_inj ((String.append_right_inj _).1 h)⟩

theorem numbered_inj {x y : Name} {k l : Nat} (h : numbered x k = numbered y l) :
    stem x = stem y ∧ k = l :=
  primed_inj (unprimed_stem x) (unprimed_stem y) h

theorem toList_numbered (y : Name) (k : Nat) :
    (numbered y k).toList = (stem y).toList ++ '\'' :: Nat.toDigits 10 k := by
  simp [numbered, Nat.toString_eq_repr, Nat.toList_repr]

/-! ### Safe names -/

/-- A name that is not drawn from number `n` on. -/
def SafeAt (n : Nat) (x : Name) : Prop :=
  ∀ (b : Name) (k : Nat), Unprimed b → n ≤ k → x ≠ b ++ "'" ++ toString k

theorem SafeAt.mono {m n : Nat} {x : Name} (h : SafeAt m x) (hmn : m ≤ n) : SafeAt n x :=
  fun b k hb hk ↦ h b k hb (Nat.le_trans hmn hk)

theorem safeAt_of_unprimed {x : Name} (h : Unprimed x) (n : Nat) : SafeAt n x := by
  rintro b k - - rfl
  exact h (by simp)

/-- A fresh name is safe as soon as its number has been passed. -/
theorem safeAt_numbered (y : Name) {k n : Nat} (h : k < n) : SafeAt n (numbered y k) := by
  intro b l hb hl heq
  rw [numbered] at heq
  obtain ⟨-, rfl⟩ := primed_inj (unprimed_stem y) hb heq
  omega

theorem safeAt_fresh {s : Supply} {n : Nat} (h : s.next < n) (y : Name) : SafeAt n (s.fresh y) :=
  safeAt_numbered y h

theorem SafeAt.ne_fresh {s : Supply} {x : Name} (h : SafeAt s.next x) (y : Name) :
    x ≠ s.fresh y :=
  h (stem y) s.next (unprimed_stem y) (Nat.le_refl _)

end Supply

/-! ### The names of an expression -/

namespace Expr

/-- All names that occur, as variables or as binders, from left to right. -/
def names : Expr → List Name
  | var x => [x]
  | lam x body => x :: body.names
  | app f a => f.names ++ a.names

/-- No name of the expression is drawn from number `n` on. -/
def SafeAt (n : Nat) (e : Expr) : Prop := ∀ x ∈ e.names, Supply.SafeAt n x

/-- No name of the expression has a `'` in it. -/
def Unprimed (e : Expr) : Prop := ∀ x ∈ e.names, Supply.Unprimed x

instance (e : Expr) : Decidable e.Unprimed := inferInstanceAs (Decidable (∀ x ∈ e.names, _))

@[simp]
theorem safeAt_var {n : Nat} {x : Name} : (var x).SafeAt n ↔ Supply.SafeAt n x := by
  simp [SafeAt, names]

theorem safeAt_var_fresh (s : Supply) (y : Name) : (var (s.fresh y)).SafeAt (s.next + 1) :=
  safeAt_var.2 (Supply.safeAt_fresh (Nat.lt_succ_self s.next) y)

@[simp]
theorem safeAt_lam {n : Nat} {x : Name} {body : Expr} :
    (lam x body).SafeAt n ↔ Supply.SafeAt n x ∧ body.SafeAt n := by
  simp [SafeAt, names]

@[simp]
theorem safeAt_app {n : Nat} {f a : Expr} : (app f a).SafeAt n ↔ f.SafeAt n ∧ a.SafeAt n := by
  simp [SafeAt, names, or_imp, forall_and]

theorem SafeAt.mono {m n : Nat} {e : Expr} (h : e.SafeAt m) (hmn : m ≤ n) : e.SafeAt n :=
  fun x hx ↦ (h x hx).mono hmn

theorem Unprimed.safeAt {e : Expr} (h : e.Unprimed) (n : Nat) : e.SafeAt n :=
  fun x hx ↦ Supply.safeAt_of_unprimed (h x hx) n

theorem mem_names_of_isFree {x : Name} {e : Expr} (h : e.isFree x) : x ∈ e.names := by
  induction e with
  | var y =>
    obtain rfl : y = x := by simpa [isFree] using h
    exact List.mem_singleton_self y
  | lam y body ih =>
    rw [isFree, Bool.and_eq_true] at h
    exact List.mem_cons_of_mem y (ih h.2)
  | app f a ihf iha =>
    rw [isFree, Bool.or_eq_true] at h
    rcases h with h | h
    · exact List.mem_append_left _ (ihf h)
    · exact List.mem_append_right _ (iha h)

/-- The name that is drawn next does not occur free in what is safe. -/
theorem SafeAt.not_isFree_fresh {s : Supply} {e : Expr} (h : e.SafeAt s.next) (y : Name) :
    e.isFree (s.fresh y) = false := by
  rw [Bool.eq_false_iff]
  intro hfree
  exact (h _ (mem_names_of_isFree hfree)).ne_fresh y rfl

end Expr

end UntypedLambda
