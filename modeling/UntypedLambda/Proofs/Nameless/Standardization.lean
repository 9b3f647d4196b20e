import UntypedLambda.Proofs.Nameless.Redex

/-!
# Leftmost reduction finds every normal form

If a term reduces to a normal form at all, by steps at whatever places, then contracting the first
redex over and over ends in that normal form (`exists_reduct?_iff_betaStar`).

The proof reorders a reduction instead of following it. A *standard* reduction first takes steps
at the head of the term, outside of every abstraction and every operand (`WeakHead`), then goes on
in the parts, and never comes back. Two facts carry the argument:

* a standard reduction can be prolonged by a step at any place and still be made standard
  (`Standard.tail`). The one hard case is a redex that the reduction itself has created; there the
  contraction moves to the front, and what has been done in the body and in the operand is done
  after it, in their instance (`Standard.instantiate`);
* a standard reduction that ends in a normal form is a leftmost one (`Standard.leftmostStar`). Its
  head steps contract the first redex, and in an application that stays one the operator is done
  before the operand.

Leftmost steps are a function, so no confluence is needed to know that the normal form met is the
given one.
-/

namespace UntypedLambda

namespace Nameless

/-! ### Steps at the head -/

/-- One step at the head: neither under an abstraction nor in an operand. -/
inductive WeakHead : Nameless → Nameless → Prop
  | redex (b a : Nameless) : WeakHead (app (lam b) a) (b.instantiate a)
  | operator {f f' : Nameless} (a : Nameless) (h : WeakHead f f') : WeakHead (app f a) (app f' a)

theorem WeakHead.isLam_eq_false {t u : Nameless} (h : WeakHead t u) : t.isLam = false := by
  cases h <;> rfl

theorem WeakHead.rename {t u : Nameless} (h : WeakHead t u) (ξ : Nat → Nat) :
    WeakHead (t.rename ξ) (u.rename ξ) := by
  induction h with
  | redex b a =>
    rw [rename_instantiate]
    exact .redex _ _
  | operator a _ ih => exact .operator _ ih

theorem WeakHead.subst {t u : Nameless} (h : WeakHead t u) (σ : Nat → Nameless) :
    WeakHead (t.subst σ) (u.subst σ) := by
  induction h with
  | redex b a =>
    rw [subst_instantiate]
    exact .redex _ _
  | operator a _ ih => exact .operator _ ih

/-- The redex at the head is the first one in pre-order. -/
theorem WeakHead.leftmost?_eq {t u : Nameless} (h : WeakHead t u) : t.leftmost? = some u := by
  induction h with
  | redex b a => exact leftmost?_redex b a
  | operator a h ih => rw [leftmost?_app a h.isLam_eq_false, ih, Option.map_some, Option.some_or]

/-! ### Standard reductions -/

/-- A reduction that takes its steps at the head first and then goes on in the parts. -/
inductive Standard : Nameless → Nameless → Prop
  | bound (i : Nat) : Standard (bound i) (bound i)
  | free (x : Name) : Standard (free x) (free x)
  | lam {b b' : Nameless} (hb : Standard b b') : Standard (lam b) (lam b')
  | app {f f' a a' : Nameless} (hf : Standard f f') (ha : Standard a a') :
      Standard (app f a) (app f' a')
  | head {t u v : Nameless} (h : WeakHead t u) (hu : Standard u v) : Standard t v

theorem Standard.refl (t : Nameless) : Standard t t := by
  induction t with
  | bound i => exact .bound i
  | free x => exact .free x
  | lam b ih => exact .lam ih
  | app f a ihf iha => exact .app ihf iha

theorem Standard.rename {t u : Nameless} (h : Standard t u) (ξ : Nat → Nat) :
    Standard (t.rename ξ) (u.rename ξ) := by
  induction h generalizing ξ with
  | bound i => exact .bound (ξ i)
  | free x => exact .free x
  | lam _ ih => exact .lam (ih (under ξ))
  | app _ _ ihf iha => exact .app (ihf ξ) (iha ξ)
  | head h _ ih => exact .head (h.rename ξ) (ih ξ)

theorem Standard.up {σ τ : Nat → Nameless} (h : ∀ i, Standard (σ i) (τ i)) (i : Nat) :
    Standard (up σ i) (up τ i) := by
  cases i with
  | zero => exact .bound 0
  | succ i => exact (h i).rename Nat.succ

theorem Standard.subst {t u : Nameless} (h : Standard t u) {σ τ : Nat → Nameless}
    (hσ : ∀ i, Standard (σ i) (τ i)) : Standard (t.subst σ) (u.subst τ) := by
  induction h generalizing σ τ with
  | bound i => exact hσ i
  | free x => exact .free x
  | lam _ ih => exact .lam (ih (Standard.up hσ))
  | app _ _ ihf iha => exact .app (ihf hσ) (iha hσ)
  | head h _ ih => exact .head (h.subst σ) (ih hσ)

theorem Standard.instantiate {b b' a a' : Nameless} (hb : Standard b b') (ha : Standard a a') :
    Standard (b.instantiate a) (b'.instantiate a') := by
  refine hb.subst fun i ↦ ?_
  cases i with
  | zero => exact ha
  | succ i => exact .bound i

/-- An operator that reduces to an abstraction does so at the head, and then there is a redex to
contract at the head too. -/
theorem Standard.app_instantiate {f b a a' : Nameless} (hf : Standard f (.lam b))
    (ha : Standard a a') : Standard (.app f a) (b.instantiate a') := by
  generalize hg : Nameless.lam b = g at hf
  -- the head steps of the operator are head steps of the application, and after them the redex
  -- is there
  induction hf with
  | bound i => cases hg
  | free x => cases hg
  | app _ _ => cases hg
  | lam hb _ =>
    cases hg
    exact .head (.redex _ _) (hb.instantiate ha)
  | head h _ ih => exact .head (.operator a h) (ih hg)

/-- A standard reduction can be prolonged by a step at any place. -/
theorem Standard.tail {t u v : Nameless} (h : Standard t u) (huv : Beta u v) : Standard t v := by
  induction h generalizing v with
  | bound i => cases huv
  | free x => cases huv
  | lam _ ih =>
    cases huv with
    | lam h => exact .lam (ih h)
  | app hf ha ihf iha =>
    cases huv with
    | redex b a' => exact hf.app_instantiate ha  -- a redex that the reduction has created
    | operator _ h => exact .app (ihf h) ha
    | operand _ h => exact .app hf (iha h)
  | head h _ ih => exact .head h (ih huv)

/-- Every reduction can be made standard. -/
theorem standard_of_betaStar {t u : Nameless} (h : BetaStar t u) : Standard t u := by
  induction h with
  | refl => exact .refl t
  | tail _ huv ih => exact ih.tail huv

/-! ### From standard to leftmost -/

/-- Any number of leftmost steps. -/
abbrev LeftmostStar : Nameless → Nameless → Prop :=
  Relation.ReflTransGen fun t u ↦ t.leftmost? = some u

theorem LeftmostStar.lam {b b' : Nameless} (h : LeftmostStar b b') :
    LeftmostStar (.lam b) (.lam b') := by
  induction h with
  | refl => exact .refl
  | tail _ hstep ih => exact ih.tail (by rw [leftmost?_lam, hstep, Option.map_some])

/-- An abstraction stays one, so what ends in no abstraction was never one. -/
theorem isLam_of_leftmost? {t u : Nameless} (h : t.leftmost? = some u) (hu : u.isLam = false) :
    t.isLam = false := by
  rcases ht : t.isLam with - | -
  · rfl
  · obtain ⟨b, rfl⟩ := exists_lam_of_isLam ht
    rw [leftmost?_lam] at h
    obtain ⟨b', -, rfl⟩ := Option.map_eq_some_iff.1 h
    cases hu

theorem LeftmostStar.isLam_eq_false {t u : Nameless} (h : LeftmostStar t u)
    (hu : u.isLam = false) : t.isLam = false := by
  induction h using Relation.ReflTransGen.head_induction_on with
  | refl => exact hu
  | head hstep _ ih => exact isLam_of_leftmost? hstep ih

theorem LeftmostStar.operator {f f' : Nameless} (h : LeftmostStar f f') (hf' : f'.isLam = false)
    (a : Nameless) : LeftmostStar (.app f a) (.app f' a) := by
  -- from the end backwards, since that the operator is no abstraction is known of the end only
  induction h using Relation.ReflTransGen.head_induction_on with
  | refl => exact .refl
  | @head g g' hstep hrest ih =>
    have hg : g.isLam = false := isLam_of_leftmost? hstep (LeftmostStar.isLam_eq_false hrest hf')
    refine .head ?_ ih
    rw [leftmost?_app a hg, hstep, Option.map_some, Option.some_or]

theorem LeftmostStar.operand {f a a' : Nameless} (hf : f.Normal) (hlam : f.isLam = false)
    (h : LeftmostStar a a') : LeftmostStar (.app f a) (.app f a') := by
  induction h with
  | refl => exact .refl
  | @tail b c _ hstep ih =>
    refine ih.tail ?_
    rw [leftmost?_app b hlam, leftmost?_eq_none_iff.2 hf, hstep, Option.map_none, Option.none_or,
      Option.map_some]

theorem Normal.of_lam {b : Nameless} (h : (lam b).Normal) : b.Normal :=
  fun _ hu ↦ h _ (.lam hu)

theorem Normal.of_app {f a : Nameless} (h : (app f a).Normal) :
    f.isLam = false ∧ f.Normal ∧ a.Normal := by
  refine ⟨?_, fun _ hu ↦ h _ (.operator a hu), fun _ hu ↦ h _ (.operand f hu)⟩
  rcases hf : f.isLam with - | -
  · rfl
  · obtain ⟨b, rfl⟩ := exists_lam_of_isLam hf
    exact absurd (.redex b a) (h _)

/-- A standard reduction to a normal form contracts the first redex in each of its steps. -/
theorem Standard.leftmostStar {t u : Nameless} (h : Standard t u) (hu : u.Normal) :
    LeftmostStar t u := by
  induction h with
  | bound i => exact .refl
  | free x => exact .refl
  | lam _ ih => exact (ih hu.of_lam).lam
  | app _ _ ihf iha =>
    obtain ⟨hlam, hf', ha'⟩ := hu.of_app
    exact ((ihf hf').operator hlam _).trans (LeftmostStar.operand hf' hlam (iha ha'))
  | head h _ ih => exact .head h.leftmost?_eq (ih hu)

/-! ### The numbered reducts -/

theorem exists_reduct?_of_leftmostStar {t u : Nameless} (h : LeftmostStar t u) :
    ∃ k, reduct? k t = some u := by
  induction h using Relation.ReflTransGen.head_induction_on with
  | refl => exact ⟨0, rfl⟩
  | head hstep _ ih =>
    obtain ⟨k, hk⟩ := ih
    exact ⟨k + 1, by rw [reduct?, hstep, Option.bind_some, hk]⟩

theorem betaStar_of_reduct? {k : Nat} {t u : Nameless} (h : reduct? k t = some u) :
    BetaStar t u := by
  induction k generalizing t with
  | zero =>
    cases h
    exact .refl
  | succ k ih =>
    obtain ⟨t', hstep, hrest⟩ := Option.bind_eq_some_iff.1 h
    exact .head (beta_of_leftmost? hstep) (ih hrest)

/-- **Leftmost reduction finds every normal form.** A normal form is reached by beta reduction
exactly when it is reached by some number of contractions of the first redex. -/
theorem exists_reduct?_iff_betaStar {t u : Nameless} (hu : u.Normal) :
    (∃ k, reduct? k t = some u) ↔ BetaStar t u := by
  refine ⟨fun ⟨k, hk⟩ ↦ betaStar_of_reduct? hk, fun h ↦ ?_⟩
  exact exists_reduct?_of_leftmostStar ((standard_of_betaStar h).leftmostStar hu)

/-- Without a normal form there is a reduct of every number. -/
theorem exists_reduct?_of_not_normalizing {t : Nameless}
    (h : ¬ ∃ u, BetaStar t u ∧ u.Normal) (k : Nat) :
    ∃ u, reduct? k t = some u := by
  induction k generalizing t with
  | zero => exact ⟨t, rfl⟩
  | succ k ih =>
    rcases hstep : t.leftmost? with - | t'
    · exact absurd ⟨t, .refl, leftmost?_eq_none_iff.1 hstep⟩ h
    · have ht' : ¬ ∃ u, BetaStar t' u ∧ u.Normal := by
        rintro ⟨u, hu, hnormal⟩
        exact h ⟨u, .head (beta_of_leftmost? hstep) hu, hnormal⟩
      obtain ⟨u, hu⟩ := ih ht'
      exact ⟨u, by rw [reduct?, hstep, Option.bind_some, hu]⟩

end Nameless

end UntypedLambda
