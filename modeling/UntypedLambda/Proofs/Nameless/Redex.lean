import Mathlib.Logic.Relation
import UntypedLambda.Proofs.Nameless

/-!
# Redexes and their contraction

A redex is an abstraction that is applied. Where it stands in a term is a path from the root, and
`redexes` lists the paths of all redexes in pre-order: a node before its parts, the operator
before the operand. `contractAt` contracts the redex at a path and touches nothing else.

Reduction is said twice. `Beta` is the relation of the textbooks, one step at any place;
`leftmost?` is a function, the contraction of the first redex of the list. Both are about the same
list (`beta_iff_contractAt`), so a term is normal exactly when the list is empty
(`normal_iff_redexes`) and exactly when there is no leftmost step (`leftmost?_eq_none_iff`).
-/

namespace UntypedLambda

namespace Nameless

/-! ### Places in a term -/

/-- One step of the way from a term into one of its parts. -/
inductive Branch where
  | body
  | operator
  | operand
deriving DecidableEq, Repr

/-- The place of a part: the way to it from the root. -/
abbrev Position := List Branch

/-- The places of all redexes, in pre-order. -/
def redexes : Nameless → List Position
  | bound _ => []
  | free _ => []
  | lam b => b.redexes.map (.body :: ·)
  | app f a =>
    (if f.isLam then [[]] else []) ++ f.redexes.map (.operator :: ·) ++
      a.redexes.map (.operand :: ·)

/-- Contracts the redex at a place. Nothing changes where there is none. -/
def contractAt : Nameless → Position → Nameless
  | app (lam b) a, [] => b.instantiate a
  | lam b, .body :: p => lam (b.contractAt p)
  | app f a, .operator :: p => app (f.contractAt p) a
  | app f a, .operand :: p => app f (a.contractAt p)
  | t, _ => t

/-- Contracts the first redex in pre-order, if there is a redex. -/
def leftmost? (t : Nameless) : Option Nameless := t.redexes.head?.map t.contractAt

/-- The term after `k` contractions of the first redex, if there are so many. -/
def reduct? : Nat → Nameless → Option Nameless
  | 0, t => some t
  | k + 1, t => t.leftmost?.bind (reduct? k)

theorem contractAt_operator (f a : Nameless) (p : Position) :
    (app f a).contractAt (.operator :: p) = app (f.contractAt p) a := by
  cases f <;> rfl

theorem contractAt_operand (f a : Nameless) (p : Position) :
    (app f a).contractAt (.operand :: p) = app f (a.contractAt p) := by
  cases f <;> rfl

theorem exists_lam_of_isLam {t : Nameless} (h : t.isLam = true) : ∃ b, t = lam b := by
  cases t with
  | lam b => exact ⟨b, rfl⟩
  | _ => cases h

/-! ### The leftmost step, constructor by constructor -/

theorem leftmost?_lam (b : Nameless) : (lam b).leftmost? = b.leftmost?.map lam := by
  simp only [leftmost?, redexes, List.head?_map, Option.map_map]
  rfl

theorem leftmost?_redex (b a : Nameless) : (app (lam b) a).leftmost? = some (b.instantiate a) :=
  rfl

/-- An application that is no redex itself is reduced in its operator first. -/
theorem leftmost?_app {f : Nameless} (a : Nameless) (hf : f.isLam = false) :
    (app f a).leftmost? = (f.leftmost?.map (app · a)).or (a.leftmost?.map (app f)) := by
  simp only [leftmost?, redexes, hf, Bool.false_eq_true, if_false, List.nil_append,
    List.head?_append, List.head?_map, Option.map_or, Option.map_map]
  congr 2
  · funext p
    exact contractAt_operator f a p
  · funext p
    exact contractAt_operand f a p

/-! ### Reduction at any place -/

/-- One step of beta reduction, at any place. -/
inductive Beta : Nameless → Nameless → Prop
  | redex (b a : Nameless) : Beta (app (lam b) a) (b.instantiate a)
  | lam {b b' : Nameless} (h : Beta b b') : Beta (lam b) (lam b')
  | operator {f f' : Nameless} (a : Nameless) (h : Beta f f') : Beta (app f a) (app f' a)
  | operand (f : Nameless) {a a' : Nameless} (h : Beta a a') : Beta (app f a) (app f a')

/-- Any number of steps of beta reduction. -/
abbrev BetaStar : Nameless → Nameless → Prop := Relation.ReflTransGen Beta

/-- Whether no step of beta reduction is possible. -/
def Normal (t : Nameless) : Prop := ∀ u, ¬ Beta t u

theorem contractAt_of_beta {t u : Nameless} (h : Beta t u) :
    ∃ p ∈ t.redexes, t.contractAt p = u := by
  induction h with
  | redex b a => exact ⟨[], by simp [redexes, isLam], rfl⟩
  | lam h ih =>
    obtain ⟨p, hp, rfl⟩ := ih
    exact ⟨.body :: p, by simpa [redexes] using hp, rfl⟩
  | operator a h ih =>
    obtain ⟨p, hp, rfl⟩ := ih
    exact ⟨.operator :: p, by simp [redexes, hp], contractAt_operator _ a p⟩
  | operand f h ih =>
    obtain ⟨p, hp, rfl⟩ := ih
    exact ⟨.operand :: p, by simp [redexes, hp], contractAt_operand f _ p⟩

theorem beta_contractAt {t : Nameless} {p : Position} (hp : p ∈ t.redexes) :
    Beta t (t.contractAt p) := by
  induction t generalizing p with
  | bound i => simp [redexes] at hp
  | free x => simp [redexes] at hp
  | lam b ih =>
    obtain ⟨q, hq, rfl⟩ := List.mem_map.1 hp
    exact .lam (ih hq)
  | app f a ihf iha =>
    rw [redexes, List.mem_append, List.mem_append] at hp
    rcases hp with (hp | hp) | hp
    · -- the root is listed only where the operator is an abstraction
      rcases hf : f.isLam with - | -
      · simp [hf] at hp
      · obtain ⟨b, rfl⟩ := exists_lam_of_isLam hf
        obtain rfl : p = [] := by simpa [hf] using hp
        exact .redex b a
    · obtain ⟨q, hq, rfl⟩ := List.mem_map.1 hp
      rw [contractAt_operator]
      exact .operator a (ihf hq)
    · obtain ⟨q, hq, rfl⟩ := List.mem_map.1 hp
      rw [contractAt_operand]
      exact .operand f (iha hq)

/-- The steps of beta reduction are the contractions of the listed redexes. -/
theorem beta_iff_contractAt {t u : Nameless} : Beta t u ↔ ∃ p ∈ t.redexes, t.contractAt p = u := by
  refine ⟨contractAt_of_beta, ?_⟩
  rintro ⟨p, hp, rfl⟩
  exact beta_contractAt hp

theorem normal_iff_redexes {t : Nameless} : t.Normal ↔ t.redexes = [] := by
  rw [List.eq_nil_iff_forall_not_mem]
  refine ⟨fun h p hp ↦ h _ (beta_contractAt hp), fun h u hu ↦ ?_⟩
  obtain ⟨p, hp, -⟩ := contractAt_of_beta hu
  exact h p hp

theorem leftmost?_eq_none_iff {t : Nameless} : t.leftmost? = none ↔ t.Normal := by
  rw [normal_iff_redexes, leftmost?, Option.map_eq_none_iff, List.head?_eq_none_iff]

theorem beta_of_leftmost? {t u : Nameless} (h : t.leftmost? = some u) : Beta t u := by
  obtain ⟨p, hp, rfl⟩ := Option.map_eq_some_iff.1 h
  exact beta_contractAt (List.mem_of_head? hp)

end Nameless

end UntypedLambda
