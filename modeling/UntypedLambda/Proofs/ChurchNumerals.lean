import Mathlib.Logic.Function.Iterate
import UntypedLambda.Proofs.Normalization

/-!
# Arithmetic of Church numerals

A number is the abstraction that applies its first argument so many times to its second one. The
successor, the sum and the product of numerals are normalized to the numeral of the number that they
stand for, from every supply (`normalize_church_arithmetic`).

Normalization takes its steps in one order, and in that order the terms between the first and the
last are not handy: in a product, a numeral is unfolded while its operand is still to be reduced.
They need not be followed. It is enough to reduce to the numeral in any order, since a numeral is
normal (`normal_church`), and a normal form that is reached at all is found by leftmost steps
(`normalizesTo_of_betaStar`).

In the nameless form a numeral has no dangling index, so it goes under abstractions as it is
(`lift_church`, `subst_church`). There is one fact about it: given two arguments, it applies the
first so many times to the second (`betaStar_church`). The three operations are that and their own
redexes.
-/

namespace UntypedLambda

namespace Nameless

/-! ### Repeated application -/

theorem rename_iterate (ξ : Nat → Nat) (n : Nat) (f a : Nameless) :
    ((app f)^[n] a).rename ξ = (app (f.rename ξ))^[n] (a.rename ξ) := by
  induction n with
  | zero => rfl
  | succ n ih => rw [Function.iterate_succ_apply', Function.iterate_succ_apply', rename, ih]

theorem subst_iterate (σ : Nat → Nameless) (n : Nat) (f a : Nameless) :
    ((app f)^[n] a).subst σ = (app (f.subst σ))^[n] (a.subst σ) := by
  induction n with
  | zero => rfl
  | succ n ih => rw [Function.iterate_succ_apply', Function.iterate_succ_apply', subst, ih]

theorem redexes_iterate (n i j : Nat) : ((app (bound i))^[n] (bound j)).redexes = [] := by
  induction n with
  | zero => rfl
  | succ n ih =>
    rw [Function.iterate_succ_apply', redexes, ih]
    rfl

/-! ### Reduction in parts -/

theorem beta_of_instantiate_eq {b a t : Nameless} (h : b.instantiate a = t) :
    Beta (app (lam b) a) t :=
  h ▸ .redex b a

theorem betaStar_lam {b b' : Nameless} (h : BetaStar b b') : BetaStar (lam b) (lam b') :=
  h.lift lam fun _ _ ↦ .lam

theorem betaStar_operand (f : Nameless) {a a' : Nameless} (h : BetaStar a a') :
    BetaStar (app f a) (app f a') :=
  h.lift (app f) fun _ _ ↦ .operand f

/-! ### Numerals -/

/-- The numeral of `n`: its first argument applied `n` times to its second one. -/
def church (n : Nat) : Nameless := lam (lam ((app (bound 1))^[n] (bound 0)))

@[simp]
theorem lift_church (n : Nat) : (church n).lift = church n := by
  rw [church, lift, rename, rename, rename_iterate]
  rfl

@[simp]
theorem subst_church (σ : Nat → Nameless) (n : Nat) : (church n).subst σ = church n := by
  rw [church, subst, subst, subst_iterate]
  rfl

theorem normal_church (n : Nat) : (church n).Normal := by
  rw [normal_iff_redexes, church, redexes, redexes, redexes_iterate]
  rfl

theorem beta_church (n : Nat) (f : Nameless) :
    Beta (app (church n) f) (lam ((app f.lift)^[n] (bound 0))) := by
  refine beta_of_instantiate_eq ?_
  rw [instantiate, subst, subst_iterate]
  rfl

/-- A numeral applies its first argument so many times to its second one. -/
theorem betaStar_church (n : Nat) (f a : Nameless) :
    BetaStar (app (app (church n) f) a) ((app f)^[n] a) := by
  have hlast : Beta (app (lam ((app f.lift)^[n] (bound 0))) a) ((app f)^[n] a) := by
    refine beta_of_instantiate_eq ?_
    rw [instantiate, subst_iterate, ← instantiate, instantiate_lift]
    rfl
  exact .head (.operator a (beta_church n f)) (.single hlast)

/-- Repeating what applies `f` so many times applies `f` as often as the product says. -/
theorem betaStar_iterate_church (m n : Nat) (f a : Nameless) :
    BetaStar ((app (app (church n) f))^[m] a) ((app f)^[m * n] a) := by
  induction m with
  | zero =>
    rw [Nat.zero_mul]
    exact .refl
  | succ m ih =>
    have hlast :
        BetaStar (app (app (church n) f) ((app f)^[m * n] a)) ((app f)^[(m + 1) * n] a) := by
      rw [Nat.succ_mul, Nat.add_comm, Function.iterate_add_apply]
      exact betaStar_church n f _
    rw [Function.iterate_succ_apply']
    exact (betaStar_operand _ ih).trans hlast

end Nameless

namespace Expr

theorem Unprimed.app {f a : Expr} (hf : f.Unprimed) (ha : a.Unprimed) :
    (Expr.app f a).Unprimed :=
  List.forall_mem_append.2 ⟨hf, ha⟩

namespace Church

/-! ### The operations -/

/-- The numeral of `n`, written with the names `s` and `z`. -/
def numeral (n : Nat) : Expr := lams ["s", "z"] ((app (var "s"))^[n] (var "z"))

/-- The numeral behind a numeral. -/
def succ : Expr :=
  lams ["n", "s", "z"] (app (var "s") (app (app (var "n") (var "s")) (var "z")))

/-- The sum of two numerals. -/
def plus : Expr :=
  lams ["m", "n", "s", "z"]
    (app (app (var "m") (var "s")) (app (app (var "n") (var "s")) (var "z")))

/-- The product of two numerals. -/
def mult : Expr := lams ["m", "n", "s"] (app (var "m") (app (var "n") (var "s")))

example : read "λs z. s (s z)" = .ok (numeral 2) ∧ read "λn s z. s (n s z)" = .ok succ ∧
    read "λm n s z. m s (n s z)" = .ok plus ∧ read "λm n s. m (n s)" = .ok mult := by
  decide +kernel

theorem nameless_numeral (n : Nat) : (numeral n).nameless = .church n := by
  have hbody : ((app (var "s"))^[n] (var "z")).namelessIn ["z", "s"] =
      (Nameless.app (.bound 1))^[n] (.bound 0) := by
    induction n with
    | zero => decide
    | succ n ih =>
      rw [Function.iterate_succ_apply', Function.iterate_succ_apply', namelessIn, ih]
      congr 1
  show Nameless.lam (.lam (((app (var "s"))^[n] (var "z")).namelessIn ["z", "s"])) = _
  rw [hbody, Nameless.church]

theorem unprimed_numeral (n : Nat) : (numeral n).Unprimed := by
  have hbody : ((app (var "s"))^[n] (var "z")).Unprimed := by
    induction n with
    | zero => decide
    | succ n ih =>
      have hs : (var "s").Unprimed := by decide
      rw [Function.iterate_succ_apply']
      exact hs.app ih
  rw [Expr.Unprimed, numeral, names_lams, List.forall_mem_append]
  exact ⟨by decide, hbody⟩

section Reduction

open Nameless

theorem betaStar_succ (n : Nat) : BetaStar (.app succ.nameless (church n)) (church (n + 1)) := by
  have hredex : Beta (.app succ.nameless (church n))
      (.lam (.lam (.app (bound 1) (.app (.app (church n) (bound 1)) (bound 0))))) := by
    refine beta_of_instantiate_eq ?_
    show Nameless.lam (.lam (.app (bound 1)
      (.app (.app (church n).lift.lift (bound 1)) (bound 0)))) = _
    rw [lift_church, lift_church]
  have hbody : BetaStar (.app (bound 1) (.app (.app (church n) (bound 1)) (bound 0)))
      ((Nameless.app (bound 1))^[n + 1] (bound 0)) := by
    rw [Function.iterate_succ_apply']
    exact betaStar_operand (bound 1) (betaStar_church n (bound 1) (bound 0))
  exact .head hredex (betaStar_lam (betaStar_lam hbody))

theorem betaStar_plus (m n : Nat) :
    BetaStar (.app (.app plus.nameless (church m)) (church n)) (church (m + n)) := by
  have hfirst : Beta (.app plus.nameless (church m))
      (.lam (.lam (.lam (.app (.app (church m) (bound 1))
        (.app (.app (bound 2) (bound 1)) (bound 0)))))) := by
    refine beta_of_instantiate_eq ?_
    show Nameless.lam (.lam (.lam (.app (.app (church m).lift.lift.lift (bound 1))
      (.app (.app (bound 2) (bound 1)) (bound 0))))) = _
    rw [lift_church, lift_church, lift_church]
  have hsecond : Beta
      (.app (.lam (.lam (.lam (.app (.app (church m) (bound 1))
        (.app (.app (bound 2) (bound 1)) (bound 0)))))) (church n))
      (.lam (.lam (.app (.app (church m) (bound 1))
        (.app (.app (church n) (bound 1)) (bound 0))))) := by
    refine beta_of_instantiate_eq ?_
    show Nameless.lam (.lam (.app (.app ((church m).subst _) (bound 1))
      (.app (.app (church n).lift.lift (bound 1)) (bound 0)))) = _
    rw [subst_church, lift_church, lift_church]
  have hbody : BetaStar
      (.app (.app (church m) (bound 1)) (.app (.app (church n) (bound 1)) (bound 0)))
      ((Nameless.app (bound 1))^[m + n] (bound 0)) := by
    rw [Function.iterate_add_apply]
    exact (betaStar_operand _ (betaStar_church n (bound 1) (bound 0))).trans
      (betaStar_church m (bound 1) _)
  exact .head (.operator (church n) hfirst) (.head hsecond (betaStar_lam (betaStar_lam hbody)))

theorem betaStar_mult (m n : Nat) :
    BetaStar (.app (.app mult.nameless (church m)) (church n)) (church (m * n)) := by
  have hfirst : Beta (.app mult.nameless (church m))
      (.lam (.lam (.app (church m) (.app (bound 1) (bound 0))))) := by
    refine beta_of_instantiate_eq ?_
    show Nameless.lam (.lam (.app (church m).lift.lift (.app (bound 1) (bound 0)))) = _
    rw [lift_church, lift_church]
  have hsecond : Beta (.app (.lam (.lam (.app (church m) (.app (bound 1) (bound 0))))) (church n))
      (.lam (.app (church m) (.app (church n) (bound 0)))) := by
    refine beta_of_instantiate_eq ?_
    show Nameless.lam (.app ((church m).subst _) (.app (church n).lift (bound 0))) = _
    rw [subst_church, lift_church]
  -- the numeral of `m` is contracted before its operand is reduced, so the operand is lifted
  have hthird : Beta (.app (church m) (.app (church n) (bound 0)))
      (.lam ((Nameless.app (.app (church n) (bound 1)))^[m] (bound 0))) := by
    have hlift : (Nameless.app (church n) (bound 0)).lift = .app (church n) (bound 1) := by
      show Nameless.app (church n).lift (bound 1) = _
      rw [lift_church]
    rw [← hlift]
    exact beta_church m _
  have hbody : BetaStar (.app (church m) (.app (church n) (bound 0)))
      (.lam ((Nameless.app (bound 1))^[m * n] (bound 0))) :=
    .head hthird (betaStar_lam (betaStar_iterate_church m n (bound 1) (bound 0)))
  exact .head (.operator (church n) hfirst) (.head hsecond (betaStar_lam hbody))

end Reduction

/-! ### Normalization -/

/-- Under every limit from some number of steps on, and without a limit, the expression is
normalized whatever the supply is, and the result has the nameless form of `target`. -/
def NormalizesTo (e target : Expr) : Prop :=
  ∃ m, ∀ (s : Supply) (limit : Option Nat), (∀ m', limit = some m' → m ≤ m') →
    ∀ budget, m < budget →
      ∃ r s', e.normalize limit budget s = some (.ok r, s') ∧ r.nameless = target.nameless

/-- Reduction at any places to a numeral is enough. -/
theorem normalizesTo_of_betaStar {e : Expr} (he : e.Unprimed) {n : Nat}
    (h : Nameless.BetaStar e.nameless (.church n)) : NormalizesTo e (numeral n) := by
  have hnormal := Nameless.normal_church n
  obtain ⟨k, hk⟩ := (Nameless.exists_reduct?_iff_betaStar hnormal).2 h
  refine ⟨k, fun s limit hlimit budget hbudget ↦ ?_⟩
  rw [nameless_numeral]
  exact normalizeFrom_of_reduct? (he.safeAt _) hk hnormal
    (fun m hm ↦ by rw [Nat.zero_add]; exact hlimit m hm) hbudget

/-- The same of an operation on two numerals. -/
theorem normalizesTo_of_betaStar_app {op : Expr} (hop : op.Unprimed) {m n k : Nat}
    (h : Nameless.BetaStar (.app (.app op.nameless (.church m)) (.church n)) (.church k)) :
    NormalizesTo (app (app op (numeral m)) (numeral n)) (numeral k) := by
  refine normalizesTo_of_betaStar ((hop.app (unprimed_numeral m)).app (unprimed_numeral n)) ?_
  show Nameless.BetaStar (.app (.app op.nameless (numeral m).nameless) (numeral n).nameless) _
  rwa [nameless_numeral, nameless_numeral]

/-- **Church arithmetic evaluates correctly for all numerals.** From every supply, under every limit
that is large enough and without one, normalization returns the numeral of the successor, of the sum
and of the product, up to the names of bound variables. -/
theorem normalize_church_arithmetic (m n : Nat) :
    NormalizesTo (app succ (numeral n)) (numeral (n + 1)) ∧
    NormalizesTo (app (app plus (numeral m)) (numeral n)) (numeral (m + n)) ∧
    NormalizesTo (app (app mult (numeral m)) (numeral n)) (numeral (m * n)) := by
  refine ⟨?_, normalizesTo_of_betaStar_app (by decide) (betaStar_plus m n),
    normalizesTo_of_betaStar_app (by decide) (betaStar_mult m n)⟩
  have hsucc : succ.Unprimed := by decide
  refine normalizesTo_of_betaStar (hsucc.app (unprimed_numeral n)) ?_
  show Nameless.BetaStar (.app succ.nameless (numeral n).nameless) _
  rw [nameless_numeral]
  exact betaStar_succ n

end Church

end Expr

end UntypedLambda
