import UntypedLambda.Normalize
import UntypedLambda.Proofs.Nameless.Standardization
import UntypedLambda.Proofs.ReadNames
import UntypedLambda.Proofs.Reduction

/-!
# Normalization finds every normal form

If an expression has a normal form, in the sense of beta reduction at any place of its nameless
form, then normalization returns it, for every limit that is large enough and without a limit. If
it has none, every limit is met.

The loop follows the leftmost reducts of the nameless form (`normalizeFrom_succ` is one turn of it).
So its two ends are read off the sequence of those: the loop returns once the sequence has ended
in a normal form within the limit (`normalizeFrom_of_reduct?`), and it gives up at the limit while
there is a further reduct (`normalizeFrom_of_reduct?_limit`). That the sequence ends in the normal
form is the theorem on leftmost reduction.
-/

namespace UntypedLambda

namespace Expr

open Nameless (BetaStar Normal reduct?)

/-- One turn of the loop without a watcher. -/
theorem normalizeFrom_succ (limit : Option Nat) (budget steps : Nat) (e : Expr) (s : Supply) :
    Id.run (normalizeFrom .idle limit (budget + 1) steps e s) =
      if e.isReducible then
        if limitMet limit steps then
          some (.error (.limitExceeded steps), s.note (.exceededLimit steps))
        else
          Id.run (normalizeFrom .idle limit budget (steps + 1) (e.reduce s).1
            ((e.reduce s).2.note (.reduced (steps + 1) (e.reduce s).1)))
      else some (.ok e, s.note (.reachedNormalForm steps)) := by
  rcases hred : e.isReducible with - | -
  · simp [normalizeFrom, Watcher.idle, hred]
  · rcases hmet : limitMet limit steps with - | -
    · simp [normalizeFrom, Watcher.idle, hred, hmet]
    · simp [normalizeFrom, Watcher.idle, hred, hmet]

theorem limitMet_eq_false {limit : Option Nat} {steps : Nat}
    (h : ∀ m, limit = some m → steps < m) : limitMet limit steps = false := by
  rcases limit with - | m
  · rfl
  · simpa [limitMet] using h m rfl

theorem isReducible_of_leftmost? {e : Expr} {t : Nameless} (h : e.nameless.leftmost? = some t) :
    e.isReducible = true := by
  rw [← isSome_leftmost?_namelessIn [], ← nameless, h, Option.isSome_some]

theorem isReducible_of_normal {e : Expr} (h : e.nameless.Normal) : e.isReducible = false := by
  rw [← isSome_leftmost?_namelessIn [], ← nameless, Nameless.leftmost?_eq_none_iff.2 h,
    Option.isSome_none]

/-- The loop returns when the leftmost reducts end in a normal form within the limit. -/
theorem normalizeFrom_of_reduct? {limit : Option Nat} {budget steps k : Nat} {e : Expr}
    {s : Supply} {t : Nameless} (he : e.SafeAt s.next) (ht : reduct? k e.nameless = some t)
    (hnormal : t.Normal) (hlimit : ∀ m, limit = some m → steps + k ≤ m) (hbudget : k < budget) :
    ∃ r s', Id.run (normalizeFrom .idle limit budget steps e s) = some (.ok r, s') ∧
      r.nameless = t := by
  induction k generalizing budget steps e s with
  | zero =>
    obtain ⟨budget, rfl⟩ := Nat.exists_eq_add_one.2 hbudget
    obtain rfl : e.nameless = t := Option.some.inj ht
    rw [normalizeFrom_succ, isReducible_of_normal hnormal]
    exact ⟨e, _, rfl, rfl⟩
  | succ k ih =>
    obtain ⟨budget, rfl⟩ := Nat.exists_eq_add_one.2 (Nat.zero_lt_of_lt hbudget)
    obtain ⟨t', hstep, hrest⟩ := Option.bind_eq_some_iff.1 ht
    have hmet : limitMet limit steps = false :=
      limitMet_eq_false fun m hm ↦ by
        have := hlimit m hm
        omega
    rw [normalizeFrom_succ, isReducible_of_leftmost? hstep, if_pos rfl, hmet,
      if_neg Bool.false_ne_true]
    refine ih (safeAt_reduce he) ?_ (fun m hm ↦ ?_) (by omega)
    · rw [nameless_reduce he hstep]
      exact hrest
    · have := hlimit m hm
      omega

/-- The loop gives up at the limit while there is a further leftmost reduct. -/
theorem normalizeFrom_of_reduct?_limit {budget steps k : Nat} {e : Expr} {s : Supply}
    {t : Nameless} (he : e.SafeAt s.next) (ht : reduct? (k + 1) e.nameless = some t)
    (hbudget : k < budget) :
    ∃ s', Id.run (normalizeFrom .idle (some (steps + k)) budget steps e s) =
      some (.error (.limitExceeded (steps + k)), s') := by
  induction k generalizing budget steps e s with
  | zero =>
    obtain ⟨budget, rfl⟩ := Nat.exists_eq_add_one.2 hbudget
    obtain ⟨t', hstep, -⟩ := Option.bind_eq_some_iff.1 ht
    have hmet : limitMet (some (steps + 0)) steps = true := by simp [limitMet]
    rw [normalizeFrom_succ, isReducible_of_leftmost? hstep, if_pos rfl, hmet, if_pos rfl]
    exact ⟨_, rfl⟩
  | succ k ih =>
    obtain ⟨budget, rfl⟩ := Nat.exists_eq_add_one.2 (Nat.zero_lt_of_lt hbudget)
    obtain ⟨t', hstep, hrest⟩ := Option.bind_eq_some_iff.1 ht
    have hmet : limitMet (some (steps + (k + 1))) steps = false :=
      limitMet_eq_false fun m hm ↦ by
        obtain rfl := Option.some.inj hm
        omega
    rw [normalizeFrom_succ, isReducible_of_leftmost? hstep, if_pos rfl, hmet,
      if_neg Bool.false_ne_true, show steps + (k + 1) = steps + 1 + k by omega]
    refine ih (safeAt_reduce he) ?_ (by omega)
    rw [nameless_reduce he hstep]
    exact hrest

/-- **Normalization finds every normal form.** Let no name have a `'`, as is the case for what is
read from a text. Whenever beta reduction at any places leads to a normal form, there is a number
of steps such that every limit from there on, and no limit at all, gives a result with that form;
and where no normal form exists, every limit is met. -/
theorem normalize_finds_normal_form :
    (∀ (text : String) (e : Expr), read text = .ok e → e.Unprimed) ∧
    ∀ (e : Expr) (s : Supply), e.Unprimed →
      (∀ t, BetaStar e.nameless t → t.Normal →
        ∃ m, ∀ limit : Option Nat, (∀ m', limit = some m' → m ≤ m') → ∀ budget, m < budget →
          ∃ r s', e.normalize limit budget s = some (.ok r, s') ∧ r.nameless = t) ∧
      ((¬ ∃ t, BetaStar e.nameless t ∧ t.Normal) →
        ∀ m budget, m < budget →
          ∃ s', e.normalize (some m) budget s = some (.error (.limitExceeded m), s')) := by
  refine ⟨fun text e h ↦ unprimed_of_read h, fun e s he ↦ ⟨?_, ?_⟩⟩
  · intro t ht hnormal
    obtain ⟨k, hk⟩ := (Nameless.exists_reduct?_iff_betaStar hnormal).2 ht
    refine ⟨k, fun limit hlimit budget hbudget ↦ ?_⟩
    exact normalizeFrom_of_reduct? (he.safeAt _) hk hnormal
      (fun m hm ↦ by rw [Nat.zero_add]; exact hlimit m hm) hbudget
  · intro hnone m budget hbudget
    obtain ⟨t, ht⟩ := Nameless.exists_reduct?_of_not_normalizing hnone (m + 1)
    have hrun : ∃ s', Id.run (normalizeFrom .idle (some (0 + m)) budget 0 e s) =
        some (.error (.limitExceeded (0 + m)), s') :=
      normalizeFrom_of_reduct?_limit (he.safeAt _) ht hbudget
    rw [Nat.zero_add] at hrun
    exact hrun

/-- The expression that reduces to itself. -/
def omega : Expr :=
  app (lam "x" (app (var "x") (var "x"))) (lam "x" (app (var "x") (var "x")))

theorem beta_omega {t : Nameless} (h : Nameless.Beta omega.nameless t) : t = omega.nameless := by
  obtain ⟨p, hp, rfl⟩ := Nameless.beta_iff_contractAt.1 h
  have hredexes : omega.nameless.redexes = [[]] := by decide
  rw [hredexes, List.mem_singleton] at hp
  rw [hp]
  decide

theorem betaStar_omega {t : Nameless} (h : BetaStar omega.nameless t) : t = omega.nameless := by
  induction h with
  | refl => rfl
  | tail _ hstep ih => exact beta_omega (ih ▸ hstep)

theorem omega_not_normalizing : ¬ ∃ t, BetaStar omega.nameless t ∧ t.Normal := by
  rintro ⟨t, ht, hnormal⟩
  rw [betaStar_omega ht, Nameless.normal_iff_redexes] at hnormal
  revert hnormal
  decide

/-- An operand without a normal form is discarded, and alone it meets every limit. -/
theorem normalize_finds_normal_form_omega :
    read "(λx. a) ((λx. x x) (λx. x x))" = .ok (app (lam "x" (var "a")) omega) ∧
    (∃ m, ∀ limit : Option Nat, (∀ m', limit = some m' → m ≤ m') → ∀ budget, m < budget →
      ∃ r s', (app (lam "x" (var "a")) omega).normalize limit budget {} = some (.ok r, s') ∧
        r.nameless = .free "a") ∧
    ∀ m budget, m < budget →
      ∃ s', omega.normalize (some m) budget {} = some (.error (.limitExceeded m), s') := by
  have hread : read "(λx. a) ((λx. x x) (λx. x x))" = .ok (app (lam "x" (var "a")) omega) := by
    decide +kernel
  have hstep : Nameless.Beta (app (lam "x" (var "a")) omega).nameless (.free "a") :=
    .redex (.free "a") omega.nameless
  have hnormal : (Nameless.free "a").Normal := Nameless.normal_iff_redexes.2 rfl
  have hunprimed := normalize_finds_normal_form.1 _ _ hread
  refine ⟨hread, ?_, ?_⟩
  · exact (normalize_finds_normal_form.2 _ {} hunprimed).1 _ (.single hstep) hnormal
  · exact (normalize_finds_normal_form.2 omega {} (by decide)).2 omega_not_normalizing

end Expr

end UntypedLambda
