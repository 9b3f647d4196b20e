import UntypedLambda.Expr.Substitute
import UntypedLambda.Proofs.NamelessForm
import UntypedLambda.Proofs.SafeName

/-!
# Substitution is capture-avoiding

Substitution into an expression whose names are safe has the nameless form of the substitution for
a free name, `Nameless.replace`, in which no capture can arise.

Substitution calls itself on the result of a renaming, so an induction on the expression does not
follow it. `substitute_induction` does: its cases are the branches of the definition, and in the
branch that changes a bound name it supplies both calls. Everything about substitution is proved
through it, in this order:

* the supply only counts up (`next_le_substitute`);
* what comes out is safe at the number reached, if what goes in is safe at the number at the start
  (`safeAt_substitute`). So the hypothesis of the next call is met again;
* to substitute is to change the environment at one name (`interpret_substitute`). The changed
  bound name is the only place where safety is used: it is not the name replaced, it is not free in
  what is put in, and it does not occur in the body.
-/

namespace UntypedLambda

namespace Expr

open Nameless (bound free)

/-! ### The branches of substitution -/

theorem substitute_shadowed (x : Name) (r body : Expr) (s : Supply) :
    substitute x r (lam x body) s = (lam x body, s) := by
  rw [substitute_lam, if_pos rfl]

theorem substitute_captured {x y : Name} {r : Expr} (hyx : y ≠ x) (hfree : r.isFree y = true)
    (body : Expr) (s : Supply) :
    substitute x r (lam y body) s =
      (lam (s.fresh y) (substitute x r (freshen y body s).1 (freshen y body s).2).1,
        (substitute x r (freshen y body s).1 (freshen y body s).2).2) := by
  rw [substitute_lam, if_neg hyx, if_pos hfree]

theorem substitute_plain {x y : Name} {r : Expr} (hyx : y ≠ x) (hfree : r.isFree y = false)
    (body : Expr) (s : Supply) :
    substitute x r (lam y body) s =
      (lam y (substitute x r body s).1, (substitute x r body s).2) := by
  rw [substitute_lam, if_neg hyx, if_neg (by simp [hfree])]

/-- Induction along the calls of substitution. In the branch that changes a bound name there are
two: the change itself, and the substitution into its result. -/
@[elab_as_elim]
theorem substitute_induction {motive : Name → Expr → Expr → Supply → Prop}
    (var : ∀ x r y s, motive x r (.var y) s)
    (app : ∀ x r f a s, motive x r f s → motive x r a (substitute x r f s).2 →
      motive x r (.app f a) s)
    (shadowed : ∀ x r body s, motive x r (.lam x body) s)
    (captured : ∀ x r y body s, y ≠ x → r.isFree y = true →
      motive y (.var (s.fresh y)) body (s.advance.note (.renamed y (s.fresh y))) →
      motive x r (freshen y body s).1 (freshen y body s).2 → motive x r (.lam y body) s)
    (plain : ∀ x r y body s, y ≠ x → r.isFree y = false → motive x r body s →
      motive x r (.lam y body) s)
    (x : Name) (r e : Expr) (s : Supply) : motive x r e s := by
  induction hn : e.size using Nat.strong_induction_on generalizing x r e s with
  | _ n ih =>
    subst hn
    cases e with
    | var y => exact var x r y s
    | app f a =>
      have hf : f.size < (Expr.app f a).size := by simp only [size]; omega
      have ha : a.size < (Expr.app f a).size := by simp only [size]; omega
      exact app x r f a s (ih _ hf x r f s rfl) (ih _ ha x r a _ rfl)
    | lam y body =>
      have hbody : body.size < (Expr.lam y body).size := by simp only [size]; omega
      by_cases hyx : y = x
      · subst hyx
        exact shadowed y r body s
      rcases hfree : r.isFree y with - | -
      · exact plain x r y body s hyx hfree (ih _ hbody x r body s rfl)
      · -- the renamed body is not a part of the expression, but it has the size of one
        have hrenamed : (freshen y body s).1.size < (Expr.lam y body).size := by
          rwa [freshen, size_substitute_var]
        exact captured x r y body s hyx hfree (ih _ hbody y _ body _ rfl)
          (ih _ hrenamed x r _ _ rfl)

/-! ### The supply and the names -/

/-- The supply only counts up. -/
theorem next_le_substitute (x : Name) (r e : Expr) (s : Supply) :
    s.next ≤ (substitute x r e s).2.next := by
  induction x, r, e, s using substitute_induction with
  | var x r y s =>
    rw [substitute_var]
    split <;> exact Nat.le_refl _
  | app x r f a s ihf iha =>
    rw [substitute_app]
    exact Nat.le_trans ihf iha
  | shadowed x r body s => rw [substitute_shadowed]
  | captured x r y body s hyx hfree ihrename ih =>
    rw [substitute_captured hyx hfree]
    have hdrawn : s.next + 1 ≤ (freshen y body s).2.next := ihrename
    exact Nat.le_trans (Nat.le_succ _) (Nat.le_trans hdrawn ih)
  | plain x r y body s hyx hfree ih =>
    rw [substitute_plain hyx hfree]
    exact ih

theorem next_lt_freshen (y : Name) (body : Expr) (s : Supply) :
    s.next < (freshen y body s).2.next :=
  next_le_substitute y (var (s.fresh y)) body (s.advance.note (.renamed y (s.fresh y)))

/-- What is safe before a substitution is safe in its result, at the number reached. -/
theorem safeAt_substitute {x : Name} {r e : Expr} {s : Supply} (hr : r.SafeAt s.next)
    (he : e.SafeAt s.next) :
    (substitute x r e s).1.SafeAt (substitute x r e s).2.next := by
  induction x, r, e, s using substitute_induction with
  | var x r y s =>
    rw [substitute_var]
    split
    · exact hr
    · exact he
  | app x r f a s ihf iha =>
    obtain ⟨hf, ha⟩ := safeAt_app.1 he
    have hle := next_le_substitute x r f s
    have hle' := next_le_substitute x r a (substitute x r f s).2
    rw [substitute_app, safeAt_app]
    exact ⟨(ihf hr hf).mono hle', iha (hr.mono hle) (ha.mono hle)⟩
  | shadowed x r body s =>
    rw [substitute_shadowed]
    exact he
  | captured x r y body s hyx hfree ihrename ih =>
    obtain ⟨-, hbody⟩ := safeAt_lam.1 he
    have hlt := next_lt_freshen y body s
    have hle := next_le_substitute x r (freshen y body s).1 (freshen y body s).2
    have hrenamed : (freshen y body s).1.SafeAt (freshen y body s).2.next :=
      ihrename (safeAt_var_fresh s y) (hbody.mono (Nat.le_succ _))
    rw [substitute_captured hyx hfree, safeAt_lam]
    exact ⟨Supply.safeAt_fresh (Nat.lt_of_lt_of_le hlt hle) y,
      ih (hr.mono (Nat.le_of_lt hlt)) hrenamed⟩
  | plain x r y body s hyx hfree ih =>
    obtain ⟨hy, hbody⟩ := safeAt_lam.1 he
    rw [substitute_plain hyx hfree, safeAt_lam]
    exact ⟨hy.mono (next_le_substitute x r body s), ih hr hbody⟩

theorem safeAt_freshen {y : Name} {body : Expr} {s : Supply} (h : body.SafeAt s.next) :
    (freshen y body s).1.SafeAt (freshen y body s).2.next :=
  safeAt_substitute (safeAt_var_fresh s y) (h.mono (Nat.le_succ _))

/-! ### Substitution as a change of the environment -/

/-- Under its own abstraction the name that is replaced does not count. -/
theorem enter_update_self (x : Name) (t : Nameless) (ρ : Name → Nameless) :
    enter x (Function.update ρ x t) = enter x ρ := by
  funext z
  by_cases h : z = x
  · rw [h, enter_self, enter_self]
  · rw [enter_of_ne h, enter_of_ne h, Function.update_of_ne h]

/-- Under another abstraction the replaced name stands for the lifted term. -/
theorem enter_update {x y : Name} (hyx : y ≠ x) (t : Nameless) (ρ : Name → Nameless) :
    enter y (Function.update ρ x t) = Function.update (enter y ρ) x t.lift := by
  funext z
  by_cases hzx : z = x
  · rw [hzx, enter_of_ne (Ne.symm hyx), Function.update_self, Function.update_self]
  · rw [Function.update_of_ne hzx]
    by_cases hzy : z = y
    · rw [hzy, enter_self, enter_self]
    · rw [enter_of_ne hzy, enter_of_ne hzy, Function.update_of_ne hzx]

/-- A bound name may be changed to one that is not free in the body. -/
theorem interpret_enter_of_not_isFree {body : Expr} {y z : Name} (hz : body.isFree z = false)
    (ρ : Name → Nameless) :
    body.interpret (Function.update (enter z ρ) y (bound 0)) = body.interpret (enter y ρ) := by
  refine interpret_congr fun w hw ↦ ?_
  by_cases hwy : w = y
  · rw [hwy, Function.update_self, enter_self]
  · have hwz : w ≠ z := by
      rintro rfl
      simp [hz] at hw
    rw [Function.update_of_ne hwy, enter_of_ne hwz, enter_of_ne hwy]

/-- **To substitute is to change the environment.** The result means, in any environment, what the
expression means where the replaced name stands for the expression put in. -/
theorem interpret_substitute {x : Name} {r e : Expr} {s : Supply} (hx : Supply.SafeAt s.next x)
    (hr : r.SafeAt s.next) (he : e.SafeAt s.next) (ρ : Name → Nameless) :
    (substitute x r e s).1.interpret ρ = e.interpret (Function.update ρ x (r.interpret ρ)) := by
  induction x, r, e, s using substitute_induction generalizing ρ with
  | var x r y s =>
    rw [substitute_var]
    by_cases hyx : y = x
    · rw [if_pos hyx, interpret, hyx, Function.update_self]
    · rw [if_neg hyx, interpret, interpret, Function.update_of_ne hyx]
  | app x r f a s ihf iha =>
    obtain ⟨hf, ha⟩ := safeAt_app.1 he
    have hle := next_le_substitute x r f s
    rw [substitute_app, interpret, interpret, ihf hx hr hf ρ,
      iha (hx.mono hle) (hr.mono hle) (ha.mono hle) ρ]
  | shadowed x r body s => rw [substitute_shadowed, interpret, interpret, enter_update_self]
  | captured x r y body s hyx hfree ihrename ih =>
    obtain ⟨hy, hbody⟩ := safeAt_lam.1 he
    have hle := Nat.le_of_lt (next_lt_freshen y body s)
    have hnew : s.fresh y ≠ x := Ne.symm (hx.ne_fresh y)
    rw [substitute_captured hyx hfree, interpret, interpret]
    congr 1
    -- first the substitution into the renamed body, then the renaming, both as changes of the
    -- environment; the new name is then bound next to the old one and can be forgotten
    calc (substitute x r (freshen y body s).1 (freshen y body s).2).1.interpret
          (enter (s.fresh y) ρ)
        = (freshen y body s).1.interpret
            (Function.update (enter (s.fresh y) ρ) x (r.interpret (enter (s.fresh y) ρ))) :=
          ih (hx.mono hle) (hr.mono hle) (safeAt_freshen hbody) _
      _ = (freshen y body s).1.interpret
            (enter (s.fresh y) (Function.update ρ x (r.interpret ρ))) := by
          rw [interpret_enter (hr.not_isFree_fresh y), enter_update hnew]
      _ = body.interpret (Function.update
            (enter (s.fresh y) (Function.update ρ x (r.interpret ρ))) y (bound 0)) := by
          rw [freshen, ihrename (hy.mono (Nat.le_succ _))
            (safeAt_var_fresh s y) (hbody.mono (Nat.le_succ _)),
            interpret, enter_self]
      _ = body.interpret (enter y (Function.update ρ x (r.interpret ρ))) :=
          interpret_enter_of_not_isFree (hbody.not_isFree_fresh y) _
  | plain x r y body s hyx hfree ih =>
    obtain ⟨-, hbody⟩ := safeAt_lam.1 he
    rw [substitute_plain hyx hfree, interpret, interpret, ih hx hr hbody, interpret_enter hfree,
      enter_update hyx]

/-- **Substitution is capture-avoiding.** On safe names the nameless form of the result is the
nameless substitution, computed on the nameless forms of what goes in. -/
theorem nameless_substitute (x : Name) (r e : Expr) (s : Supply) (hx : Supply.SafeAt s.next x)
    (hr : r.SafeAt s.next) (he : e.SafeAt s.next) :
    (substitute x r e s).1.nameless = e.nameless.replace x r.nameless := by
  rw [nameless_eq_interpret, nameless_eq_interpret, nameless_eq_interpret,
    interpret_substitute hx hr he, replace_interpret_free]

/-- Two bound names are changed here, one of them a fresh name of an earlier draw. -/
theorem nameless_substitute_two_captures :
    Supply.SafeAt 1 "x" ∧ (app (var "y'0") (var "z")).SafeAt 1 ∧
    (lam "y'0" (lam "z" (app (var "x") (app (var "y'0") (var "z"))))).SafeAt 1 ∧
    (substitute "x" (app (var "y'0") (var "z"))
      (lam "y'0" (lam "z" (app (var "x") (app (var "y'0") (var "z"))))) { next := 1 }).1.nameless =
      .lam (.lam (.app (.app (free "y'0") (free "z")) (.app (bound 1) (bound 0)))) := by
  have hx : Supply.SafeAt 1 "x" := Supply.safeAt_of_unprimed (by decide) 1
  have hz : Supply.SafeAt 1 "z" := Supply.safeAt_of_unprimed (by decide) 1
  have hy : Supply.SafeAt 1 "y'0" := Supply.safeAt_numbered "y" Nat.zero_lt_one
  have hr : (app (var "y'0") (var "z")).SafeAt 1 := by simp [hy, hz]
  have he : (lam "y'0" (lam "z" (app (var "x") (app (var "y'0") (var "z"))))).SafeAt 1 := by
    simp [hx, hy, hz]
  refine ⟨hx, hr, he, ?_⟩
  rw [nameless_substitute _ _ _ _ hx hr he]
  decide

end Expr

end UntypedLambda
