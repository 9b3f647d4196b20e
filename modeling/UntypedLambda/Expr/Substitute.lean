import UntypedLambda.Supply

/-!
# Substitution

`substitute x r e` replaces the free occurrences of `x` in `e` by `r`. An abstraction whose
bound name is free in `r` would capture it, so the name is changed first: a fresh one is drawn,
the change is noted, the bound name is replaced by the fresh one in the body, and only then `r`
goes in. Applications are visited from left to right, which fixes the order of the draws.

The replacement of the bound name is itself a substitution, and its result is substituted into.
The recursion therefore ends only because replacing a name by a name keeps the number of nodes.
`substituteSized` carries that fact along with its result, and `substitute` forgets it; the
equations below (`substitute_var`, `substitute_app`, `substitute_lam`) say all there is to know
about `substitute`.
-/

namespace UntypedLambda

namespace Expr

/-- Substitution, together with the fact that a variable in the place of a variable does not
change the number of nodes. -/
def substituteSized (x : Name) (r : Expr) (e : Expr) (s : Supply) :
    { result : Expr × Supply // r.isVar → result.1.size = e.size } :=
  match e with
  | var y =>
    if y = x then ⟨(r, s), fun h ↦ by cases r <;> simp_all [isVar, size]⟩
    else ⟨(var y, s), fun _ ↦ rfl⟩
  | app f a =>
    let f' := substituteSized x r f s
    let a' := substituteSized x r a f'.1.2
    ⟨(app f'.1.1 a'.1.1, a'.1.2), fun h ↦ by simp [size, f'.2 h, a'.2 h]⟩
  | lam y body =>
    if y = x then ⟨(lam y body, s), fun _ ↦ rfl⟩
    else if r.isFree y then
      let new := s.fresh y
      match substituteSized y (var new) body (s.advance.note (.renamed y new)) with
      | ⟨(renamed, s'), hrenamed⟩ =>
        have hsize : renamed.size = body.size := hrenamed rfl
        let body' := substituteSized x r renamed s'
        ⟨(lam new body'.1.1, body'.1.2), fun h ↦ by simp [size, body'.2 h, hsize]⟩
    else
      let body' := substituteSized x r body s
      ⟨(lam y body'.1.1, body'.1.2), fun h ↦ by simp [size, body'.2 h]⟩
termination_by e.size
decreasing_by all_goals simp only [size]; omega

/-- Replaces the free occurrences of `x` in `e` by `r`, changing bound names of `e` that would
capture a free variable of `r`. -/
def substitute (x : Name) (r e : Expr) (s : Supply) : Expr × Supply :=
  (substituteSized x r e s).1

/-! ### The equations of substitution -/

theorem substitute_var (x : Name) (r : Expr) (y : Name) (s : Supply) :
    substitute x r (var y) s = if y = x then (r, s) else (var y, s) := by
  rw [substitute, substituteSized]
  split <;> rfl

theorem substitute_app (x : Name) (r f a : Expr) (s : Supply) :
    substitute x r (app f a) s =
      (app (substitute x r f s).1 (substitute x r a (substitute x r f s).2).1,
        (substitute x r a (substitute x r f s).2).2) := by
  rw [substitute, substituteSized]
  rfl

/-- Replaces the bound name `y` of an abstraction with body `body` by the next fresh name. -/
def freshen (y : Name) (body : Expr) (s : Supply) : Expr × Supply :=
  substitute y (var (s.fresh y)) body (s.advance.note (.renamed y (s.fresh y)))

theorem substitute_lam (x : Name) (r : Expr) (y : Name) (body : Expr) (s : Supply) :
    substitute x r (lam y body) s =
      if y = x then (lam y body, s)
      else if r.isFree y then
        (lam (s.fresh y) (substitute x r (freshen y body s).1 (freshen y body s).2).1,
          (substitute x r (freshen y body s).1 (freshen y body s).2).2)
      else (lam y (substitute x r body s).1, (substitute x r body s).2) := by
  rw [substitute, substituteSized]
  split
  · rfl
  · split <;> rfl

/-- Replacing a name by a name keeps the number of nodes. -/
theorem size_substitute_var (x y : Name) (e : Expr) (s : Supply) :
    (substitute x (var y) e s).1.size = e.size :=
  (substituteSized x (var y) e s).2 rfl

end Expr

end UntypedLambda
