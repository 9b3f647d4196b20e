import Mathlib.Data.List.Lattice
import UntypedLambda.Proofs.ReachedExpressions

/-!
# No free variable is invented

Whatever is free in the result of a substitution was free in what went in, and the name that is
replaced counts only where it is free in the expression put in. A reduct therefore has no free
variable that the expression has not, and neither has the last of any number of reducts.

Nothing is assumed about the names. A fresh name may be one that occurs already, and may then
capture a variable; a captured variable is one less that is free, so the bound stays. This is read
off the branch that changes a bound name (`isFree_of_isFree_substitute`): the fresh name is free in
the renamed body, but the abstraction around it binds that very name.

The bound is stated for the list of the free variables. Membership in it is what `isFree` asks
(`mem_freeVariables_iff`), and the proofs are about `isFree`, which follows the tree.
-/

namespace UntypedLambda

namespace Expr

/-! ### The list of the free variables -/

theorem isFree_var_iff {x y : Name} : (var y).isFree x = true ↔ y = x := by
  rw [isFree, beq_iff_eq]

theorem isFree_lam_iff {x y : Name} {body : Expr} :
    (lam y body).isFree x = true ↔ y ≠ x ∧ body.isFree x = true := by
  rw [isFree, Bool.and_eq_true, bne_iff_ne]

theorem isFree_app_iff {x : Name} {f a : Expr} :
    (app f a).isFree x = true ↔ f.isFree x = true ∨ a.isFree x = true := by
  rw [isFree, Bool.or_eq_true]

/-- What is collected is what was there before, and what is free where the names `bound` are
bound. -/
theorem mem_collectFree_iff {bound found : List Name} {e : Expr} {x : Name} :
    x ∈ e.collectFree bound found ↔ x ∈ found ∨ (x ∉ bound ∧ e.isFree x = true) := by
  induction e generalizing bound found with
  | var y =>
    rw [collectFree, isFree_var_iff]
    by_cases hy : y ∈ bound
    · rw [if_pos (List.contains_iff_mem.2 hy)]
      constructor
      · exact .inl
      · rintro (hx | ⟨hx, rfl⟩)
        · exact hx
        · exact absurd hy hx
    · rw [if_neg (by simpa using hy), List.mem_insert_iff, or_comm]
      constructor
      · rintro (hx | rfl)
        · exact .inl hx
        · exact .inr ⟨hy, rfl⟩
      · rintro (hx | ⟨-, rfl⟩)
        · exact .inl hx
        · exact .inr rfl
  | lam y body ih =>
    rw [collectFree, ih, isFree_lam_iff, List.mem_cons, not_or, ne_comm, and_assoc, and_left_comm]
  | app f a ihf iha =>
    rw [collectFree, iha, ihf, isFree_app_iff, or_assoc, ← and_or_left]

/-- The list of the free variables holds what is free. -/
theorem mem_freeVariables_iff {e : Expr} {x : Name} :
    x ∈ e.freeVariables ↔ e.isFree x = true := by
  rw [freeVariables, mem_collectFree_iff]
  simp

theorem freeVariables_subset_iff {e e' : Expr} :
    e'.freeVariables ⊆ e.freeVariables ↔ ∀ x, e'.isFree x = true → e.isFree x = true := by
  simp only [List.subset_def, mem_freeVariables_iff]

/-! ### Substitution and steps -/

/-- What is free in the result of a substitution was free before, and it is not the name replaced
unless that is free in what was put in. -/
theorem isFree_of_isFree_substitute {x z : Name} {r e : Expr} {s : Supply}
    (h : (substitute x r e s).1.isFree z = true) :
    (e.isFree z = true ∧ z ≠ x) ∨ r.isFree z = true := by
  induction x, r, e, s using substitute_induction with
  | var x r y s =>
    rw [substitute_var] at h
    by_cases hyx : y = x
    · rw [if_pos hyx] at h
      exact .inr h
    · rw [if_neg hyx] at h
      exact .inl ⟨h, isFree_var_iff.1 h ▸ hyx⟩
  | app x r f a s ihf iha =>
    rw [substitute_app, isFree_app_iff] at h
    rw [isFree_app_iff]
    rcases h with h | h
    · exact (ihf h).imp_left fun ⟨hf, hzx⟩ ↦ ⟨.inl hf, hzx⟩
    · exact (iha h).imp_left fun ⟨ha, hzx⟩ ↦ ⟨.inr ha, hzx⟩
  | shadowed x r body s =>
    rw [substitute_shadowed] at h
    exact .inl ⟨h, (isFree_lam_iff.1 h).1.symm⟩
  | captured x r y body s hyx hfree ihrename ih =>
    rw [substitute_captured hyx hfree] at h
    obtain ⟨hnew, hz⟩ := isFree_lam_iff.1 h
    rcases ih hz with ⟨hrenamed, hzx⟩ | hr
    -- what is free in the renamed body was free in the body, or it is the fresh name, and that is
    -- bound by the abstraction
    · rcases ihrename hrenamed with ⟨hbody, hzy⟩ | hvar
      · exact .inl ⟨isFree_lam_iff.2 ⟨hzy.symm, hbody⟩, hzx⟩
      · exact absurd (isFree_var_iff.1 hvar) hnew
    · exact .inr hr
  | plain x r y body s hyx hfree ih =>
    rw [substitute_plain hyx hfree] at h
    obtain ⟨hyz, hz⟩ := isFree_lam_iff.1 h
    exact (ih hz).imp_left fun ⟨hbody, hzx⟩ ↦ ⟨isFree_lam_iff.2 ⟨hyz, hbody⟩, hzx⟩

/-- A reduct has no free variable that the expression has not. -/
theorem Step.isFree {e e' : Expr} {s s' : Supply} (h : Step e s e' s') {x : Name}
    (hx : e'.isFree x = true) : e.isFree x = true := by
  induction h with
  | redex y body a s =>
    rw [isFree_app_iff, isFree_lam_iff]
    rcases isFree_of_isFree_substitute hx with ⟨hbody, hxy⟩ | ha
    · exact .inl ⟨hxy.symm, hbody⟩
    · exact .inr ha
  | lam y h ih =>
    obtain ⟨hyx, hbody⟩ := isFree_lam_iff.1 hx
    exact isFree_lam_iff.2 ⟨hyx, ih hbody⟩
  | operator a hf h ih => exact isFree_app_iff.2 ((isFree_app_iff.1 hx).imp_left ih)
  | operand hf hnormal h ih => exact isFree_app_iff.2 ((isFree_app_iff.1 hx).imp_right ih)

/-- What is reached from an expression has no free variable that the expression has not. -/
theorem Reaches.freeVariables_subset {e e' : Expr} (h : e.Reaches e') :
    e'.freeVariables ⊆ e.freeVariables := by
  rw [freeVariables_subset_iff]
  intro x
  refine h.of_step (P := fun f ↦ f.isFree x = true → e.isFree x = true) ?_ id
  intro f f' s s' hstep hback hx
  exact hback (hstep.isFree hx)

/-! ### All that substitutes or reduces -/

/-- **No free variable is invented.** The names are arbitrary, and the supply stands anywhere. The
free variables of a substitution are those of the expression other than the name replaced, and
those of what is put in. Those of the next reduct, of each item of the sequence of the reducts, also
if the supply is used elsewhere between two items, and of whatever normalization returns, under any
limit and with or without a watcher who may cancel it, are free in the expression. -/
theorem freeVariables_never_invented :
    (∀ (x : Name) (r e : Expr) (s : Supply),
      (substitute x r e s).1.freeVariables ⊆ e.freeVariables.filter (· ≠ x) ∪ r.freeVariables) ∧
    ∀ e : Expr,
      (∀ s : Supply, (e.reduce s).1.freeVariables ⊆ e.freeVariables) ∧
      (∀ (s : Supply) (k : Nat), ∀ e' ∈ ((Reductions.ofExpr e).take s k).1,
        e'.freeVariables ⊆ e.freeVariables) ∧
      (∀ r, Relation.ReflTransGen Reductions.Advances (.ofExpr e) r →
        ∀ (s : Supply) (e' : Expr), (r.next s).1 = some e' →
          e'.freeVariables ⊆ e.freeVariables) ∧
      (∀ (limit : Option Nat) (budget : Nat) (s : Supply) (raised : Bool) (r : Expr)
        (s' : Supply), e.normalize limit budget s raised = some (.ok r, s') →
          r.freeVariables ⊆ e.freeVariables) ∧
      ∀ (σ : Type) (watcher : Watcher (StateM σ)) (limit : Option Nat) (budget : Nat)
        (s : Supply) (t : σ) (r : Expr) (s' : Supply) (t' : σ),
        (normalizeWith watcher limit budget e s).run t = (some (.ok r, s'), t') →
          r.freeVariables ⊆ e.freeVariables := by
  refine ⟨fun x r e s z hz ↦ ?_, fun e ↦ ⟨?_, ?_, ?_, ?_, ?_⟩⟩
  · rw [List.mem_union_iff, List.mem_filter, mem_freeVariables_iff, mem_freeVariables_iff,
      decide_eq_true_eq]
    exact isFree_of_isFree_substitute (mem_freeVariables_iff.1 hz)
  · intro s
    exact (reaches_reduce e s).freeVariables_subset
  · intro s k e' he'
    exact (reaches_of_mem_reducts he').freeVariables_subset
  · intro r hr s e' he'
    exact (Reductions.reaches_of_next hr he').freeVariables_subset
  · intro limit budget s raised r s' hrun
    exact (reaches_of_normalize hrun).freeVariables_subset
  · intro σ watcher limit budget s t r s' t' hrun
    exact (reaches_of_normalizeWith hrun).freeVariables_subset

/-- An expression with a free variable that is the first fresh name to come. -/
def clashing : Expr := app (lam "x" (lam "y" (app (var "x") (var "y'0")))) (var "y")

/-- Its reduct, in which the fresh name has captured that variable. -/
def clashed : Expr := lam "y'0" (app (var "y") (var "y'0"))

/-- Where the fresh name captures a variable, a free variable is lost, and none is added. -/
theorem freeVariables_never_invented_clash :
    clashed ∈ ((Reductions.ofExpr clashing).take {} 1).1 ∧
    ((Reductions.ofExpr clashing).next {}).1 = some clashed ∧
    clashing.normalize (some 1) 2 {} = some (.ok clashed, { next := 1 }) ∧
    clashing.trace (some 1) (some 2) 2 {} =
      (some (.ok clashed, { next := 1 }), { steps := #[(1, clashed)] }) ∧
    clashing.freeVariables = ["y", "y'0"] ∧ clashed.freeVariables = ["y"] ∧
    clashed.freeVariables ⊆ clashing.freeVariables := by
  have hitem : clashed ∈ ((Reductions.ofExpr clashing).take {} 1).1 := by decide +kernel
  have hnext : ((Reductions.ofExpr clashing).next {}).1 = some clashed := by decide +kernel
  have hresult : clashing.normalize (some 1) 2 {} = some (.ok clashed, { next := 1 }) := by
    decide +kernel
  have htrace : clashing.trace (some 1) (some 2) 2 {} =
      (some (.ok clashed, { next := 1 }), { steps := #[(1, clashed)] }) := by
    decide +kernel
  obtain ⟨-, -, -, hreturned, -⟩ := freeVariables_never_invented.2 clashing
  exact ⟨hitem, hnext, hresult, htrace, by decide, by decide, hreturned _ _ _ _ _ _ hresult⟩

end Expr

end UntypedLambda
