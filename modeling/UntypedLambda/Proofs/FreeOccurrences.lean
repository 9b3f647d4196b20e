import Mathlib.Data.List.Nodup
import UntypedLambda.Proofs.FreeVariables
import UntypedLambda.Proofs.RenamedBinders

/-!
# Where a variable is free

Three accounts of the free variables agree. `isFree` asks after one name and filters on the way
down. `freeVariables` visits the tree once and collects every name that is not bound where it
stands. The third is about places and computes nothing: a name is free if it labels a leaf that
lies inside no abstraction which binds it (`OccursFreeAt`).

* `isFree_iff_exists_occursFreeAt`: by induction on the expression. A place in a body lies inside
  one abstraction more, so the name at it has to differ from the one bound there; that is the
  condition under which `isFree` looks at the body.
* That the collection holds what is free is known (`mem_freeVariables_iff`). It gets the bound names
  as an argument, but it may as well keep them on one stack, with a name pushed before a body and
  popped behind it (`collectOnStack`). Behind every part the stack is as it was before
  (`run_collectOnStack`), so a name bound in one branch and free in the next is found.
-/

namespace UntypedLambda

namespace Expr

open Nameless (Branch Position)

/-! ### Leaves and their places -/

/-- The name of the leaf at a place, if one stands there. -/
def leafAt? : Expr → Position → Option Name
  | var x, [] => some x
  | lam _ body, .body :: p => body.leafAt? p
  | app f _, .operator :: p => f.leafAt? p
  | app _ a, .operand :: p => a.leafAt? p
  | _, _ => none

/-- The leaf at a place has the name `x` and lies inside no abstraction that binds `x`. -/
def OccursFreeAt (x : Name) (e : Expr) (p : Position) : Prop :=
  e.leafAt? p = some x ∧ ∀ q, q <+: p → e.binderAt? q ≠ some x

/-- On the way to a place stand the root and, one branch further down, what is on the way from
there. -/
theorem forall_isPrefix_cons {P : Position → Prop} {d : Branch} {p : Position} :
    (∀ q, q <+: d :: p → P q) ↔ P [] ∧ ∀ q, q <+: p → P (d :: q) := by
  simp only [List.prefix_cons_iff]
  constructor
  · intro h
    exact ⟨h [] (.inl rfl), fun q hq ↦ h (d :: q) (.inr ⟨q, rfl, hq⟩)⟩
  · rintro ⟨hroot, hbelow⟩ q (rfl | ⟨q, rfl, hq⟩)
    · exact hroot
    · exact hbelow q hq

section Places

variable {x y : Name} {f a body : Expr}

theorem exists_occursFreeAt_var : (∃ p, OccursFreeAt x (var y) p) ↔ y = x := by
  constructor
  · rintro ⟨- | ⟨d, p⟩, hleaf, -⟩
    · exact Option.some.inj hleaf
    · cases hleaf
  · rintro rfl
    exact ⟨[], rfl, fun q _ ↦ by simp [binderAt?_var]⟩

/-- A place in an abstraction lies in its body, and inside one abstraction more. -/
theorem exists_occursFreeAt_lam :
    (∃ p, OccursFreeAt x (lam y body) p) ↔ y ≠ x ∧ ∃ p, OccursFreeAt x body p := by
  constructor
  · rintro ⟨- | ⟨- | - | -, p⟩, hleaf, hpath⟩
    case cons.body =>
      obtain ⟨hroot, hbody⟩ := forall_isPrefix_cons.1 hpath
      exact ⟨fun hyx ↦ hroot (hyx ▸ rfl), p, hleaf, hbody⟩
    all_goals cases hleaf
  · rintro ⟨hyx, p, hleaf, hpath⟩
    refine ⟨.body :: p, hleaf, forall_isPrefix_cons.2 ⟨fun hroot ↦ ?_, hpath⟩⟩
    exact hyx (Option.some.inj hroot)

theorem exists_occursFreeAt_app :
    (∃ p, OccursFreeAt x (app f a) p) ↔
      (∃ p, OccursFreeAt x f p) ∨ ∃ p, OccursFreeAt x a p := by
  constructor
  · rintro ⟨- | ⟨- | - | -, p⟩, hleaf, hpath⟩
    case cons.operator => exact .inl ⟨p, hleaf, (forall_isPrefix_cons.1 hpath).2⟩
    case cons.operand => exact .inr ⟨p, hleaf, (forall_isPrefix_cons.1 hpath).2⟩
    all_goals cases hleaf
  · -- An application binds nothing, so nothing is asked of the root.
    rintro (⟨p, hleaf, hpath⟩ | ⟨p, hleaf, hpath⟩)
    · exact ⟨.operator :: p, hleaf, forall_isPrefix_cons.2 ⟨nofun, hpath⟩⟩
    · exact ⟨.operand :: p, hleaf, forall_isPrefix_cons.2 ⟨nofun, hpath⟩⟩

end Places

/-- What is free has a place where it is free. -/
theorem isFree_iff_exists_occursFreeAt {x : Name} {e : Expr} :
    e.isFree x = true ↔ ∃ p, OccursFreeAt x e p := by
  induction e with
  | var y => rw [isFree_var_iff, exists_occursFreeAt_var]
  | lam y body ih => rw [isFree_lam_iff, exists_occursFreeAt_lam, ih]
  | app f a ihf iha => rw [isFree_app_iff, exists_occursFreeAt_app, ihf, iha]

/-! ### The collection -/

/-- Nothing is collected twice. -/
theorem nodup_collectFree {bound found : List Name} (e : Expr) (h : found.Nodup) :
    (e.collectFree bound found).Nodup := by
  induction e generalizing bound found with
  | var x =>
    rw [collectFree]
    split
    · exact h
    · exact h.insert
  | lam x body ih => exact ih h
  | app f a ihf iha => exact iha (ihf h)

/-- Collects the free variables with the names bound so far on a stack. The state is the stack and
what has been found. -/
def collectOnStack : Expr → StateM (List Name × List Name) Unit
  | var x => modify fun (bound, found) ↦
    (bound, if bound.contains x then found else found.insert x)
  | lam x body => do
    modify fun (bound, found) ↦ (x :: bound, found)
    body.collectOnStack
    modify fun (bound, found) ↦ (bound.tail, found)
  | app f a => do
    f.collectOnStack
    a.collectOnStack

/-- The stack is as it was before, and what is found is what is found without one. -/
theorem run_collectOnStack (e : Expr) (bound found : List Name) :
    e.collectOnStack.run (bound, found) = ((), (bound, e.collectFree bound found)) := by
  induction e generalizing bound found with
  | var x => rfl
  | lam x body ih =>
    show (body.collectOnStack >>= fun _ ↦ modify fun (bound, found) ↦ (bound.tail, found)).run
      (x :: bound, found) = _
    rw [StateT.run_bind, ih]
    rfl
  | app f a ihf iha =>
    rw [collectOnStack, StateT.run_bind, ihf]
    exact iha bound (f.collectFree bound found)

/-- **The computations of the free variables agree.** A name is in the list of the free variables
if and only if the question after it is answered with yes, and that is so if and only if it labels a
leaf that lies inside no abstraction which binds it. The list has every name once, and it is the
same when the bound names are kept on one stack, which is empty again in the end. -/
theorem freeVariables_agree_with_places (e : Expr) :
    (∀ x : Name,
      (x ∈ e.freeVariables ↔ e.isFree x = true) ∧
      (e.isFree x = true ↔
        ∃ p, e.leafAt? p = some x ∧ ∀ q, q <+: p → e.binderAt? q ≠ some x)) ∧
    e.freeVariables.Nodup ∧
    (e.collectOnStack.run ([], [])).2 = ([], e.freeVariables) := by
  refine ⟨fun x ↦ ⟨mem_freeVariables_iff, isFree_iff_exists_occursFreeAt⟩, ?_, ?_⟩
  · exact nodup_collectFree e List.nodup_nil
  · rw [run_collectOnStack]
    rfl

/-- A name that is bound in the operator, and bound again further down, is free in the operand. -/
example :
    (app (lam "x" (lam "x" (app (var "y") (var "x")))) (app (var "x") (var "y"))).freeVariables =
      ["x", "y"] := by
  decide

end Expr

end UntypedLambda
