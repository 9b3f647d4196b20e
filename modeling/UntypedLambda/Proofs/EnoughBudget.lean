import UntypedLambda.Proofs.ExpressionLines

/-!
# A budget that is enough

A reduction, a line or a load that has a result under some budget has the same result under any
larger one: more steps and a greater depth make no difference once neither is used up. So "it
returns" means that some budget is enough, and what it returns does not depend on which
(`load_unique`).

A line is one of three kinds (`execute_cases`). It loads a file, and then needs the depth that the
file needs; or it is an expression, and then needs the steps of its reduction; or it needs no budget
at all. The first kind is an induction on the depth (`extends_load`), the second one on the number
of turns of the loop (`traceFrom_of_le`).
-/

namespace UntypedLambda

/-! ### Reductions -/

namespace Expr

/-- A loop that comes to an end does not care about what is left of its budget. -/
theorem traceFrom_of_le {limit cancelAt : Option Nat} {budget budget' steps : Nat} {e : Expr}
    {s : Supply} {t : Trace} (hle : budget ≤ budget')
    (h : (traceFrom limit cancelAt budget steps e s t).1.isSome = true) :
    traceFrom limit cancelAt budget' steps e s t = traceFrom limit cancelAt budget steps e s t := by
  induction budget generalizing budget' steps e s t with
  | zero => cases h
  | succ budget ih =>
    obtain ⟨budget', rfl⟩ := Nat.exists_eq_add_one.2 (Nat.lt_of_lt_of_le (Nat.zero_lt_succ _) hle)
    rw [traceFrom_succ] at h
    rw [traceFrom_succ, traceFrom_succ]
    split
    · rfl
    · next hraised =>
      rw [if_neg hraised] at h
      split
      · next hred =>
        rw [if_pos hred] at h
        split
        · rfl
        · next hmet =>
          rw [if_neg hmet] at h
          exact ih (Nat.le_of_succ_le_succ hle) h
      · rfl

end Expr

/-! ### Computations of a session -/

/-- Where the first computation has a result, the second one has the same. -/
def Extends {α : Type} (x y : SessionT WorldM α) : Prop :=
  ∀ ⦃session w r⦄, x session w = some r → y session w = some r

namespace Extends

variable {α β : Type}

protected theorem refl (x : SessionT WorldM α) : Extends x x := fun _ _ _ h ↦ h

protected theorem bind {x y : SessionT WorldM α} {f g : α → SessionT WorldM β} (hxy : Extends x y)
    (hfg : ∀ a, Extends (f a) (g a)) : Extends (x >>= f) (y >>= g) := by
  intro session w r h
  obtain ⟨a, session', w', hx, hf⟩ := SessionT.bind_apply_iff.1 h
  exact SessionT.bind_apply_iff.2 ⟨a, session', w', hxy hx, hfg a hf⟩

protected theorem mapM {f g : α → SessionT WorldM β} {as : List α}
    (hfg : ∀ a, Extends (f a) (g a)) : Extends (as.mapM f) (as.mapM g) := by
  induction as with
  | nil => exact .refl _
  | cons a as ih =>
    rw [List.mapM_cons, List.mapM_cons]
    exact (hfg a).bind fun b ↦ ih.bind fun bs ↦ .refl _

end Extends

namespace Session

/-- An evaluation has the same result with more steps to go. -/
theorem extends_evaluate {budget budget' : Budget} (h : budget.steps ≤ budget'.steps)
    (line : String) : Extends (evaluate budget line) (evaluate budget' line) := by
  intro session w r hrun
  rw [evaluate_apply] at hrun ⊢
  rcases hread : Expr.read line with fault | e <;> rw [hread] at hrun
  · exact hrun
  · obtain ⟨result, hresult, -⟩ := Option.map_eq_some_iff.1 hrun
    have hsame : e.trace session.settings.limit none budget'.steps session.supply =
        e.trace session.settings.limit none budget.steps session.supply :=
      Expr.traceFrom_of_le h (Option.isSome_of_eq_some hresult)
    rw [evaluated, hsame]
    exact hrun

/-- A line loads a file, or is an expression, or needs no budget and leaves the files alone. -/
theorem execute_cases (line : String) :
    (∃ file, Command.ofLine? line = some (.ok (.load file))) ∨
    (Command.ofLine? line = none ∧ isBlankLine line = false) ∨
    ∀ (session : Session) (w : World), ∃ r,
      (∀ budget, (execute budget line : SessionT WorldM _) session w = some r) ∧
        r.2.files = w.files := by
  simp only [execute, executeWith]
  rcases Command.ofLine? line with - | (fault | command)
  · rcases hblank : isBlankLine line with - | -
    · exact .inr (.inl ⟨rfl, rfl⟩)
    · exact .inr (.inr fun session w ↦ ⟨((true, session), w), fun budget ↦ rfl, rfl⟩)
  · exact .inr (.inr fun session w ↦ ⟨_, fun budget ↦ rfl, rfl⟩)
  · rcases command with - | file | - | text | -
    case load => exact .inl ⟨file, rfl⟩
    all_goals refine .inr (.inr fun session w ↦ ?_)
    case setLimit =>
      dsimp only [perform]
      rcases readLimit text with fault | limit <;> exact ⟨_, fun budget ↦ rfl, rfl⟩
    all_goals exact ⟨_, fun budget ↦ rfl, rfl⟩

/-- A source that cannot be read takes one level and no more. -/
theorem load_apply_of_error {steps depth lines : Nat} {source : Source} {session : Session}
    {w : World} {cause : FileError} (h : w.text source = .error cause) :
    (load ⟨steps, depth + 1, lines⟩ source : SessionT WorldM _) session w =
      some ((.error ⟨source, cause⟩, session), w.behind source) := by
  rw [load_succ, SessionT.bind_apply (readSource_apply source session w), h]
  rfl

/-- A line has the same result with more steps to go, if a file that it loads has. -/
theorem extends_execute_of_extends_load {budget budget' : Budget}
    (hsteps : budget.steps ≤ budget'.steps)
    (hload : ∀ file, Extends (load budget (.file file)) (load budget' (.file file)))
    (line : String) : Extends (execute budget line) (execute budget' line) := by
  rcases execute_cases line with ⟨file, hfile⟩ | ⟨hcommand, hblank⟩ | hother
  · rw [execute_of_load hfile, execute_of_load hfile]
    exact (hload file).bind fun result ↦ .refl _
  · rw [execute_of_ofLine?_eq_none hcommand hblank, execute_of_ofLine?_eq_none hcommand hblank]
    exact (extends_evaluate hsteps line).bind fun normal ↦ .refl _
  · intro session w r hrun
    obtain ⟨r', hr', -⟩ := hother session w
    rwa [hr'] at hrun ⊢

/-- A load has the same result with more steps to go and more depth to descend. By induction on the
depth. -/
theorem extends_load {steps steps' depth depth' : Nat} (hsteps : steps ≤ steps')
    (hdepth : depth ≤ depth') (lines lines' : Nat) (source : Source) :
    Extends (load ⟨steps, depth, lines⟩ source) (load ⟨steps', depth', lines'⟩ source) := by
  induction depth generalizing depth' source with
  | zero => exact fun _ _ _ hrun ↦ nomatch hrun
  | succ depth ih =>
    obtain ⟨depth', rfl⟩ := Nat.exists_eq_add_one.2 (Nat.lt_of_lt_of_le (Nat.zero_lt_succ _) hdepth)
    have hexecute : ∀ line, Extends (execute ⟨steps, depth, lines⟩ line)
        (execute ⟨steps', depth', lines'⟩ line) :=
      extends_execute_of_extends_load hsteps fun file ↦
        ih (Nat.le_of_succ_le_succ hdepth) (.file file)
    intro session w r hrun
    rcases htext : w.text source with cause | text
    · rwa [load_apply_of_error htext] at hrun ⊢
    · rw [load_apply htext] at hrun ⊢
      obtain ⟨result, hresult, hr⟩ := Option.map_eq_some_iff.1 hrun
      rw [executeAll, Extends.mapM hexecute hresult, Option.map_some, hr]

/-- What a load returns does not depend on the budget under which it does. A budget that is larger
than both gives the result of either. -/
theorem load_unique {budget budget' : Budget} {source : Source} {session : Session} {w : World}
    {r r' : (Except LoadError Nat × Session) × World}
    (h : (load budget source : SessionT WorldM _) session w = some r)
    (h' : (load budget' source : SessionT WorldM _) session w = some r') : r = r' := by
  have hlarge := extends_load (le_max_left budget.steps budget'.steps)
    (le_max_left budget.depth budget'.depth) _ 0 source h
  have hlarge' := extends_load (le_max_right budget.steps budget'.steps)
    (le_max_right budget.depth budget'.depth) _ 0 source h'
  exact Option.some.inj (hlarge.symm.trans hlarge')

theorem extends_execute {budget budget' : Budget} (hsteps : budget.steps ≤ budget'.steps)
    (hdepth : budget.depth ≤ budget'.depth) (line : String) :
    Extends (execute budget line) (execute budget' line) :=
  extends_execute_of_extends_load hsteps (fun file ↦ extends_load hsteps hdepth _ _ (.file file))
    line

theorem extends_executeAll {budget budget' : Budget} (hsteps : budget.steps ≤ budget'.steps)
    (hdepth : budget.depth ≤ budget'.depth) (lines : List String) :
    Extends (executeAll budget lines) (executeAll budget' lines) :=
  Extends.mapM (extends_execute hsteps hdepth)

end Session

end UntypedLambda
