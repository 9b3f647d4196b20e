import UntypedLambda.Proofs.NamesInUse
import UntypedLambda.Proofs.UnreadInput

/-!
# What an evaluation prints

An expression is evaluated by the loop of `normalizeFrom` under a watcher that acts on the world: at
each step it awaits a line of the input in pause mode, and prints the reduct if every step is shown.
Behind the loop the normal form is printed, unless it has been printed already.

* **Step** (`onStep_apply`) and **run** (`normalizeFrom_watcher`): the loop returns what the
  recorded run of the same expression returns (`Expr.trace`), and the world behind it is what the
  recorded reducts leave behind (`World.afterSteps`). Neither the settings nor the input have a say
  in the first.
* Whether the normal form has been printed is decided by comparing it with the expression that was
  read. That is right because a reducible expression is never its own normal form
  (`eq_iff_reportedBy_eq_nil`): the two are equal exactly if there was no step.
* `evaluate_apply` says what an evaluation does on any world, for a line that is no expression too.
-/

namespace UntypedLambda

open Text (Bytes cutLine decode?)

/-! ### Lines of the input -/

/-- An input without its first `n` lines. There is nothing behind the end of the input. -/
def dropLines : Nat → Bytes → Bytes
  | 0, input => input
  | n + 1, input => (cutLine (dropLines n input)).2

/-- What is reported about a line that was awaited: nothing, unless it is no text. -/
def awaitReport (line : Bytes) : String :=
  if (decode? line).isNone then "error: " ++ FileError.notText.message ++ "\n" else ""

/-- What is reported about the first `n` lines of an input when they have been awaited. -/
def awaitReports : Nat → Bytes → String
  | 0, _ => ""
  | n + 1, input => awaitReports n input ++ awaitReport (cutLine (dropLines n input)).1

/-! ### Steps -/

/-- How a step is shown. -/
def stepLine (reduct : Expr) : String := "= " ++ reduct.render ++ "\n"

/-- How several steps are shown. -/
def stepLines (reducts : List Expr) : String := String.join (reducts.map stepLine)

theorem stepLines_singleton (reduct : Expr) : stepLines [reduct] = stepLine reduct := by
  simp [stepLines]

theorem stepLines_concat (reducts : List Expr) (reduct : Expr) :
    stepLines (reducts ++ [reduct]) = stepLines reducts ++ stepLine reduct := by
  simp [stepLines, String.join_append]

/-! ### Runs -/

theorem WorldM.bind_apply {α β : Type} {x : WorldM α} {f : α → WorldM β} {w w' : World} {a : α}
    (h : x w = some (a, w')) : (x >>= f) w = f a w' := by
  show (x w).bind _ = _
  rw [h]
  rfl

theorem SessionT.get_bind_apply {α : Type} (f : Session → SessionT WorldM α) (session : Session)
    (w : World) : (get >>= f) session w = f session session w := rfl

/-- What is done below a session leaves it as it is. -/
theorem SessionT.lift_bind_apply {α β : Type} {x : WorldM α} {f : α → SessionT WorldM β}
    {session : Session} {w w' : World} {a : α} (h : x w = some (a, w')) :
    ((liftM x : SessionT WorldM α) >>= f) session w = f a session w' := by
  show ((x w).bind _).bind _ = _
  rw [h]
  rfl

namespace World

/-- The world behind what was printed. -/
def printed (w : World) (text : String) : World := { w with output := w.output ++ text }

/-- The world behind what was reported. -/
def complained (w : World) (text : String) : World := { w with complaints := w.complaints ++ text }

theorem complained_empty (w : World) : w.complained "" = w := by
  rw [complained, String.append_empty]

/-- The world behind the steps of a reduction that led to `reducts`. -/
def afterSteps (settings : Settings) (w : World) (reducts : List Expr) : World :=
  { w with
    input := if settings.pause then dropLines reducts.length w.input else w.input
    output := w.output ++ if settings.showSteps then stepLines reducts else ""
    complaints := w.complaints ++
      if settings.pause then awaitReports reducts.length w.input else "" }

theorem afterSteps_nil (settings : Settings) (w : World) : w.afterSteps settings [] = w := by
  simp [afterSteps, stepLines, awaitReports, dropLines]

/-- One more step goes on in the world that the steps before have left behind. -/
theorem afterSteps_concat (settings : Settings) (w : World) (reducts : List Expr) (reduct : Expr) :
    w.afterSteps settings (reducts ++ [reduct]) =
      (w.afterSteps settings reducts).afterSteps settings [reduct] := by
  simp only [afterSteps, List.length_append, List.length_singleton, stepLines_concat]
  rcases settings.pause with - | - <;> rcases settings.showSteps with - | - <;>
    simp [dropLines, awaitReports, stepLines, String.append_assoc]

end World

namespace Session

open UntypedLambda.Expr (reportedBy traceFrom limitMet)

theorem awaitLine_apply (w : World) :
    (awaitLine : WorldM Unit) w = some ((),
      (w.withInput (cutLine w.input).2).complained (awaitReport (cutLine w.input).1)) := by
  show (if (decode? (cutLine w.input).1).isNone = true then
      Console.complainLine ("error: " ++ FileError.notText.message) else pure () : WorldM Unit)
    (w.withInput (cutLine w.input).2) = _
  rw [awaitReport]
  split
  · rfl
  · rw [World.complained_empty]
    rfl

/-- The step: what the watcher does is what one reduct leaves behind. -/
theorem onStep_apply (settings : Settings) (step : Nat) (reduct : Expr) (w : World) :
    ((watcher settings).onStep step reduct : WorldM Unit) w =
      some ((), w.afterSteps settings [reduct]) := by
  rcases hpause : settings.pause with - | - <;> rcases hshow : settings.showSteps with - | - <;>
    simp only [watcher, World.afterSteps, hpause, hshow, stepLines_singleton,
      List.length_singleton, dropLines, awaitReports, String.empty_append, String.append_empty,
      if_true, Bool.false_eq_true, if_false]
  · rfl
  · rfl
  · exact WorldM.bind_apply (awaitLine_apply w)
  · rw [WorldM.bind_apply (awaitLine_apply w)]
    rfl

/-- The run: the loop returns what the recorded run returns, and the world behind it is the one that
the recorded reducts leave behind. By induction on the budget; `t` is the record so far. -/
theorem normalizeFrom_watcher (settings : Settings) (limit : Option Nat) (budget steps : Nat)
    (e : Expr) (s : Supply) {t : Trace} (ht : t.raised = false) (w : World) :
    (e.normalizeFrom (watcher settings) limit budget steps s : WorldM _)
        (w.afterSteps settings (reportedBy t)) =
      some ((traceFrom limit none budget steps e s t).1,
        w.afterSteps settings (reportedBy (traceFrom limit none budget steps e s t).2)) := by
  induction budget generalizing steps e s t with
  | zero => rfl
  | succ budget ih =>
    rw [Expr.normalizeFrom,
      show ((watcher settings).isCancelled : WorldM Bool) = pure false from rfl, pure_bind,
      Expr.traceFrom_succ, ht]
    rcases hred : e.isReducible with - | -
    · rfl
    rcases hmet : limitMet limit steps with - | -
    · have hreported : reportedBy (⟨t.steps.push (steps + 1, (e.reduce s).1), false⟩ : Trace) =
          reportedBy t ++ [(e.reduce s).1] := by
        simp [reportedBy]
      have hrun := ih (steps + 1) (e.reduce s).1
        ((e.reduce s).2.note (.reduced (steps + 1) (e.reduce s).1))
        (t := ⟨t.steps.push (steps + 1, (e.reduce s).1), false⟩) rfl
      rw [hreported, World.afterSteps_concat] at hrun
      exact (WorldM.bind_apply (onStep_apply settings (steps + 1) _ _)).trans hrun
    · rfl

end Session

/-! ### Normal forms and steps -/

namespace Expr

theorem reportedBy_traceOf (e : Expr) (s : Supply) (j : Nat) (raised : Bool) :
    reportedBy (e.traceOf s j raised) = e.reducts s j := by
  simp [reportedBy, traceOf, numberedFrom, Function.comp_def]

/-- A normal form that is returned is the last reduct, and the reducts are those reported. -/
theorem exists_endsAfter_of_trace_ok {e normal : Expr} {limit : Option Nat} {budget : Nat}
    {s s' : Supply} (h : (e.trace limit none budget s).1 = some (.ok normal, s')) :
    ∃ j, e.EndsAfter s j ∧ normal = e.reduct s j ∧
      reportedBy (e.trace limit none budget s).2 = e.reducts s j := by
  obtain ⟨j, hend, hlimit, hnormal⟩ := exists_trace_ok_iff.1 ⟨budget, s', _, Prod.ext h rfl⟩
  have hbudget : j < budget := by
    by_contra hle
    rw [Nat.not_lt] at hle
    rw [trace_of_hasReducts (hend.1.mono hle) (hlimit.mono hle)] at h
    cases h
  obtain ⟨s'', -, hrun⟩ := trace_of_endsAfter hend hlimit hbudget
  exact ⟨j, hend, hnormal, by rw [hrun, reportedBy_traceOf]⟩

/-- A normal form is the expression itself if and only if there was no step: an expression with a
step is reducible, and a normal form is not. -/
theorem eq_iff_reportedBy_eq_nil {e normal : Expr} {limit : Option Nat} {budget : Nat}
    {s s' : Supply} (h : (e.trace limit none budget s).1 = some (.ok normal, s')) :
    normal = e ↔ reportedBy (e.trace limit none budget s).2 = [] := by
  obtain ⟨j, hend, rfl, hreported⟩ := exists_endsAfter_of_trace_ok h
  rw [hreported]
  rcases j with - | j
  · exact iff_of_true rfl rfl
  · obtain ⟨e', s'', hstep, -⟩ := hend.1.exists_step?
    refine iff_of_false (fun heq ↦ ?_) ?_
    · have hnormal := hend.not_isReducible
      rw [heq, isReducible_of_step? hstep] at hnormal
      cases hnormal
    · rw [reducts_of_step? hstep]
      exact List.cons_ne_nil _ _

/-- If there was a step, the last one led to the normal form. -/
theorem getLast?_reportedBy {e normal : Expr} {limit : Option Nat} {budget : Nat} {s s' : Supply}
    (h : (e.trace limit none budget s).1 = some (.ok normal, s'))
    (hsteps : reportedBy (e.trace limit none budget s).2 ≠ []) :
    (reportedBy (e.trace limit none budget s).2).getLast? = some normal := by
  obtain ⟨j, -, rfl, hreported⟩ := exists_endsAfter_of_trace_ok h
  rw [hreported] at hsteps ⊢
  rw [reduct, List.getLastD_eq_getLast?, List.getLast?_eq_some_getLast hsteps, Option.getD_some]

end Expr

/-! ### Evaluations -/

/-- What an evaluation prints, given whether every step is shown, the reducts and how the reduction
ended: the steps, if there are any and they are shown, and otherwise the normal form. -/
def displayed (showSteps : Bool) (reducts : List Expr) : Except Halt Expr → String
  | .ok normal =>
    if showSteps && !reducts.isEmpty then stepLines reducts else normal.render ++ "\n"
  | .error _ => if showSteps then stepLines reducts else ""

/-- What is reported about how a reduction ended. -/
def haltReport : Except Halt Expr → String
  | .ok _ => ""
  | .error halt => "error: " ++ halt.message ++ "\n"

/-- The world behind a reduction. -/
def World.afterReduction (settings : Settings) (w : World) (reducts : List Expr)
    (result : Except Halt Expr) : World :=
  { w.afterSteps settings reducts with
    output := w.output ++ displayed settings.showSteps reducts result
    complaints := (w.afterSteps settings reducts).complaints ++ haltReport result }

/-- Behind a normal form, the world is the one behind the steps if they have been shown, and the
normal form is printed there otherwise. -/
theorem World.afterReduction_ok (settings : Settings) (w : World) (reducts : List Expr)
    (normal : Expr) :
    w.afterReduction settings reducts (.ok normal) =
      if !settings.showSteps || reducts.isEmpty
      then (w.afterSteps settings reducts).printed (normal.render ++ "\n")
      else w.afterSteps settings reducts := by
  rcases hshow : settings.showSteps with - | - <;> rcases reducts with - | ⟨reduct, reducts⟩ <;>
    simp [afterReduction, afterSteps, printed, displayed, haltReport, hshow, stepLines]

namespace Session

open UntypedLambda.Expr (reportedBy)

/-- What it comes to on a world to evaluate what was read from a line. -/
def evaluated (budget : Budget) (session : Session) (w : World) :
    Except ReadError Expr → Option ((Option Expr × Session) × World)
  | .error fault =>
    some ((none, session), w.complained ("syntax error: " ++ fault.message ++ "\n"))
  | .ok e =>
    let run := e.trace session.settings.limit none budget.steps session.supply
    run.1.map fun (result, supply) ↦
      ((result.toOption, { session with supply }),
        w.afterReduction session.settings (reportedBy run.2) result)

theorem evaluate_apply (budget : Budget) (line : String) (session : Session) (w : World) :
    (evaluate budget line : SessionT WorldM _) session w =
      evaluated budget session w (Expr.read line) := by
  rw [evaluate]
  rcases hread : Expr.read line with fault | e
  · rfl
  have hrun := normalizeFrom_watcher session.settings session.settings.limit budget.steps 0 e
    session.supply (t := {}) rfl w
  rw [show reportedBy {} = [] from rfl, World.afterSteps_nil] at hrun
  dsimp only
  rw [SessionT.get_bind_apply, Expr.normalizeWith, SessionT.lift_bind_apply hrun]
  show _ = (e.trace session.settings.limit none budget.steps session.supply).1.map _
  rw [show Expr.traceFrom _ _ _ _ _ _ {} =
    e.trace session.settings.limit none budget.steps session.supply from rfl]
  rcases houtcome : (e.trace session.settings.limit none budget.steps session.supply).1 with
    - | ⟨halt | normal, supply⟩
  · rfl
  · rfl
  · have hsteps : (normal == e) =
        (reportedBy (e.trace session.settings.limit none budget.steps session.supply).2).isEmpty :=
      Bool.eq_iff_iff.2 (by simpa using Expr.eq_iff_reportedBy_eq_nil houtcome)
    dsimp only [Option.map_some]
    rw [World.afterReduction_ok, ← hsteps]
    split <;> rfl

/-- **An evaluation prints the normal form once, whether or not every step is shown.**

What is evaluated, the limit and the supply decide how the reduction runs; `run` is its record, and
`reducts` are the reducts that it reports. Whatever the settings and the world are beyond that:

* a reduction that ends in a normal form prints the line of the normal form, or, if the steps are
  shown and there are any, the lines of the steps and nothing else; the last of these is the normal
  form;
* one that fails prints the lines of its steps if they are shown, and nothing otherwise;
* pause mode takes one line off the input for each step, as long as there are lines, and reports
  those that are no text. The input is left alone otherwise;
* the result and the supply behind it are the same. -/
theorem evaluate_prints_normal_form_once (budget : Budget) {line : String} {e : Expr}
    (hread : Expr.read line = .ok e) (limit : Option Nat) (supply : Supply) :
    let run := e.trace limit none budget.steps supply
    let reducts := reportedBy run.2
    let evaluation (showSteps pause : Bool) (world : World) :=
      (evaluate budget line : SessionT WorldM _) ⟨⟨limit, showSteps, pause⟩, supply⟩ world
    (∀ showSteps pause world, run.1 = none → evaluation showSteps pause world = none) ∧
    (∀ normal supply', run.1 = some (.ok normal, supply') →
      (reducts ≠ [] → reducts.getLast? = some normal) ∧
      ∀ showSteps pause world, evaluation showSteps pause world =
        some ((some normal, ⟨⟨limit, showSteps, pause⟩, supply'⟩),
          { world with
            input := if pause then dropLines reducts.length world.input else world.input
            output := world.output ++
              if showSteps && !reducts.isEmpty then stepLines reducts else normal.render ++ "\n"
            complaints := world.complaints ++
              if pause then awaitReports reducts.length world.input else "" })) ∧
    (∀ halt supply', run.1 = some (.error halt, supply') →
      ∀ showSteps pause world, evaluation showSteps pause world =
        some ((none, ⟨⟨limit, showSteps, pause⟩, supply'⟩),
          { world with
            input := if pause then dropLines reducts.length world.input else world.input
            output := world.output ++ if showSteps then stepLines reducts else ""
            complaints := world.complaints ++
              (if pause then awaitReports reducts.length world.input else "") ++
              ("error: " ++ halt.message ++ "\n") })) ∧
    ∀ showSteps pause world showSteps' pause' world',
      (evaluation showSteps pause world).map (fun r ↦ (r.1.1, r.1.2.supply)) =
        (evaluation showSteps' pause' world').map fun r ↦ (r.1.1, r.1.2.supply) := by
  intro run reducts evaluation
  have hevaluation : ∀ showSteps pause world, evaluation showSteps pause world =
      run.1.map fun (result, supply') ↦
        ((result.toOption, ⟨⟨limit, showSteps, pause⟩, supply'⟩),
          world.afterReduction ⟨limit, showSteps, pause⟩ reducts result) := by
    intro showSteps pause world
    show (evaluate budget line : SessionT WorldM _) _ world = _
    rw [evaluate_apply, hread]
    rfl
  refine ⟨?_, ?_, ?_, ?_⟩
  · intro showSteps pause world hnone
    rw [hevaluation, hnone, Option.map_none]
  · intro normal supply' hnormal
    refine ⟨Expr.getLast?_reportedBy hnormal, fun showSteps pause world ↦ ?_⟩
    rw [hevaluation, hnormal]
    simp [World.afterReduction, World.afterSteps, displayed, haltReport, Except.toOption]
  · intro halt supply' hhalt showSteps pause world
    rw [hevaluation, hhalt]
    rfl
  · intro showSteps pause world showSteps' pause' world'
    rw [hevaluation, hevaluation, Option.map_map, Option.map_map]
    rfl

/-- Two steps are shown, the last being the normal form. Pause mode finds one line to take off the
input, and none at the second step. -/
theorem evaluate_prints_normal_form_once_two_steps :
    (evaluate ⟨3, 0, 0⟩ "(λx y. x) a b" : SessionT WorldM _) ⟨⟨some 2, true, true⟩, {}⟩
        { input := Text.encode "go" } =
      some ((some (.var "a"), ⟨⟨some 2, true, true⟩, {}⟩),
        { output := "= (λ y . a) b\n= a\n" }) ∧
    (evaluate ⟨3, 0, 0⟩ "(λx y. x) a b" : SessionT WorldM _) ⟨⟨some 2, false, false⟩, {}⟩
        { input := Text.encode "go" } =
      some ((some (.var "a"), ⟨⟨some 2, false, false⟩, {}⟩),
        { input := Text.encode "go", output := "a\n" }) := by
  have hread : Expr.read "(λx y. x) a b" =
      .ok (.app (.app (.lam "x" (.lam "y" (.var "x"))) (.var "a")) (.var "b")) := by decide +kernel
  have hspec := evaluate_prints_normal_form_once ⟨3, 0, 0⟩ hread (some 2) {}
  have hnormal := hspec.2.1 (.var "a") {} (by decide +kernel)
  refine ⟨(hnormal.2 true true _).trans ?_, (hnormal.2 false false _).trans ?_⟩ <;>
    decide +kernel

end Session

end UntypedLambda
