import UntypedLambda.Proofs.Evaluation
import UntypedLambda.Proofs.ShiftedNumbers

/-!
# Loading a source is executing its lines

The lines of a source are executed one after another, each of them by the session that the ones
before have left behind, and the results are counted. So a load is a run of `execute` over a list
(`load_succ`), with one level less for the files that are nested below it; the equation holds in
every monad with a console.

On a world the text of a source is known (`World.text`), and reading it leaves the world behind that
`World.behind` says. `load_apply` puts the two together.

A load notes an event, and a session keeps its events. What is kept is of no consequence: sessions
that differ in the journal only do the same to the same world (`Unrecorded`), line by line and file
by file (`unrecorded_execute`). So a load does to the settings, to the number of the next fresh name
and to the world what its lines do, executed by a session that has noted nothing (`outcome_load`).
-/

namespace UntypedLambda

namespace Session

section Equations

variable {m : Type → Type} [Monad m]

/-- The failures are counted behind the last line. -/
theorem countFailures_eq_mapM [LawfulMonad m] (execute : String → SessionT m Bool)
    (lines : List String) :
    countFailures execute lines = (·.count false) <$> lines.mapM execute := by
  induction lines with
  | nil => simp [countFailures]
  | cons line lines ih =>
    rw [countFailures, List.mapM_cons, map_bind]
    refine bind_congr fun ok ↦ ?_
    rw [ih, map_bind, bind_map_left]
    refine bind_congr fun oks ↦ ?_
    rcases ok with - | - <;> simp

variable [Console m]

/-- Executes lines one after another. The results say which of them went well. -/
def executeAll (budget : Budget) (lines : List String) : SessionT m (List Bool) :=
  lines.mapM (execute budget)

/-- A line that loads a file is that load. -/
theorem execute_of_load {line file : String}
    (h : Command.ofLine? line = some (.ok (.load file))) (budget : Budget) :
    (execute budget line : SessionT m Bool) = loadReported budget (.file file) := by
  rw [execute, executeWith, h]
  rfl

/-- Of a budget only the number of steps matters to a line. -/
theorem executeWith_congr {budget budget' : Budget} (h : budget.steps = budget'.steps)
    (loadFile : String → SessionT m Bool) :
    executeWith budget loadFile = executeWith budget' loadFile := by
  funext line
  simp only [executeWith, evaluate, h]

theorem loadWithin_congr {budget budget' : Budget} (h : budget.steps = budget'.steps)
    (depth : Nat) (source : Source) :
    (loadWithin budget depth source : SessionT m _) = loadWithin budget' depth source := by
  induction depth generalizing source with
  | zero => rfl
  | succ depth ih => simp only [loadWithin, ih, executeWith_congr h]

/-- A load executes the lines of its source in order, all of them, and counts those that did not go
well. -/
theorem load_succ [LawfulMonad m] (steps depth lines : Nat) (source : Source) :
    (load ⟨steps, depth + 1, lines⟩ source : SessionT m _) = (do
      match ← readSource source with
      | .error cause => return .error ⟨source, cause⟩
      | .ok text =>
        modify fun session ↦ { session with supply := session.supply.note (.loading source.name) }
        let oks ← executeAll ⟨steps, depth, lines⟩ (executableLines text)
        if oks.count false > 0 then
          Console.complainLine
            (source.name ++ ": " ++ toString (oks.count false) ++ " line(s) failed")
        return .ok (oks.count false)) := by
  have hbelow : (executeWith ⟨steps, depth + 1, lines⟩ fun file ↦
      loadWithin ⟨steps, depth + 1, lines⟩ depth (.file file) >>= reportLoad (.file file)) =
        (execute ⟨steps, depth, lines⟩ : String → SessionT m Bool) := by
    have hsteps : (⟨steps, depth + 1, lines⟩ : Budget).steps =
        (⟨steps, depth, lines⟩ : Budget).steps := rfl
    rw [executeWith_congr hsteps]
    simp only [loadWithin_congr hsteps]
    rfl
  simp only [load, loadWithin, hbelow, countFailures_eq_mapM, bind_map_left]
  rfl

end Equations

end Session

/-! ### Sources of a world -/

namespace World

/-- The text of a source. -/
def text (w : World) : Source → Except FileError String
  | .file name => w.files.text name
  | .input => FileError.decode w.input

/-- The world behind a source that was read. -/
def behind (w : World) : Source → World
  | .file _ => w
  | .input => w.withInput []

end World

/-- A session that has noted what it is about to load. -/
def Session.loading (session : Session) (source : Source) : Session :=
  { session with supply := session.supply.note (.loading source.name) }

theorem SessionT.bind_apply {α β : Type} {x : SessionT WorldM α} {f : α → SessionT WorldM β}
    {session session' : Session} {w w' : World} {a : α}
    (h : x session w = some ((a, session'), w')) : (x >>= f) session w = f a session' w' := by
  show (x session w).bind _ = _
  rw [h]
  rfl

theorem SessionT.bind_apply_iff {α β : Type} {x : SessionT WorldM α} {f : α → SessionT WorldM β}
    {session : Session} {w : World} {r : (β × Session) × World} :
    (x >>= f) session w = some r ↔
      ∃ a session' w', x session w = some ((a, session'), w') ∧ f a session' w' = some r := by
  show (x session w).bind _ = some r ↔ _
  rw [Option.bind_eq_some_iff]
  exact ⟨fun ⟨⟨⟨a, session'⟩, w'⟩, hx, hf⟩ ↦ ⟨a, session', w', hx, hf⟩,
    fun ⟨a, session', w', hx, hf⟩ ↦ ⟨((a, session'), w'), hx, hf⟩⟩

theorem SessionT.pure_apply_iff {α : Type} {a b : α} {session session' : Session} {w w' : World} :
    (pure a : SessionT WorldM α) session w = some ((b, session'), w') ↔
      a = b ∧ session = session' ∧ w = w' := by
  show some ((a, session), w) = some ((b, session'), w') ↔ _
  simp [and_assoc]

namespace Session

theorem readSource_apply (source : Source) (session : Session) (w : World) :
    (readSource source : SessionT WorldM _) session w =
      some ((w.text source, session), w.behind source) := by
  rcases source with name | -
  · have hfile : (Console.readFile name : SessionT WorldM _) session w =
        some ((w.files.read name, session), w) := rfl
    show (Console.readFile name >>= _ : SessionT WorldM _) session w =
      some ((w.files.read name >>= FileError.decode, session), w)
    rw [SessionT.bind_apply hfile]
    rcases w.files.read name with cause | bytes <;> rfl
  · rfl

/-- What is reported behind a load of which so many lines failed. -/
def loadReport (source : Source) (failed : Nat) : String :=
  if failed > 0 then source.name ++ ": " ++ toString failed ++ " line(s) failed" ++ "\n" else ""

/-- A load on a world: the results of the lines are counted, and reported if there are failures. -/
theorem load_apply {steps depth lines : Nat} {source : Source} {session : Session} {w : World}
    {text : String} (htext : w.text source = .ok text) :
    (load ⟨steps, depth + 1, lines⟩ source : SessionT WorldM _) session w =
      ((executeAll ⟨steps, depth, lines⟩ (executableLines text) : SessionT WorldM _)
        (session.loading source) (w.behind source)).map fun ((oks, session'), w') ↦
          ((.ok (oks.count false), session'),
            w'.complained (loadReport source (oks.count false))) := by
  rw [load_succ, SessionT.bind_apply (readSource_apply source session w), htext]
  show (modify (·.loading source) >>= _ : SessionT WorldM _) session (w.behind source) = _
  have hmodify : (modify (·.loading source) : SessionT WorldM PUnit) session (w.behind source) =
      some ((⟨⟩, session.loading source), w.behind source) := rfl
  rw [SessionT.bind_apply hmodify]
  show Option.bind _ _ = _
  rcases (executeAll ⟨steps, depth, lines⟩ (executableLines text) : SessionT WorldM _)
    (session.loading source) (w.behind source) with - | ⟨⟨oks, session'⟩, w'⟩
  · rfl
  · show (if oks.count false > 0 then _ else _ : SessionT WorldM _) session' w' =
      some ((Except.ok (oks.count false), session'),
        w'.complained (loadReport source (oks.count false)))
    rw [loadReport]
    split
    · rfl
    · rw [World.complained_empty]
      rfl

/-- Whether a load went well: the source was read, and none of its lines failed. -/
def wentWell : Except LoadError Nat → Bool
  | .ok failed => failed == 0
  | .error _ => false

theorem wentWell_iff {result : Except LoadError Nat} : wentWell result = true ↔ result = .ok 0 := by
  rcases result with fault | failed <;> simp [wentWell]

/-- What is reported about a load that failed, beyond what the load itself reports. -/
def failureReport (source : Source) : Except LoadError Nat → String
  | .ok _ => ""
  | .error fault => "failed to load file '" ++ source.name ++ "': " ++ fault.message ++ "\n"

theorem loadReported_apply (budget : Budget) (source : Source) (session : Session) (w : World) :
    (loadReported budget source : SessionT WorldM _) session w =
      ((load budget source : SessionT WorldM _) session w).map fun r ↦
        ((wentWell r.1.1, r.1.2), r.2.complained (failureReport source r.1.1)) := by
  show Option.bind _ _ = _
  rcases (load budget source : SessionT WorldM _) session w with
    - | ⟨⟨fault | failed, session'⟩, w'⟩
  · rfl
  · rfl
  · show some ((failed == 0, session'), w') = some ((failed == 0, session'), w'.complained "")
    rw [World.complained_empty]

end Session

/-! ### The journal does not matter -/

/-- What a session does depends on: the settings and the number of the next fresh name. -/
def Session.core (session : Session) : Settings × Nat :=
  (session.settings, session.supply.next)

/-- The outcome of a computation up to the journal of the session. -/
def outcome {α : Type} (run : Option ((α × Session) × World)) :
    Option (α × (Settings × Nat) × World) :=
  run.map fun r ↦ (r.1.1, r.1.2.core, r.2)

/-- The journal of the session does not matter to a computation. -/
def Unrecorded {α : Type} (x : SessionT WorldM α) : Prop :=
  ∀ (s t : Session) (w : World), s.core = t.core → outcome (x s w) = outcome (x t w)

namespace Unrecorded

variable {α β : Type}

protected theorem pure (a : α) : Unrecorded (pure a) := by
  intro s t w h
  show some (a, s.core, w) = some (a, t.core, w)
  rw [h]

protected theorem bind {x : SessionT WorldM α} {f : α → SessionT WorldM β} (hx : Unrecorded x)
    (hf : ∀ a, Unrecorded (f a)) : Unrecorded (x >>= f) := by
  intro s t w h
  have hrun := hx s t w h
  show outcome ((x s w).bind fun r ↦ f r.1.1 r.1.2 r.2) =
    outcome ((x t w).bind fun r ↦ f r.1.1 r.1.2 r.2)
  rcases hs : x s w with - | ⟨⟨a, s'⟩, w'⟩ <;> rcases ht : x t w with - | ⟨⟨b, t'⟩, v'⟩ <;>
    simp only [hs, ht, outcome, Option.map_some, Option.map_none, reduceCtorEq, Option.some.injEq,
      Prod.mk.injEq] at hrun
  · rfl
  · obtain ⟨rfl, hcore, rfl⟩ := hrun
    exact hf a s' t' w' hcore

theorem lift (x : WorldM α) : Unrecorded (liftM x : SessionT WorldM α) := by
  intro s t w h
  show outcome ((x w).bind fun r ↦ some ((r.1, s), r.2)) =
    outcome ((x w).bind fun r ↦ some ((r.1, t), r.2))
  rcases x w with - | ⟨a, w'⟩
  · rfl
  · exact Unrecorded.pure a s t w' h

theorem complainLine_pure (text : String) (a : α) :
    Unrecorded (do Console.complainLine text; return a) :=
  (lift _).bind fun _ ↦ .pure a

protected theorem mapM {f : α → SessionT WorldM β} {as : List α} (h : ∀ a, Unrecorded (f a)) :
    Unrecorded (as.mapM f) := by
  induction as with
  | nil => exact .pure []
  | cons a as ih =>
    rw [List.mapM_cons]
    exact (h a).bind fun b ↦ ih.bind fun bs ↦ .pure (b :: bs)

end Unrecorded

namespace Session

open UntypedLambda.Expr (ending reportedBy)

theorem outcome_evaluated_ok (budget : Budget) (session : Session) (w : World) (e : Expr) :
    outcome (evaluated budget session w (.ok e)) =
      (ending (e.trace session.settings.limit none budget.steps session.supply).1).map fun r ↦
        (r.1.toOption, (session.settings, r.2),
          w.afterReduction session.settings (reportedBy
            (e.trace session.settings.limit none budget.steps session.supply).2) r.1) := by
  rw [outcome, evaluated, ending, Option.map_map, Option.map_map]
  rfl

theorem unrecorded_evaluate (budget : Budget) (line : String) :
    Unrecorded (evaluate budget line) := by
  intro s t w h
  obtain ⟨hsettings, hnext⟩ := Prod.mk.inj h
  rw [evaluate_apply, evaluate_apply]
  rcases Expr.read line with fault | e
  · show some (none, s.core, _) = some (none, t.core, _)
    rw [h]
  · obtain ⟨hending, hrecord⟩ :=
      Expr.trace_congr hnext t.settings.limit none budget.steps e
    rw [outcome_evaluated_ok, outcome_evaluated_ok, hsettings, hending, hrecord]

theorem unrecorded_modifySettings (f : Settings → Settings) :
    Unrecorded (modifySettings f) := by
  intro s t w h
  obtain ⟨hsettings, hnext⟩ := Prod.mk.inj h
  show some ((), (f s.settings, s.supply.next), w) = some ((), (f t.settings, t.supply.next), w)
  rw [hsettings, hnext]

/-- A setting that is toggled and then shown. -/
theorem unrecorded_toggle (f : Settings → Settings) (shown : Settings → String) :
    Unrecorded (do
      modifySettings f
      Console.printLine (shown (← get).settings)
      return true) := by
  intro s t w h
  obtain ⟨hsettings, hnext⟩ := Prod.mk.inj h
  show some (true, (f s.settings, s.supply.next), w.printed (shown (f s.settings) ++ "\n")) =
    some (true, (f t.settings, t.supply.next), w.printed (shown (f t.settings) ++ "\n"))
  rw [hsettings, hnext]

theorem unrecorded_perform {loadFile : String → SessionT WorldM Bool}
    (hload : ∀ file, Unrecorded (loadFile file)) (command : Command) :
    Unrecorded (perform loadFile command) := by
  rcases command with - | file | - | text | -
  · exact (Unrecorded.lift _).bind fun _ ↦ .pure true
  · exact hload file
  · exact unrecorded_toggle _ fun settings ↦ "printing every step: " ++ onOff settings.showSteps
  · rw [perform]
    rcases readLimit text with fault | limit
    · exact .complainLine_pure _ false
    · exact (unrecorded_modifySettings _).bind fun _ ↦ .pure true
  · exact unrecorded_toggle _ fun settings ↦ "pause mode: " ++ onOff settings.pause

theorem unrecorded_executeWith (budget : Budget) {loadFile : String → SessionT WorldM Bool}
    (hload : ∀ file, Unrecorded (loadFile file)) (line : String) :
    Unrecorded (executeWith budget loadFile line) := by
  rw [executeWith]
  rcases Command.ofLine? line with - | (fault | command)
  · by_cases hblank : isBlankLine line
    · simpa [hblank] using Unrecorded.pure true
    · simpa [hblank] using (unrecorded_evaluate budget line).bind fun normal ↦ .pure normal.isSome
  · exact .complainLine_pure _ false
  · exact unrecorded_perform hload command

theorem unrecorded_readSource (source : Source) :
    Unrecorded (readSource source : SessionT WorldM _) := by
  intro s t w h
  rw [readSource_apply, readSource_apply]
  exact Unrecorded.pure _ s t _ h

theorem unrecorded_reportLoad (source : Source) (result : Except LoadError Nat) :
    Unrecorded (reportLoad source result) := by
  rcases result with fault | failed
  · exact .complainLine_pure _ false
  · exact .pure _

/-- A load takes no notice of the journal, by induction on the depth of nesting. -/
theorem unrecorded_load (steps depth lines : Nat) (source : Source) :
    Unrecorded (load ⟨steps, depth, lines⟩ source) := by
  induction depth generalizing source with
  | zero => exact .lift _
  | succ depth ih =>
    have hexecute : ∀ line, Unrecorded (execute ⟨steps, depth, lines⟩ line) :=
      unrecorded_executeWith _ fun file ↦ (ih (.file file)).bind (unrecorded_reportLoad _)
    rw [load_succ]
    refine (unrecorded_readSource source).bind fun result ↦ ?_
    rcases result with cause | text
    · exact .pure _
    · refine Unrecorded.bind (fun s t w h ↦ ?_) fun _ ↦
        (Unrecorded.mapM hexecute).bind fun oks ↦ ?_
      · exact Unrecorded.pure _ (s.loading source) (t.loading source) w h
      · split
        · exact .complainLine_pure _ _
        · exact .pure _

theorem unrecorded_execute (budget : Budget) (line : String) :
    Unrecorded (execute budget line) :=
  unrecorded_executeWith budget (fun file ↦
    (unrecorded_load budget.steps budget.depth budget.lines (.file file)).bind
      (unrecorded_reportLoad _)) line

theorem unrecorded_executeAll (budget : Budget) (lines : List String) :
    Unrecorded (executeAll budget lines) :=
  .mapM (unrecorded_execute budget)

/-- **A load does what its lines do, one after another**, to the settings, to the number of the next
fresh name and to the world; only the report of the failures is its own. -/
theorem outcome_load {steps depth lines : Nat} {source : Source} {session : Session} {w : World}
    {text : String} (htext : w.text source = .ok text) :
    outcome ((load ⟨steps, depth + 1, lines⟩ source : SessionT WorldM _) session w) =
      (outcome ((executeAll ⟨steps, depth, lines⟩ (executableLines text) : SessionT WorldM _)
        session (w.behind source))).map fun (oks, core, w') ↦
          (.ok (oks.count false), core, w'.complained (loadReport source (oks.count false))) := by
  rw [unrecorded_executeAll _ _ session (session.loading source) _ rfl, load_apply htext, outcome,
    outcome, Option.map_map, Option.map_map]
  rfl

/-- A line that loads a file does what the lines of the file do, one after another, and goes well if
all of them do. -/
theorem outcome_execute_of_load {steps depth lines : Nat} {line file text : String}
    {session : Session} {w : World} (hline : Command.ofLine? line = some (.ok (.load file)))
    (htext : w.text (.file file) = .ok text) :
    outcome ((execute ⟨steps, depth + 1, lines⟩ line : SessionT WorldM _) session w) =
      (outcome ((executeAll ⟨steps, depth, lines⟩ (executableLines text) : SessionT WorldM _)
        session w)).map fun (oks, core, w') ↦
          (oks.count false == 0, core,
            w'.complained (loadReport (.file file) (oks.count false))) := by
  have hreported : outcome ((loadReported ⟨steps, depth + 1, lines⟩ (.file file) :
      SessionT WorldM _) session w) =
        (outcome ((load ⟨steps, depth + 1, lines⟩ (.file file) : SessionT WorldM _) session w)).map
          fun (result, core, w') ↦ (wentWell result, core,
            w'.complained (failureReport (.file file) result)) := by
    rw [loadReported_apply, outcome, outcome, Option.map_map, Option.map_map]
    rfl
  rw [execute_of_load hline, hreported, outcome_load htext, Option.map_map,
    show w.behind (.file file) = w from rfl]
  rcases outcome ((executeAll ⟨steps, depth, lines⟩ (executableLines text) : SessionT WorldM _)
    session w) with - | ⟨oks, core, w'⟩
  · rfl
  · exact congrArg (fun w' ↦ some (oks.count false == 0, core, w')) (World.complained_empty _)

end Session

end UntypedLambda
