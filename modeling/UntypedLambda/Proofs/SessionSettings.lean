import Mathlib.Logic.Function.Iterate
import UntypedLambda.Prompt
import UntypedLambda.Proofs.Arguments

/-!
# What is left in the settings

Of all that a session executes, the commands alone change the settings, and only those that are read
and carried out. What a line does is said once (`Settings.after`).

* **Step** (`settings_execute`) and **run** (`settings_executeAll`): executing lines that load no
  file folds `Settings.after` over them. So a switch has been toggled as often as there are lines
  for it, and the limit is the last one that was set.
* A file is loaded by executing its lines (`outcome_load`), so a property of the settings that no
  line breaks is kept by files that load files, to any depth (`Keeps`, `keeps_load`).
* No limit that is read is 0, since 0 stands for none. So the limit is never 0, whatever is done
  with a new session (`Session.Reachable`).
-/

namespace UntypedLambda

/-! ### One line -/

/-- The limit that a line sets, if it sets one. -/
def limitOf? (line : String) : Option (Option Nat) :=
  match Command.ofLine? line with
  | some (.ok (.setLimit text)) => (readLimit text).toOption
  | _ => none

/-- The settings behind a line that loads no file. -/
def Settings.after (settings : Settings) (line : String) : Settings where
  limit := (limitOf? line).getD settings.limit
  showSteps :=
    if Command.ofLine? line = some (.ok .toggleSteps) then !settings.showSteps
    else settings.showSteps
  pause :=
    if Command.ofLine? line = some (.ok .togglePause) then !settings.pause else settings.pause

/-- A line that is no command which sets anything changes nothing. -/
theorem Settings.after_eq_self {line : String}
    (hsteps : Command.ofLine? line ≠ some (.ok .toggleSteps))
    (hpause : Command.ofLine? line ≠ some (.ok .togglePause)) (hlimit : limitOf? line = none)
    (settings : Settings) : settings.after line = settings := by
  simp [after, hsteps, hpause, hlimit]

namespace Session

theorem settings_evaluated {budget : Budget} {session session' : Session} {w w' : World}
    {readResult : Except ReadError Expr} {normal : Option Expr}
    (h : evaluated budget session w readResult = some ((normal, session'), w')) :
    session'.settings = session.settings := by
  rcases readResult with fault | e
  · cases h
    rfl
  · obtain ⟨⟨result, supply⟩, -, h⟩ := Option.map_eq_some_iff.1 h
    cases h
    rfl

/-- The step: a line that loads no file leaves the settings behind that it asks for. -/
theorem settings_execute {budget : Budget} {line : String} {session session' : Session}
    {w w' : World} {ok : Bool}
    (hload : ∀ file, Command.ofLine? line ≠ some (.ok (.load file)))
    (h : (execute budget line : SessionT WorldM _) session w = some ((ok, session'), w')) :
    session'.settings = session.settings.after line := by
  rw [execute, executeWith] at h
  rcases hline : Command.ofLine? line with - | (fault | command) <;> rw [hline] at h
  -- An expression or a blank line, then a command that is not understood, then one that is.
  · rw [Settings.after_eq_self (by simp [hline]) (by simp [hline]) (by simp [limitOf?, hline])]
    dsimp only at h
    split at h
    · obtain ⟨-, rfl, -⟩ := SessionT.pure_apply_iff.1 h
      rfl
    · obtain ⟨normal, session₁, w₁, heval, hpure⟩ := SessionT.bind_apply_iff.1 h
      obtain ⟨-, rfl, -⟩ := SessionT.pure_apply_iff.1 hpure
      rw [evaluate_apply] at heval
      exact settings_evaluated heval
  · rw [Settings.after_eq_self (by simp [hline]) (by simp [hline]) (by simp [limitOf?, hline])]
    cases h
    rfl
  · rcases command with - | file | - | text | -
    case load => exact absurd hline (hload file)
    case setLimit =>
      dsimp only [perform] at h
      rcases hlimit : readLimit text with fault | limit <;> rw [hlimit] at h <;> cases h <;>
        simp [Settings.after, limitOf?, hline, hlimit, Except.toOption]
    -- What is left either toggles one switch or does nothing to the session.
    all_goals
      cases h
      simp [Settings.after, limitOf?, hline]

/-- The run: lines that load no file leave the settings behind that they ask for one after
another. -/
theorem settings_executeAll {budget : Budget} {lines : List String} {session session' : Session}
    {w w' : World} {oks : List Bool}
    (hload : ∀ line ∈ lines, ∀ file, Command.ofLine? line ≠ some (.ok (.load file)))
    (h : (executeAll budget lines : SessionT WorldM _) session w = some ((oks, session'), w')) :
    session'.settings = lines.foldl Settings.after session.settings := by
  induction lines generalizing session w oks with
  | nil =>
    obtain ⟨-, rfl, -⟩ := SessionT.pure_apply_iff.1 h
    rfl
  | cons line lines ih =>
    obtain ⟨hline, hlines⟩ := List.forall_mem_cons.1 hload
    rw [executeAll, List.mapM_cons] at h
    obtain ⟨ok, session₁, w₁, hexecute, h⟩ := SessionT.bind_apply_iff.1 h
    obtain ⟨oks₁, session₂, w₂, hexecuteAll, hpure⟩ := SessionT.bind_apply_iff.1 h
    obtain ⟨-, rfl, rfl⟩ := SessionT.pure_apply_iff.1 hpure
    rw [List.foldl_cons, ← settings_execute hline hexecute]
    exact ih hlines hexecuteAll

end Session

/-! ### Many lines -/

namespace Settings

/-- A switch has been toggled once for each line that toggles it. -/
theorem switch_foldl_after {switch : Settings → Bool} {p : String → Prop} [DecidablePred p]
    (hswitch : ∀ settings line,
      switch (settings.after line) = if p line then !switch settings else switch settings)
    (settings : Settings) (lines : List String) :
    switch (lines.foldl after settings) = not^[lines.countP (p ·)] (switch settings) := by
  induction lines generalizing settings with
  | nil => rfl
  | cons line lines ih =>
    rw [List.foldl_cons, ih, hswitch]
    by_cases hline : p line
    · rw [if_pos hline, List.countP_cons_of_pos (by simpa using hline), Function.iterate_succ_apply]
    · rw [if_neg hline, List.countP_cons_of_neg (by simpa using hline)]

/-- The limit is the last one that a line sets. -/
theorem limit_foldl_after (settings : Settings) (lines : List String) :
    (lines.foldl after settings).limit =
      ((lines.filterMap limitOf?).getLast?).getD settings.limit := by
  induction lines generalizing settings with
  | nil => rfl
  | cons line lines ih =>
    rw [List.foldl_cons, ih, List.filterMap_cons, after]
    rcases limitOf? line with - | limit
    · rfl
    · rw [List.getLast?_cons, Option.getD_some, Option.getD_some]

end Settings

/-! ### Properties that are kept -/

/-- The computation keeps a property of the settings, on any world. -/
def Keeps {α : Type} (p : Settings → Prop) (x : SessionT WorldM α) : Prop :=
  ∀ ⦃session w a session' w'⦄, x session w = some ((a, session'), w') →
    p session.settings → p session'.settings

namespace Keeps

variable {α β : Type} {p : Settings → Prop}

protected theorem pure (a : α) : Keeps p (pure a) := by
  intro session w b session' w' h hp
  obtain ⟨-, rfl, -⟩ := SessionT.pure_apply_iff.1 h
  exact hp

protected theorem bind {x : SessionT WorldM α} {f : α → SessionT WorldM β} (hx : Keeps p x)
    (hf : ∀ a, Keeps p (f a)) : Keeps p (x >>= f) := by
  intro session w b session' w' h hp
  obtain ⟨a, session₁, w₁, hxa, hfa⟩ := SessionT.bind_apply_iff.1 h
  exact hf a hfa (hx hxa hp)

theorem lift (x : WorldM α) : Keeps p (liftM x : SessionT WorldM α) := by
  intro session w a session' w' h hp
  obtain ⟨⟨b, w₁⟩, -, h⟩ := Option.bind_eq_some_iff.1 h
  cases h
  exact hp

protected theorem ite {c : Prop} [Decidable c] {x y : SessionT WorldM α} (hx : Keeps p x)
    (hy : Keeps p y) : Keeps p (if c then x else y) := by
  split
  · exact hx
  · exact hy

theorem modify {f : Session → Session}
    (hf : ∀ session, p session.settings → p (f session).settings) :
    Keeps p (modify f : SessionT WorldM PUnit) := by
  intro session w a session' w' h hp
  cases h
  exact hf session hp

protected theorem mapM {f : α → SessionT WorldM β} {as : List α} (h : ∀ a, Keeps p (f a)) :
    Keeps p (as.mapM f) := by
  induction as with
  | nil => exact .pure []
  | cons a as ih =>
    rw [List.mapM_cons]
    exact (h a).bind fun b ↦ ih.bind fun bs ↦ .pure (b :: bs)

end Keeps

namespace Session

variable {p : Settings → Prop}

theorem keeps_evaluate (budget : Budget) (line : String) : Keeps p (evaluate budget line) := by
  intro session w normal session' w' h hp
  rw [evaluate_apply] at h
  rwa [settings_evaluated h]

theorem keeps_readSource (source : Source) : Keeps p (readSource source : SessionT WorldM _) := by
  intro session w result session' w' h hp
  rw [readSource_apply] at h
  cases h
  exact hp

theorem keeps_reportLoad (source : Source) (result : Except LoadError Nat) :
    Keeps p (reportLoad source result) := by
  rcases result with fault | failed
  · exact (Keeps.lift _).bind fun _ ↦ .pure false
  · exact .pure _

section Lines

variable (hafter : ∀ settings line, p settings → p (settings.after line))

include hafter

/-- A line keeps what no line breaks, if the files that it may load do. -/
theorem keeps_execute_of_keeps_load {budget : Budget}
    (hload : ∀ file, Keeps p (load budget (.file file))) (line : String) :
    Keeps p (execute budget line) := by
  by_cases hline : ∃ file, Command.ofLine? line = some (.ok (.load file))
  · obtain ⟨file, hfile⟩ := hline
    rw [execute_of_load hfile]
    exact (hload file).bind (keeps_reportLoad _)
  · intro session w ok session' w' h hp
    rw [settings_execute (not_exists.1 hline) h]
    exact hafter _ line hp

/-- A file keeps what no line breaks, by induction on the depth of nesting. -/
theorem keeps_load (steps depth lines : Nat) (source : Source) :
    Keeps p (load ⟨steps, depth, lines⟩ source) := by
  induction depth generalizing source with
  | zero => exact .lift _
  | succ depth ih =>
    rw [load_succ]
    refine (keeps_readSource source).bind fun result ↦ ?_
    rcases result with cause | text
    · exact .pure _
    · have hexecute := keeps_execute_of_keeps_load hafter fun file ↦ ih (.file file)
      refine Keeps.bind (.modify fun session hp ↦ ?_) fun _ ↦
        (Keeps.mapM hexecute).bind fun oks ↦ ?_
      · exact hp
      split
      · exact (Keeps.lift _).bind fun _ ↦ .pure _
      · exact .pure _

theorem keeps_execute (budget : Budget) (line : String) : Keeps p (execute budget line) :=
  keeps_execute_of_keeps_load hafter
    (fun file ↦ keeps_load hafter budget.steps budget.depth budget.lines (.file file)) line

theorem keeps_loadAll (budget : Budget) (sources : List Source) :
    Keeps p (CommandLine.loadAll budget sources) := by
  induction sources with
  | nil => exact .pure true
  | cons source sources ih =>
    have hload := keeps_load hafter budget.steps budget.depth budget.lines source
    refine (hload.bind (keeps_reportLoad source)).bind fun ok ↦ ?_
    rcases ok with - | -
    · exact .pure false
    · exact ih

/-- The prompt keeps what no line breaks, by induction on the number of lines that are read. -/
theorem keeps_converse (budget : Budget) (lines : Nat) (before? : Option (List Char))
    (history : History) :
    Keeps p (Prompt.converse (fun line ↦ discard (execute budget line)) lines before? history) := by
  induction lines generalizing before? history with
  | zero => exact .lift _
  | succ lines ih =>
    rw [Prompt.converse]
    refine (Keeps.lift _).bind fun bytes ↦ ?_
    refine .ite ((Keeps.lift _).bind fun _ ↦ ?_) ?_
    all_goals
      rcases Prompt.Turn.ofInput before? (.ofBytes bytes) with - | before | text
      · exact .pure history
      · exact ih (some before) history
      · have hexecute := keeps_execute hafter budget (String.ofList text)
        exact Keeps.bind (hexecute.bind fun _ ↦ .pure PUnit.unit) fun _ ↦ ih none _

theorem keeps_ofSession (budget : Budget) : Keeps p (Prompt.ofSession budget) := by
  rw [Prompt.ofSession, Prompt.run]
  refine (Keeps.lift _).bind fun home ↦ .ite ((Keeps.lift _).bind fun _ ↦ ?_) ?_
  all_goals
    -- The history is read before the first line and written behind the last one.
    refine (Keeps.lift _).bind fun contents ↦ ?_
    rcases contents with cause | bytes
    all_goals
      refine (Keeps.pure _).bind fun history ↦ (keeps_converse hafter budget _ _ _).bind
        fun history' ↦ .ite (.pure _) ((Keeps.lift _).bind fun result ↦ ?_)
      rcases result with cause | -
      · exact .lift _
      · exact .pure _

theorem keeps_conclude (budget : Budget) (request : CommandLine.Request)
    (verdict : CommandLine.Verdict) : Keeps p (CommandLine.conclude budget request verdict) := by
  rcases verdict with - | - | option | fault
  · exact (keeps_loadAll hafter budget request.sources).bind fun ok ↦ .ite (.pure _) (.pure _)
  all_goals exact (Keeps.lift _).bind fun _ ↦ .pure _

/-- The arguments keep what no line breaks and no limit. -/
theorem keeps_run
    (hlimit : ∀ settings number limit, readLimit number = .ok limit → p settings →
      p { settings with limit })
    (budget : Budget) (arguments : List String) : Keeps p (CommandLine.run budget arguments) := by
  obtain ⟨items, verdict, hread⟩ : ∃ items verdict,
      CommandLine.read arguments = (({} : CommandLine.Request).extend items, verdict) :=
    ⟨_, _, CommandLine.readFrom_eq {} arguments⟩
  rw [CommandLine.run_eq hread]
  intro session w next session' w' h hp
  rw [CommandLine.withLimit_apply] at h
  refine keeps_conclude hafter budget _ verdict h ?_
  rcases hlast : (({} : CommandLine.Request).extend items).limit with - | limit
  · exact hp
  · obtain ⟨number, hnumber⟩ :=
      CommandLine.exists_readLimit_of_lastLimit? (Option.or_none.symm.trans hlast)
    exact hlimit _ number limit hnumber hp

end Lines

end Session

/-! ### The limit is never 0 -/

/-- No limit that is read is 0, since 0 stands for no limit. -/
theorem ne_zero_of_readLimit {text : String} {limit : Option Nat} (h : readLimit text = .ok limit) :
    limit ≠ some 0 := by
  rintro rfl
  rw [readLimit] at h
  rcases hnumber : Text.decimal? largestLimit (Text.trim text.toList) with - | - | n <;>
    rw [hnumber] at h <;> cases h

theorem ne_zero_of_limitOf? {line : String} {limit : Option Nat} (h : limitOf? line = some limit) :
    limit ≠ some 0 := by
  rw [limitOf?] at h
  split at h
  · next text _ =>
    rcases hlimit : readLimit text with fault | limit' <;> rw [hlimit] at h <;> cases h
    exact ne_zero_of_readLimit hlimit
  · cases h

theorem Settings.limit_after_ne_zero (settings : Settings) (line : String)
    (h : settings.limit ≠ some 0) : (settings.after line).limit ≠ some 0 := by
  rw [after]
  rcases hlimit : limitOf? line with - | limit
  · exact h
  · exact ne_zero_of_limitOf? hlimit

/-- The sessions there can be: a new one, whatever its supply is, and what is left of a session by
whatever can be done with it on whatever world. -/
inductive Session.Reachable : Session → Prop
  | new (supply : Supply) : Reachable { supply }
  | evaluate {session session' : Session} {w w' : World} {normal : Option Expr} (budget : Budget)
      (line : String) : Reachable session →
      (Session.evaluate budget line : SessionT WorldM _) session w =
        some ((normal, session'), w') → Reachable session'
  | execute {session session' : Session} {w w' : World} {ok : Bool} (budget : Budget)
      (line : String) : Reachable session →
      (Session.execute budget line : SessionT WorldM _) session w = some ((ok, session'), w') →
      Reachable session'
  | load {session session' : Session} {w w' : World} {result : Except LoadError Nat}
      (budget : Budget) (source : Source) : Reachable session →
      (Session.load budget source : SessionT WorldM _) session w =
        some ((result, session'), w') → Reachable session'
  | arguments {session session' : Session} {w w' : World} {next : CommandLine.Next}
      (budget : Budget) (arguments : List String) : Reachable session →
      (CommandLine.run budget arguments : SessionT WorldM _) session w =
        some ((next, session'), w') → Reachable session'
  | prompt {session session' : Session} {w w' : World} (budget : Budget) : Reachable session →
      (Prompt.ofSession budget : SessionT WorldM Unit) session w = some (((), session'), w') →
      Reachable session'

/-- No limit that is set is 0, so none ever is. -/
theorem Session.Reachable.limit_ne_zero {session : Session} (h : Reachable session) :
    session.settings.limit ≠ some 0 := by
  have hafter := Settings.limit_after_ne_zero
  induction h with
  | new supply => exact fun hzero ↦ absurd (Option.some.inj hzero) (by decide)
  | evaluate budget line _ hrun ih =>
    exact keeps_evaluate (p := (·.limit ≠ some 0)) budget line hrun ih
  | execute budget line _ hrun ih => exact keeps_execute hafter budget line hrun ih
  | load budget source _ hrun ih =>
    exact keeps_load hafter budget.steps budget.depth budget.lines source hrun ih
  | arguments budget arguments _ hrun ih =>
    exact keeps_run hafter (fun _ _ _ hnumber _ ↦ ne_zero_of_readLimit hnumber) budget arguments
      hrun ih
  | prompt budget _ hrun ih => exact keeps_ofSession hafter budget hrun ih

/-! ### Sessions as a whole -/

namespace Session

/-- **The settings behind a session are determined by the commands that succeeded.**

* Executing lines one after another, none of which loads a file, toggles each switch once for each
  line that is read as the command for it. The limit is the last one that a line sets, if there is
  one. Every other line leaves all the settings as they were.
* A load that can read its file does what the lines of the file do one after another, comments left
  out, to the settings, to the number of the next fresh name and to the world. All of them are
  executed, and those that did not go well are counted. They have one level of nesting less, which
  is the file's own.
* The limit is never 0. -/
theorem settings_determined_by_commands :
    (∀ (budget : Budget) (lines : List String) (session : Session) (world : World) (oks : List Bool)
        (session' : Session) (world' : World),
      (∀ line ∈ lines, ∀ file, Command.ofLine? line ≠ some (.ok (.load file))) →
      (lines.mapM (execute budget) : SessionT WorldM _) session world =
        some ((oks, session'), world') →
      session'.settings.showSteps =
        not^[lines.countP (Command.ofLine? · = some (.ok .toggleSteps))]
          session.settings.showSteps ∧
      session'.settings.pause =
        not^[lines.countP (Command.ofLine? · = some (.ok .togglePause))] session.settings.pause ∧
      session'.settings.limit =
        (lines.filterMap limitOf?).getLast?.getD session.settings.limit) ∧
    (∀ (budget : Budget) (line : String) (session : Session) (world : World) (ok : Bool)
        (session' : Session) (world' : World),
      (∀ file, Command.ofLine? line ≠ some (.ok (.load file))) →
      Command.ofLine? line ≠ some (.ok .toggleSteps) →
      Command.ofLine? line ≠ some (.ok .togglePause) → limitOf? line = none →
      (execute budget line : SessionT WorldM _) session world = some ((ok, session'), world') →
      session'.settings = session.settings) ∧
    (∀ (steps depth lines : Nat) (file text : String) (session : Session) (world : World),
      world.text (.file file) = .ok text →
      let executed := outcome
        ((((Text.logicalLines text).filter (!isComment ·)).mapM (execute ⟨steps, depth, lines⟩) :
          SessionT WorldM _) session world)
      outcome ((load ⟨steps, depth + 1, lines⟩ (.file file) : SessionT WorldM _) session world) =
        executed.map (fun (oks, core, world') ↦
          (.ok (oks.count false), core,
            world'.complained (loadReport (.file file) (oks.count false)))) ∧
      ∀ line, Command.ofLine? line = some (.ok (.load file)) →
        outcome ((execute ⟨steps, depth + 1, lines⟩ line : SessionT WorldM _) session world) =
          executed.map fun (oks, core, world') ↦
            (oks.count false == 0, core,
              world'.complained (loadReport (.file file) (oks.count false)))) ∧
    ∀ session, Reachable session → session.settings.limit ≠ some 0 := by
  refine ⟨?_, ?_, ?_, fun session hsession ↦ hsession.limit_ne_zero⟩
  · intro budget lines session world oks session' world' hload hrun
    rw [settings_executeAll hload hrun]
    exact ⟨Settings.switch_foldl_after (fun _ _ ↦ rfl) _ lines,
      Settings.switch_foldl_after (fun _ _ ↦ rfl) _ lines, Settings.limit_foldl_after _ lines⟩
  · intro budget line session world ok session' world' hload hsteps hpause hlimit hrun
    rw [settings_execute hload hrun, Settings.after_eq_self hsteps hpause hlimit]
  · intro steps depth lines file text session world htext executed
    exact ⟨outcome_load htext, fun line hline ↦ outcome_execute_of_load hline htext⟩

/-- Of five lines, one toggles a switch and one sets the limit. A file is read to its end, past the
line that fails. A limit of 0 is no limit. -/
theorem settings_determined_by_commands_past_failures :
    (let lines := [":steps", ":limit x", ":limit 7", ":pause now", "x"]
    ∃ oks session' world', (lines.mapM (execute ⟨1, 0, 0⟩) : SessionT WorldM _) {} {} =
        some ((oks, session'), world') ∧
      session'.settings = { limit := some 7, showSteps := true, pause := false }) ∧
    (let world : World :=
      { files := { files := [(["f"], Text.encode ":steps\n# :pause\n)\n:limit 3")] } }
    outcome ((execute ⟨1, 1, 0⟩ ":load f" : SessionT WorldM _) {} world) =
      some (false, ({ limit := some 3, showSteps := true, pause := false }, 0),
        { world with
          output := "printing every step: on\n"
          complaints :=
            "syntax error: parsing error: extra closing parenthesis\nf: 1 line(s) failed\n" })) ∧
    ∀ ok session' world',
      (execute ⟨0, 0, 0⟩ ":limit 0" : SessionT WorldM _) {} {} = some ((ok, session'), world') →
      session'.settings.limit ≠ some 0 := by
  obtain ⟨hlines, -, hload, hlimit⟩ := settings_determined_by_commands
  refine ⟨?_, ?_, ?_⟩
  · intro lines
    have hverb : ∀ line ∈ lines,
        ((Command.ofLine? line).bind Except.toOption).map (·.parts.1) ≠ some .load := by decide
    have hother : ∀ line ∈ lines, ∀ file, Command.ofLine? line ≠ some (.ok (.load file)) := by
      intro line hline file hfile
      have hload := hverb line hline
      rw [hfile] at hload
      exact hload rfl
    have hsome : ((lines.mapM (execute ⟨1, 0, 0⟩) : SessionT WorldM _) {} {}).isSome = true := by
      decide +kernel
    obtain ⟨⟨⟨oks, ⟨limit, showSteps, pause⟩, supply⟩, world'⟩, hrun⟩ :=
      Option.isSome_iff_exists.1 hsome
    obtain ⟨hsteps, hpause, hlast⟩ := hlines _ _ _ _ _ _ _ hother hrun
    refine ⟨oks, _, world', hrun, ?_⟩
    rw [Settings.mk.injEq]
    exact ⟨hlast.trans (by decide), hsteps.trans (by decide), hpause.trans (by decide)⟩
  · intro world
    have htext : world.text (.file "f") = .ok ":steps\n# :pause\n)\n:limit 3" := by decide +kernel
    exact ((hload 1 0 0 "f" _ {} world htext).2 ":load f" (by decide)).trans (by decide +kernel)
  · intro ok session' world' hrun
    exact hlimit session' (.execute _ _ (.new {}) hrun)

end Session

end UntypedLambda
