import UntypedLambda.Session
import UntypedLambda.World

/-!
# Sessions that leave the input alone

What is executed at the prompt and what is read there come from one input. The only place where an
execution reads from it is pause mode. So as long as that is off, an execution neither depends on
the input nor changes it, and the prompt finds the input as it left it.

`Unheeding` says this of a computation on a world, together with what holds of its result, and has
one law for each way in which computations are put together; `Undisturbed` is the same of a
computation of a session. From there it goes up along the definitions: a reduction, an expression,
a command, a file, a line (`undisturbed_execute`). The files of the world are fixed throughout,
since no execution writes one.

That pause mode *stays* off is a property of the line: no command that toggles it is carried out,
neither on the line itself nor in a file that it loads (`togglesPause`).
-/

namespace UntypedLambda

open Text (Bytes)

/-- The same world with another input. -/
def World.withInput (w : World) (input : Bytes) : World := { w with input }

@[simp] theorem World.withInput_input (w : World) (input : Bytes) :
    (w.withInput input).input = input := rfl

/-! ### Computations on a world -/

/-- On a world with these files a computation takes no notice of the input: it does the same
whatever the input is, and passes it on as it is. The files stay the same, and the result, if
there is one, satisfies `post`. -/
structure Unheeding {α : Type} (files : FileTree) (post : α → Prop) (x : WorldM α) : Prop where
  withInput : ∀ (w : World) (input : Bytes), w.files = files →
    x (w.withInput input) = (x w).map fun r ↦ (r.1, r.2.withInput input)
  result : ∀ {w : World} {a : α} {w' : World}, w.files = files → x w = some (a, w') →
    post a ∧ w'.files = files

namespace Unheeding

variable {α β : Type} {files : FileTree} {post : α → Prop} {post' : β → Prop}

protected theorem pure {a : α} (h : post a) : Unheeding files post (pure a) where
  withInput _ _ _ := rfl
  result hw hrun := by
    obtain ⟨rfl, rfl⟩ := Prod.mk.inj (Option.some.inj hrun)
    exact ⟨h, hw⟩

protected theorem bind {x : WorldM α} {f : α → WorldM β} (hx : Unheeding files post x)
    (hf : ∀ a, post a → Unheeding files post' (f a)) : Unheeding files post' (x >>= f) where
  withInput w input hw := by
    show (x (w.withInput input)).bind (fun r ↦ f r.1 r.2) =
      ((x w).bind fun r ↦ f r.1 r.2).map fun r ↦ (r.1, r.2.withInput input)
    rw [hx.withInput w input hw]
    rcases hrun : x w with - | ⟨a, w'⟩
    · rfl
    · obtain ⟨ha, hw'⟩ := hx.result hw hrun
      exact (hf a ha).withInput w' input hw'
  result {w b w''} hw hrun := by
    obtain ⟨⟨a, w'⟩, hfirst, hsecond⟩ := Option.bind_eq_some_iff.mp hrun
    obtain ⟨ha, hw'⟩ := hx.result hw hfirst
    exact (hf a ha).result hw' hsecond

protected theorem outOfBudget :
    Unheeding files (fun _ ↦ False) (Console.outOfBudget : WorldM α) where
  withInput _ _ _ := rfl
  result _ hrun := nomatch hrun

protected theorem print (text : String) :
    Unheeding files (fun _ ↦ True) (Console.print text : WorldM Unit) where
  withInput _ _ _ := rfl
  result hw hrun := by
    obtain ⟨-, rfl⟩ := Prod.mk.inj (Option.some.inj hrun)
    exact ⟨trivial, hw⟩

protected theorem complain (text : String) :
    Unheeding files (fun _ ↦ True) (Console.complain text : WorldM Unit) where
  withInput _ _ _ := rfl
  result hw hrun := by
    obtain ⟨-, rfl⟩ := Prod.mk.inj (Option.some.inj hrun)
    exact ⟨trivial, hw⟩

/-- What is read from a file is what the files have there. -/
protected theorem readFile (path : String) :
    Unheeding files (· = files.read path) (Console.readFile path : WorldM _) where
  withInput _ _ _ := rfl
  result hw hrun := by
    obtain ⟨rfl, rfl⟩ := Prod.mk.inj (Option.some.inj hrun)
    exact ⟨by rw [hw], hw⟩

end Unheeding

/-! ### Computations of a session -/

/-- With pause mode off a computation of a session takes no notice of the input, and it leaves
pause mode off. -/
def Undisturbed {α : Type} (files : FileTree) (x : SessionT WorldM α) : Prop :=
  ∀ session : Session, session.settings.pause = false →
    Unheeding files (fun r ↦ r.2.settings.pause = false) (x session)

namespace Undisturbed

variable {α β : Type} {files : FileTree}

protected theorem pure (a : α) : Undisturbed files (pure a) :=
  fun _ hpause ↦ Unheeding.pure hpause

protected theorem bind {x : SessionT WorldM α} {f : α → SessionT WorldM β}
    (hx : Undisturbed files x) (hf : ∀ a, Undisturbed files (f a)) :
    Undisturbed files (x >>= f) :=
  fun session hpause ↦ (hx session hpause).bind fun r hr ↦ hf r.1 r.2 hr

/-- The result of what is done below the session is known as far as `post` says. -/
theorem lift_bind {post : α → Prop} {x : WorldM α} {f : α → SessionT WorldM β}
    (hx : Unheeding files post x) (hf : ∀ a, post a → Undisturbed files (f a)) :
    Undisturbed files ((liftM x : SessionT WorldM α) >>= f) := by
  intro session hpause
  show Unheeding files _ ((x >>= fun a ↦ pure (a, session)) >>= fun r ↦ f r.1 r.2)
  rw [bind_assoc]
  refine hx.bind fun a ha ↦ ?_
  rw [pure_bind]
  exact hf a ha session hpause

/-- The session that is looked at has pause mode off. -/
theorem get_bind {f : Session → SessionT WorldM α}
    (hf : ∀ session, session.settings.pause = false → Undisturbed files (f session)) :
    Undisturbed files (get >>= f) :=
  fun session hpause ↦ hf session hpause session hpause

theorem set (session : Session) (h : session.settings.pause = false) :
    Undisturbed files (MonadStateOf.set session : SessionT WorldM PUnit) :=
  fun _ _ ↦ Unheeding.pure h

theorem modify (f : Session → Session)
    (h : ∀ session, (f session).settings.pause = session.settings.pause) :
    Undisturbed files (modify f : SessionT WorldM PUnit) :=
  fun session hpause ↦ Unheeding.pure ((h session).trans hpause)

theorem lift {post : α → Prop} {x : WorldM α} (hx : Unheeding files post x) :
    Undisturbed files (liftM x : SessionT WorldM α) := by
  intro session hpause
  show Unheeding files _ (x >>= fun a ↦ pure (a, session))
  exact hx.bind fun _ _ ↦ .pure hpause

theorem print (text : String) : Undisturbed files (Console.print text : SessionT WorldM Unit) :=
  lift (.print text)

theorem printLine (text : String) :
    Undisturbed files (Console.printLine text : SessionT WorldM Unit) :=
  print (text ++ "\n")

theorem complainLine (text : String) :
    Undisturbed files (Console.complainLine text : SessionT WorldM Unit) :=
  lift (.complain (text ++ "\n"))

/-- What goes wrong is reported, and the result says so. -/
theorem complainLine_pure (text : String) (a : α) :
    Undisturbed files (do Console.complainLine text; return a) :=
  (complainLine text).bind fun _ ↦ .pure a

theorem outOfBudget : Undisturbed files (Console.outOfBudget : SessionT WorldM α) :=
  lift .outOfBudget

end Undisturbed

variable {files : FileTree}

/-! ### Reductions -/

/-- With pause mode off, nothing is awaited before a step. -/
theorem unheeding_onStep {settings : Settings} (hpause : settings.pause = false) (step : Nat)
    (e : Expr) : Unheeding files (fun _ ↦ True) ((Session.watcher settings).onStep step e) := by
  rw [Session.watcher, hpause]
  by_cases hshow : settings.showSteps
  · simpa [hshow, Console.printLine] using Unheeding.print ("= " ++ e.render ++ "\n")
  · simpa [hshow] using Unheeding.pure trivial

theorem unheeding_normalizeFrom {settings : Settings} (hpause : settings.pause = false)
    (limit : Option Nat) (budget steps : Nat) (e : Expr) (supply : Supply) :
    Unheeding files (fun _ ↦ True)
      (e.normalizeFrom (Session.watcher settings) limit budget steps supply) := by
  induction budget generalizing steps e supply with
  | zero => exact .pure trivial
  | succ budget ih =>
    rw [Expr.normalizeFrom, show (Session.watcher settings).isCancelled = pure false from rfl,
      pure_bind]
    by_cases hnormal : (!e.isReducible) = true
    · simpa [hnormal] using Unheeding.pure trivial
    · by_cases hlimit : Expr.limitMet limit steps
      · simpa [hnormal, hlimit] using Unheeding.pure trivial
      · simpa [hnormal, hlimit] using
          (unheeding_onStep hpause (steps + 1) _).bind fun _ _ ↦ ih _ _ _

/-- **An expression is evaluated without a look at the input**, however its reduction ends. -/
theorem undisturbed_evaluate (budget : Budget) (line : String) :
    Undisturbed files (Session.evaluate budget line) := by
  rw [Session.evaluate]
  rcases Expr.read line with fault | e
  · exact .complainLine_pure _ none
  refine .get_bind fun session hpause ↦ ?_
  refine .lift_bind (unheeding_normalizeFrom hpause _ _ _ _ _) fun outcome _ ↦ ?_
  rcases outcome with - | ⟨result, supply⟩
  · exact .outOfBudget
  refine (Undisturbed.set { session with supply } hpause).bind fun _ ↦ ?_
  rcases result with halt | normal
  · exact .complainLine_pure _ none
  · by_cases hprint : (!session.settings.showSteps || normal == e) = true
    · simpa [hprint] using (Undisturbed.printLine _).bind fun _ ↦ .pure (some normal)
    · simpa [hprint] using Undisturbed.pure (some normal)

/-! ### Commands -/

theorem undisturbed_modifySettings (f : Settings → Settings)
    (h : ∀ settings, (f settings).pause = settings.pause) :
    Undisturbed files (Session.modifySettings f) :=
  .modify _ fun session ↦ h session.settings

/-- Every command but the one that toggles it leaves pause mode off. -/
theorem undisturbed_perform {loadFile : String → SessionT WorldM Bool} {command : Command}
    (hcommand : command ≠ .togglePause)
    (hload : ∀ file, command = .load file → Undisturbed files (loadFile file)) :
    Undisturbed files (Session.perform loadFile command) := by
  rcases command with - | file | - | text | -
  · exact (Undisturbed.print usage).bind fun _ ↦ .pure true
  · exact hload file rfl
  · rw [Session.perform]
    refine (undisturbed_modifySettings _ ?_).bind fun _ ↦ ?_
    · exact fun _ ↦ rfl
    exact .get_bind fun _ _ ↦ (Undisturbed.printLine _).bind fun _ ↦ .pure true
  · rw [Session.perform]
    rcases readLimit text with fault | limit
    · exact .complainLine_pure _ false
    · exact (undisturbed_modifySettings ({ · with limit }) fun _ ↦ rfl).bind fun _ ↦ .pure true
  · exact absurd rfl hcommand

/-! ### Lines and files -/

/-- The text of a file. -/
def FileTree.text (files : FileTree) (file : String) : Except FileError String := do
  FileError.decode (← files.read file)

/-- Whether pause mode is toggled when a line is executed, given whether it is when a file is
loaded. -/
def togglesPause (fileToggles : String → Bool) (line : String) : Bool :=
  match Command.ofLine? line with
  | some (.ok .togglePause) => true
  | some (.ok (.load file)) => fileToggles file
  | _ => false

/-- Whether pause mode is toggled when a file is loaded, files being nested to the depth `depth` at
most. All the lines of a file are executed, so one of them is enough. -/
def FileTree.togglesPause (files : FileTree) : (depth : Nat) → (file : String) → Bool
  | 0, _ => false
  | depth + 1, file =>
    match files.text file with
    | .error _ => false
    | .ok text => (executableLines text).any (UntypedLambda.togglesPause (files.togglesPause depth))

theorem undisturbed_executeWith (budget : Budget) {loadFile : String → SessionT WorldM Bool}
    {fileToggles : String → Bool} {line : String}
    (hload : ∀ file, fileToggles file = false → Undisturbed files (loadFile file))
    (hline : togglesPause fileToggles line = false) :
    Undisturbed files (Session.executeWith budget loadFile line) := by
  rw [Session.executeWith]
  rcases hcommand : Command.ofLine? line with - | (fault | command)
  · by_cases hblank : isBlankLine line
    · simpa [hblank] using Undisturbed.pure true
    · simpa [hblank] using (undisturbed_evaluate budget line).bind fun normal ↦ .pure normal.isSome
  · exact .complainLine_pure _ false
  · rw [togglesPause, hcommand] at hline
    refine undisturbed_perform ?_ fun file hfile ↦ ?_
    · rintro rfl
      cases hline
    · subst hfile
      exact hload file hline

theorem undisturbed_countFailures {execute : String → SessionT WorldM Bool} {lines : List String}
    (h : ∀ line ∈ lines, Undisturbed files (execute line)) :
    Undisturbed files (Session.countFailures execute lines) := by
  induction lines with
  | nil => exact .pure 0
  | cons line lines ih =>
    refine (h line List.mem_cons_self).bind fun ok ↦ ?_
    exact (ih fun l hl ↦ h l (List.mem_cons_of_mem line hl)).bind fun failed ↦ .pure _

theorem undisturbed_reportLoad (source : Source) (result : Except LoadError Nat) :
    Undisturbed files (Session.reportLoad source result) := by
  rcases result with fault | failed
  · exact .complainLine_pure _ false
  · exact .pure _

/-- A file that is read gives its text, or says why not. -/
theorem Undisturbed.readSource_bind {α : Type} {file : String}
    {f : Except FileError String → SessionT WorldM α}
    (hf : Undisturbed files (f (files.text file))) :
    Undisturbed files (Session.readSource (.file file) >>= f) := by
  rw [Session.readSource, bind_assoc]
  refine .lift_bind (Unheeding.readFile file) ?_
  rintro _ rfl
  rw [FileTree.text] at hf
  rcases hread : files.read file with cause | bytes <;> rw [hread] at hf <;> exact hf

/-- Loading a file takes no notice of the input, by induction on the depth of nesting. -/
theorem undisturbed_loadWithin (budget : Budget) (depth : Nat) (file : String)
    (hfile : files.togglesPause depth file = false) :
    Undisturbed files (Session.loadWithin budget depth (.file file)) := by
  induction depth generalizing file with
  | zero => exact .outOfBudget
  | succ depth ih =>
    rw [Session.loadWithin]
    refine .readSource_bind ?_
    rw [FileTree.togglesPause] at hfile
    rcases htext : files.text file with cause | text
    · exact .pure _
    · simp only [htext, List.any_eq_false, Bool.not_eq_true] at hfile
      refine (Undisturbed.modify _ ?_).bind fun _ ↦ ?_
      · exact fun _ ↦ rfl
      refine (undisturbed_countFailures fun line hline ↦ ?_).bind fun failed ↦ ?_
      · exact undisturbed_executeWith budget (fun file hfile ↦
          (ih file hfile).bind fun result ↦ undisturbed_reportLoad _ result) (hfile line hline)
      · by_cases hfailed : failed > 0
        · simpa [hfailed] using Undisturbed.complainLine_pure _ (Except.ok failed)
        · simpa [hfailed] using Undisturbed.pure (Except.ok failed)

/-- **An execution takes no notice of the input** if pause mode is off and is not toggled on the
line or in a file that it loads. -/
theorem undisturbed_execute (budget : Budget) {line : String}
    (hline : togglesPause (files.togglesPause budget.depth) line = false) :
    Undisturbed files (Session.execute budget line) :=
  undisturbed_executeWith budget (fun file hfile ↦
    (undisturbed_loadWithin budget budget.depth file hfile).bind fun result ↦
      undisturbed_reportLoad (.file file) result) hline

end UntypedLambda
