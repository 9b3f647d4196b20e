import UntypedLambda.Console
import UntypedLambda.Expr.Parse
import UntypedLambda.Normalize
import UntypedLambda.Text.Line
import UntypedLambda.Usage

/-!
# Sessions

A session executes lines. A line is a command, or blank, or an expression that is reduced to its
normal form; each either goes well or does not, and what went wrong has then been reported. What
outlives a line are the settings and the supply of fresh names.

A file is loaded by executing its logical lines one after another, comments left out, all of them
even after a failure. One of them may load a further file. Nothing keeps a file from loading
itself, so loading is bounded by the depth to which files are nested, and reduction by its number
of steps; a session that would not end runs out of this budget instead. `load` recurses
on the depth, and everything below it takes the way to load a file as an argument.
-/

namespace UntypedLambda

/-! ### Settings -/

/-- What can be set. -/
structure Settings where
  /-- The largest number of steps of a reduction. -/
  limit : Option Nat := some 10000
  /-- Whether every step is printed. -/
  showSteps : Bool := false
  /-- Whether a line of the input is awaited before each step. -/
  pause : Bool := false
deriving DecidableEq, Repr

/-- What outlives a line. -/
structure Session where
  settings : Settings := {}
  supply : Supply := {}
deriving DecidableEq, Repr

/-- Bounds for what might not end by itself. -/
structure Budget where
  /-- How often a reduction is looked at. -/
  steps : Nat
  /-- How deep files are nested. -/
  depth : Nat
  /-- How many lines are read at the prompt. -/
  lines : Nat

/-- Computations of a session. -/
abbrev SessionT (m : Type → Type) := StateT Session m

/-! ### Files and their errors -/

/-- What is loaded. -/
inductive Source where
  | file (name : String)
  | input
deriving DecidableEq, Repr

/-- What a source is called in messages. -/
def Source.name : Source → String
  | file name => name
  | input => "stdin"

/-- A source that could not be read. -/
structure LoadError where
  source : Source
  cause : FileError
deriving DecidableEq, Repr

/-- How the error is reported. -/
def LoadError.message (e : LoadError) : String :=
  match e.source with
  | .file name => "cannot read '" ++ name ++ "': " ++ e.cause.message
  | .input => "cannot read stdin: " ++ e.cause.message

/-- Whether a logical line of a file is a comment. -/
def isComment (line : String) : Bool := (Text.trimStart line.toList).head? == some '#'

/-- Whether a line has nothing but blanks. -/
def isBlankLine (line : String) : Bool := line.toList.all Text.isBlank

/-- The lines of a text that are executed when it is loaded. -/
def executableLines (text : String) : List String :=
  (Text.logicalLines text).filter (!isComment ·)

namespace Session

open Console (printLine complainLine)

variable {m : Type → Type} [Monad m] [Console m]

/-! ### Expressions -/

/-- Awaits a line of the input, whatever it is. Nothing happens at the end of the input. -/
def awaitLine : m Unit := do
  let line ← Console.readLine
  if (Text.decode? line).isNone then
    complainLine ("error: " ++ FileError.notText.message)

/-- What the settings ask for at each step of a reduction. -/
def watcher (settings : Settings) : Watcher m where
  isCancelled := pure false
  onStep _ reduced := do
    if settings.pause then awaitLine
    if settings.showSteps then printLine ("= " ++ reduced.render)

/-- Reduces the expression on a line to its normal form and prints it. When every step has been
printed and there was one, the normal form has been printed already. -/
def evaluate (budget : Budget) (line : String) : SessionT m (Option Expr) := do
  match Expr.read line with
  | .error fault =>
    complainLine ("syntax error: " ++ fault.message)
    return none
  | .ok e =>
    let session ← get
    let settings := session.settings
    -- The reduction runs below the session, so it cannot change the settings.
    let outcome ←
      (e.normalizeWith (watcher settings) settings.limit budget.steps session.supply : m _)
    match outcome with
    | none => Console.outOfBudget
    | some (result, supply) =>
      set { session with supply }
      match result with
      | .ok normal =>
        if !settings.showSteps || normal == e then printLine normal.render
        return some normal
      | .error halt =>
        complainLine ("error: " ++ halt.message)
        return none

/-! ### Commands -/

/-- Changes the settings. -/
def modifySettings (f : Settings → Settings) : SessionT m Unit :=
  modify fun session ↦ { session with settings := f session.settings }

/-- A setting in words. -/
def onOff (setting : Bool) : String := if setting then "on" else "off"

/-- Carries out a command. -/
def perform (loadFile : String → SessionT m Bool) : Command → SessionT m Bool
  | .help => do
    Console.print usage
    return true
  | .load file => loadFile file
  | .toggleSteps => do
    modifySettings fun settings ↦ { settings with showSteps := !settings.showSteps }
    printLine ("printing every step: " ++ onOff (← get).settings.showSteps)
    return true
  | .setLimit text =>
    match readLimit text with
    | .ok limit => do
      modifySettings fun settings ↦ { settings with limit }
      return true
    | .error fault => do
      complainLine ("error: " ++ fault.message)
      return false
  | .togglePause => do
    modifySettings fun settings ↦ { settings with pause := !settings.pause }
    printLine ("pause mode: " ++ onOff (← get).settings.pause)
    return true

/-- Executes a line, given how to load a file. The result says whether it went well. -/
def executeWith (budget : Budget) (loadFile : String → SessionT m Bool) (line : String) :
    SessionT m Bool :=
  match Command.ofLine? line with
  | some (.ok command) => perform loadFile command
  | some (.error fault) => do
    complainLine ("error: " ++ fault.message)
    return false
  | none => do
    if isBlankLine line then return true
    else return (← evaluate budget line).isSome

/-! ### Files -/

/-- Executes lines one after another, and counts those that did not go well. -/
def countFailures (execute : String → SessionT m Bool) : List String → SessionT m Nat
  | [] => return 0
  | line :: lines => do
    let ok ← execute line
    let failed ← countFailures execute lines
    return if ok then failed else failed + 1

/-- The text of a source. -/
def readSource (source : Source) : m (Except FileError String) := do
  match source with
  | .input => return FileError.decode (← Console.readRest)
  | .file name =>
    match ← Console.readFile name with
    | .error cause => return .error cause
    | .ok bytes => return FileError.decode bytes

/-- Reports a source that could not be read. The result says whether all its lines went well. -/
def reportLoad (source : Source) : Except LoadError Nat → SessionT m Bool
  | .ok failed => return failed == 0
  | .error fault => do
    complainLine ("failed to load file '" ++ source.name ++ "': " ++ fault.message)
    return false

/-- Executes the lines of a source, and counts those that did not go well. Files are nested to
the depth `depth` at most. -/
def loadWithin (budget : Budget) : (depth : Nat) → Source → SessionT m (Except LoadError Nat)
  | 0, _ => Console.outOfBudget
  | depth + 1, source => do
    match ← readSource source with
    | .error cause => return .error ⟨source, cause⟩
    | .ok text =>
      modify fun session ↦ { session with supply := session.supply.note (.loading source.name) }
      let loadFile file := do
        reportLoad (.file file) (← loadWithin budget depth (.file file))
      let failed ← countFailures (executeWith budget loadFile) (executableLines text)
      if failed > 0 then
        complainLine (source.name ++ ": " ++ toString failed ++ " line(s) failed")
      return .ok failed

/-- Executes the lines of a source, and counts those that did not go well. -/
def load (budget : Budget) (source : Source) : SessionT m (Except LoadError Nat) :=
  loadWithin budget budget.depth source

/-- Loads a source and reports what went wrong. -/
def loadReported (budget : Budget) (source : Source) : SessionT m Bool := do
  reportLoad source (← load budget source)

/-- Executes a line. The result says whether it went well. -/
def execute (budget : Budget) (line : String) : SessionT m Bool :=
  executeWith budget (fun file ↦ loadReported budget (.file file)) line

end Session

end UntypedLambda
