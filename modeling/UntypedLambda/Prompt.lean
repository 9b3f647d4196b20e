import UntypedLambda.CommandLine
import UntypedLambda.History

/-!
# The prompt

Lines are read one at a time and joined while they continue; each logical line is entered in the
history and executed. The end of the input ends the prompt, but not before a line that was still
open has been executed. A line that is no text is reported: it ends the prompt too if no line is
open, and otherwise ends the open line only.

What a line does to the prompt is decided without reading anything (`Turn.ofInput`), so the
loop is one read, one decision and at most one execution in each round.
-/

namespace UntypedLambda

namespace Prompt

/-- What a read gave. -/
inductive Input where
  | finished
  | notText
  | line (text : List Char)
deriving DecidableEq, Repr

/-- What the bytes of a line stand for. -/
def Input.ofBytes (bytes : Text.Bytes) : Input :=
  if bytes.isEmpty then finished
  else
    match Text.decode? bytes with
    | none => notText
    | some text => line text.toList

/-- What is done about it. -/
inductive Turn where
  /-- The prompt ends. -/
  | stop
  /-- The line goes on. -/
  | readMore (unfinished : List Char)
  /-- The line is complete. -/
  | submit (line : List Char)
deriving DecidableEq, Repr

/-- Decides about an input, given the line that is open, if one is. A line behind an open one is
joined to it by a space, and the whole is then stripped again. -/
def Turn.ofInput : Option (List Char) → Input → Turn
  | none, .finished => stop
  | none, .notText => stop
  | some before, .finished => submit before
  | some before, .notText => submit before
  | before?, .line text =>
    let stripped := Text.strip <|
      match before? with
      | none => text
      | some before => before ++ ' ' :: text
    if stripped.continues then readMore stripped.text else submit stripped.text

open Console (complainLine)

variable {m : Type → Type} [Monad m] [Console m]

/-- What is reported about a line that is no text. -/
def notTextReport : String :=
  "error: Io(Error \x7b kind: InvalidData, message: \"" ++ FileError.notText.message ++ "\" \x7d)"

/-- Reads lines and executes them, until the prompt ends. -/
def converse (execute : String → m Unit) :
    (lines : Nat) → Option (List Char) → History → m History
  | 0, _, _ => Console.outOfBudget
  | lines + 1, before?, history => do
    let input := Input.ofBytes (← Console.readLine)
    if input = .notText then complainLine notTextReport
    match Turn.ofInput before? input with
    | .stop => return history
    | .readMore before => converse execute lines (some before) history
    | .submit text =>
      let line := String.ofList text
      execute line
      converse execute lines none (history.add line)

/-- The prompt, from reading the history to writing it. Nothing is written if there are no
entries. -/
def run (budget : Budget) (execute : String → m Unit) : m Unit := do
  let home ← Console.home
  if home.isNone then complainLine History.homeWarning
  let path := History.path home
  let history ← do
    match ← Console.readFile path with
    | .ok bytes => pure (History.ofBytes bytes)
    | .error _ => pure {}
  let history ← converse execute budget.lines none history
  unless history.entries.isEmpty do
    match ← Console.writeFile path history.toBytes with
    | .ok () => pure ()
    | .error cause => complainLine ("failed to save history file: " ++ cause.message)

/-- The prompt of a session. -/
def ofSession (budget : Budget) : SessionT m Unit :=
  run budget fun line ↦ discard (Session.execute budget line)

end Prompt

/-- The whole program: the arguments, then the prompt if they ask for one. The result is the exit
code. -/
def program {m : Type → Type} [Monad m] [Console m] (budget : Budget) (arguments : List String) :
    SessionT m Nat := do
  match ← CommandLine.run budget arguments with
  | .exit code => return code
  | .prompt =>
    Prompt.ofSession budget
    return 0

end UntypedLambda
