import UntypedLambda.Prompt

/-!
# The program on a terminal

The console of the program is the system: its streams, its files, its environment. Nothing is
decided here.
-/

namespace UntypedLambda

namespace Terminal

open Text (Bytes)

/-- Reads a line byte by byte, so that no more is taken from the input than the line. -/
def readLine (input : IO.FS.Stream) : IO Bytes := do
  let mut line := ByteArray.empty
  repeat
    let byte ← input.read 1
    line := line ++ byte
    if byte.isEmpty || byte.toList == [Text.newline] then break
  return line.toList

/-- Reads up to the end of the input. -/
def readRest (input : IO.FS.Stream) : IO Bytes := do
  let mut bytes := ByteArray.empty
  repeat
    let more ← input.read 4096
    bytes := bytes ++ more
    if more.isEmpty then break
  return bytes.toList

/-- The error that the system reports by a number, or by the number's negative. -/
def errorOfCode (signed : UInt32) (details : String) : FileError :=
  let code := min signed (0 - signed)
  if code = 2 then .notFound
  else if code = 20 then .notFolder
  else if code = 21 then .isFolder
  else if code = 36 then .nameTooLong
  else .other (details ++ " (os error " ++ toString code ++ ")")

/-- What went wrong with a file. -/
def errorOf : IO.Error → FileError
  | .noFileOrDirectory _ code details => errorOfCode code details
  | .inappropriateType _ code details => errorOfCode code details
  | .invalidArgument _ code details => errorOfCode code details
  | .permissionDenied _ code details => errorOfCode code details
  | .resourceExhausted _ code details => errorOfCode code details
  | .illegalOperation code details => errorOfCode code details
  | .noSuchThing _ code details => errorOfCode code details
  | .otherError code details => errorOfCode code details
  | e => .other (toString e)

/-- Does something to the file at a path. -/
def withPath {α : Type} (path : String) (action : IO α) : IO (Except FileError α) := do
  match FileTree.pathFault? path with
  | some cause => return .error cause
  | none => try return .ok (← action) catch e => return .error (errorOf e)

instance : Console IO where
  readLine := do readLine (← IO.getStdin)
  readRest := do readRest (← IO.getStdin)
  readFile path := withPath path do return (← IO.FS.readBinFile path).toList
  writeFile path contents := withPath path do IO.FS.writeBinFile path contents.toByteArray
  home := IO.getEnv "HOME"
  print text := do
    let output ← IO.getStdout
    output.putStr text
    output.flush
  complain text := do (← IO.getStderr).putStr text
  outOfBudget := throw (IO.userError "out of budget")

/-- More than can be used up. -/
def budget : Budget :=
  let most := 0x4000000000000000
  { steps := most, depth := most, lines := most }

/-- The level from which on events are logged. -/
def threshold : Option String → Level
  | some "trace" => .trace
  | some "debug" => .debug
  | some "info" => .info
  | _ => .warn

/-- An event as a line of the log. -/
def logLine (event : Event) : String :=
  let fields := event.fields.map fun (key, value) ↦ key ++ "=" ++ value
  String.intercalate " " (event.message :: fields)

end Terminal

end UntypedLambda

open UntypedLambda in
/-- Runs the program, and then logs what was asked for. -/
def main (arguments : List String) : IO UInt32 := do
  let journal : Journal := { threshold := Terminal.threshold (← IO.getEnv "RUST_LOG") }
  let run : SessionT IO Nat := program Terminal.budget arguments
  let (code, session) ← run.run { supply := { journal } }
  for event in session.supply.journal.events do
    IO.eprintln (Terminal.logLine event)
  return code.toUInt32
