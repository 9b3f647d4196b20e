import UntypedLambda.Session

/-!
# The command line

The arguments are read from left to right into a request: the limit, the files, whether there is
a prompt. Reading stops at the first argument that settles the matter by itself, which is one that
asks for the usage or a limit that cannot be read; the limits before it have been set by then.
Only a request that was read to its end loads anything.
-/

namespace UntypedLambda

namespace CommandLine

/-- What the arguments ask for. -/
structure Request where
  /-- The last limit given, if one was given. -/
  limit : Option (Option Nat) := none
  /-- Whether a prompt follows. -/
  interactive : Bool := true
  /-- The files to be loaded, in order. -/
  files : List String := []
deriving DecidableEq, Repr

/-- How reading the arguments ended. -/
inductive Verdict where
  /-- At the last argument. -/
  | complete
  /-- At an argument that asks for the usage. -/
  | showUsage
  /-- At an option whose number is missing. -/
  | missingNumber (option : String)
  /-- At a number that is no limit. -/
  | refused (fault : CommandError)
deriving DecidableEq, Repr

/-- What happens after the arguments have been dealt with. -/
inductive Next where
  | prompt
  | exit (code : Nat)
deriving DecidableEq, Repr

/-- Reads the arguments that are left. -/
def readFrom (request : Request) : List String → Request × Verdict
  | [] => (request, .complete)
  | argument :: arguments =>
    if argument = "-h" ∨ argument = "--help" then (request, .showUsage)
    else if argument = "-n" ∨ argument = "--no-interactive" then
      readFrom { request with interactive := false } arguments
    else if argument = "-m" ∨ argument = "--max-steps" then
      match arguments with
      | [] => (request, .missingNumber argument)
      | number :: arguments =>
        match readLimit number with
        | .error fault => (request, .refused fault)
        | .ok limit => readFrom { request with limit := some limit } arguments
    else readFrom { request with files := request.files ++ [argument] } arguments

/-- Reads the arguments. -/
def read (arguments : List String) : Request × Verdict := readFrom {} arguments

/-- What a request loads, in order: the standard input if there is neither a file nor a
prompt. -/
def Request.sources (request : Request) : List Source :=
  if request.interactive || !request.files.isEmpty then request.files.map .file else [.input]

open Console (complainLine)

variable {m : Type → Type} [Monad m] [Console m]

/-- Loads sources one after another, up to the first that does not go well. -/
def loadAll (budget : Budget) : List Source → SessionT m Bool
  | [] => return true
  | source :: sources => do
    if ← Session.loadReported budget source then loadAll budget sources else return false

/-- Does what the arguments ask for, up to the prompt. -/
def run (budget : Budget) (arguments : List String) : SessionT m Next := do
  let (request, verdict) := read arguments
  match request.limit with
  | some limit => Session.modifySettings fun settings ↦ { settings with limit }
  | none => pure ()
  match verdict with
  | .showUsage =>
    Console.print usage
    return .exit 0
  | .missingNumber option =>
    complainLine ("option '" ++ option ++ "' expects a number")
    return .exit 2
  | .refused fault =>
    complainLine fault.message
    return .exit 2
  | .complete =>
    if ← loadAll budget request.sources then
      return if request.interactive then .prompt else .exit 0
    else return .exit 1

end CommandLine

end UntypedLambda
