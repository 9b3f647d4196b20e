import UntypedLambda.Text.Line
import UntypedLambda.Text.Utf8

/-!
# The history of the prompt

The lines entered at the prompt are kept from one run to the next, in a file with one entry a
line. A line is entered unless it is empty or the same as the entry before it, and only the last
hundred entries are kept. Lines read from the file are entered by the same rule.
-/

namespace UntypedLambda

open Text (Bytes)

/-- The entries, the oldest first. -/
structure History where
  entries : List String := []
deriving DecidableEq, Repr

namespace History

/-- How many entries are kept. -/
def capacity : Nat := 100

/-- Enters a line. -/
def add (history : History) (line : String) : History :=
  if line.isEmpty || history.entries.getLast? == some line then history
  else
    let entries := history.entries ++ [line]
    ⟨entries.drop (entries.length - capacity)⟩

/-- Enters the lines of a file, up to the first that is no text. -/
def addLines (history : History) : List Bytes → History
  | [] => history
  | bytes :: lines =>
    match Text.decode? bytes with
    | none => history
    | some line => (history.add (String.ofList (Text.dropLineEnd line.toList))).addLines lines

/-- The history in a file. -/
def ofBytes (bytes : Bytes) : History :=
  addLines {} (Text.splitAfter (· == Text.newline) bytes)

/-- The history as a file. -/
def toBytes (history : History) : Bytes :=
  history.entries.flatMap fun entry ↦ Text.encode (entry ++ "\n")

/-! ### Where the file is -/

/-- The name of the file. -/
def fileName : String := "lambda_front_hist"

/-- The path of the file. -/
def path : (home : Option String) → String
  | some home => home ++ "/.cache/" ++ fileName
  | none => "/tmp/" ++ fileName

/-- What is reported when the home folder is not known. -/
def homeWarning : String :=
  "warning: failed to read env variable HOME (environment variable not found), " ++
    "using fallback /tmp."

end History

end UntypedLambda
