import UntypedLambda.Text.Blank
import UntypedLambda.Text.Decimal

/-!
# Commands

A line whose first non-blank character is `:` is a command. Behind the colon stands the verb, up
to the next blank, and what is left, trimmed, is its argument. A verb has a short and a long name
and either needs an argument or takes none.

A `Command` is a verb with its argument in place, so one that lacks its argument, or has one too
many, cannot be written down. Reading a line either gives such a command or says what is wrong.
-/

namespace UntypedLambda

/-! ### Verbs -/

/-- What a command asks for. -/
inductive Verb where
  | help
  | load
  | steps
  | limit
  | pause
deriving DecidableEq, Repr

namespace Verb

/-- The verbs, in the order in which they are listed and looked up. -/
def all : List Verb := [help, load, steps, limit, pause]

/-- The name of one letter. -/
def shortName : Verb → String
  | help => "h"
  | load => "l"
  | steps => "s"
  | limit => "m"
  | pause => "p"

/-- The name in full. -/
def longName : Verb → String
  | help => "help"
  | load => "load"
  | steps => "steps"
  | limit => "limit"
  | pause => "pause"

/-- Whether the verb needs an argument. If not, it takes none. -/
def needsArgument : Verb → Bool
  | help => false
  | load => true
  | steps => false
  | limit => true
  | pause => false

/-- What the verb does, as the usage says it. -/
def description : Verb → String
  | help => "print this message."
  | load => "evaluate all lines from a file."
  | steps => "toggle printing every reduction step instead of only the normal form."
  | limit => "set the maximum number of reduction steps (0 for no limit)."
  | pause =>
    "toggle pause mode, in which the user must press Enter before each reduction step"

/-- The verb with this short or long name. -/
def named? (name : String) : Option Verb :=
  all.find? fun verb ↦ name == verb.shortName || name == verb.longName

/-- The first verb whose long name begins with `typed`. -/
def beginningWith? (typed : String) : Option Verb :=
  all.find? fun verb ↦ typed.toList.isPrefixOf verb.longName.toList

end Verb

/-! ### Commands -/

/-- A command with its argument. -/
inductive Command where
  | help
  | load (file : String)
  | toggleSteps
  | setLimit (text : String)
  | togglePause
deriving DecidableEq, Repr

/-- What is wrong with a command. -/
inductive CommandError where
  | unknown (name : String)
  | missingArgument (verb : Verb)
  | unexpectedArgument (verb : Verb)
  | invalidLimit (text : String)
deriving DecidableEq, Repr

/-- How the error is reported. -/
def CommandError.message : CommandError → String
  | unknown name => "unknown command ':" ++ name ++ "'"
  | missingArgument verb => "command ':" ++ verb.longName ++ "' expects an argument"
  | unexpectedArgument verb => "command ':" ++ verb.longName ++ "' takes no argument"
  | invalidLimit text => "invalid step limit '" ++ text ++ "'"

/-- The command that a verb and an argument, if there is one, make up. -/
def Verb.withArgument : Verb → Option String → Except CommandError Command
  | help, none => .ok .help
  | load, some file => .ok (.load file)
  | steps, none => .ok .toggleSteps
  | limit, some text => .ok (.setLimit text)
  | pause, none => .ok .togglePause
  | verb, none => .error (.missingArgument verb)
  | verb, some _ => .error (.unexpectedArgument verb)

namespace Command

/-- The verb and the argument of a command. -/
def parts : Command → Verb × Option String
  | help => (.help, none)
  | load file => (.load, some file)
  | toggleSteps => (.steps, none)
  | setLimit text => (.limit, some text)
  | togglePause => (.pause, none)

/-- A command is made up of its verb and its argument, and of nothing else. -/
theorem withArgument_eq_ok_iff {verb : Verb} {argument : Option String} {c : Command} :
    verb.withArgument argument = .ok c ↔ c.parts = (verb, argument) := by
  cases c <;> cases verb <;> cases argument <;> simp [Verb.withArgument, parts, eq_comm]

/-- The name of the verb and the argument, from what stands behind the colon. An argument that is
blank is none. -/
def splitLine (rest : List Char) : String × Option String :=
  let name := String.ofList (rest.takeWhile (!Text.isBlank ·))
  let argument := Text.trim (rest.dropWhile (!Text.isBlank ·))
  (name, if argument.isEmpty then none else some (String.ofList argument))

/-- Reads a line as a command. There is no result if it is none. -/
def ofLine? (line : String) : Option (Except CommandError Command) :=
  match Text.trimStart line.toList with
  | ':' :: rest =>
    let (name, argument) := splitLine rest
    match Verb.named? name with
    | none => some (.error (.unknown name))
    | some verb => some (verb.withArgument argument)
  | _ => none

end Command

/-! ### Limits -/

/-- The largest limit that can be set, which is the largest number of 64 bits. -/
def largestLimit : Nat := UInt64.size - 1

/-- Reads a limit on the number of reduction steps; 0 stands for no limit. -/
def readLimit (text : String) : Except CommandError (Option Nat) :=
  match Text.decimal? largestLimit (Text.trim text.toList) with
  | none => .error (.invalidLimit text)
  | some 0 => .ok none
  | some n => .ok (some n)

end UntypedLambda
