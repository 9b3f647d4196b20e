import UntypedLambda.Command

/-!
# The usage

The text that `-h` and `:help` print: the options, the notation, and one line for each verb.
-/

namespace UntypedLambda

/-- The line of the usage about a verb. -/
def Verb.usageLine (verb : Verb) : String :=
  ":" ++ verb.shortName ++ ", :" ++ verb.longName ++ "\t" ++ verb.description ++ "\n"

/-- The usage up to the list of the commands. -/
def usageHeader : List String :=
  [ "An untyped lambda calculus front end.",
    "",
    "Usage: lambda_front [-h] [-n] [-m STEPS] [FILE...]",
    "  -h, --help            print this message and exit.",
    "  -n, --no-interactive  evaluate FILE (or stdin) and exit.",
    "  -m, --max-steps N     give up after N reduction steps (0 for no limit).",
    "",
    "Expressions are written like 'λx y. x' or '\\x y. x'.",
    "Set RUST_LOG=trace to log every reduction step.",
    "",
    "Available commands:" ]

/-- The usage. -/
def usage : String :=
  String.join (usageHeader.map (· ++ "\n") ++ Verb.all.map Verb.usageLine)

end UntypedLambda
