import UntypedLambda.Command
import UntypedLambda.Text.Utf8

/-!
# Completion of commands

What has been typed of a command, from the colon to the cursor, is completed to the long name of
the first verb that begins with it. Behind a space there is an argument, and only the argument of
`load`, a file, can be completed.

The cursor is a number of bytes. It has to lie between two characters of the line.
-/

namespace UntypedLambda

/-- What the text before the cursor can be completed to. -/
inductive Completion where
  | nothing
  /-- The long name of a verb, which goes right behind the colon. -/
  | verb (verb : Verb)
  /-- The name of a file. -/
  | fileName
deriving DecidableEq, Repr

namespace Completion

/-- Completes what stands between the colon and the cursor. -/
def ofTyped (typed : List Char) : Completion :=
  if typed.contains ' ' then
    match Verb.named? (String.ofList (typed.takeWhile (· ≠ ' '))) with
    | some .load => fileName
    | _ => nothing
  else
    match Verb.beginningWith? (String.ofList typed) with
    | some found => verb found
    | none => nothing

/-- Completes a line at the cursor. There is no result if the cursor does not lie between two
characters of the command. -/
def at? (line : String) (cursor : Nat) : Option Completion :=
  match line.toList with
  | ':' :: rest =>
    if cursor = 0 then some nothing else (Text.takeBytes? (cursor - 1) rest).map ofTyped
  | _ => some nothing

end Completion

end UntypedLambda
