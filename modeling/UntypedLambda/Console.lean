import UntypedLambda.FileTree

/-!
# The outside of a session

Everything that a session reads and writes goes through a `Console`: the standard input, files,
the two output channels. Whatever runs a session is written for any monad with a console, once,
and can then be run on a terminal or on a value (`World`).

Bytes come in and text goes out. Some loops have no bound of their own, such as reading lines
until there are no more, and take a budget instead; `outOfBudget` is what they do when it is
spent.
-/

namespace UntypedLambda

open Text (Bytes)

/-- What a session reads and writes. -/
class Console (m : Type → Type) where
  /-- The next line of the input with the byte that ends it; empty at the end of the input. -/
  readLine : m Bytes
  /-- All that is left of the input. -/
  readRest : m Bytes
  /-- The contents of the file at a path. -/
  readFile : String → m (Except FileError Bytes)
  /-- Writes the file at a path. -/
  writeFile : String → Bytes → m (Except FileError Unit)
  /-- The user's home folder, if it is known. -/
  home : m (Option String)
  /-- Writes to the standard output. -/
  print : String → m Unit
  /-- Writes to the standard error. -/
  complain : String → m Unit
  /-- Ends the session for want of budget. -/
  outOfBudget : {α : Type} → m α

namespace Console

/-- A further state does not get in the way of a console. -/
instance {σ : Type} {m : Type → Type} [Monad m] [Console m] : Console (StateT σ m) where
  readLine := liftM (readLine : m Bytes)
  readRest := liftM (readRest : m Bytes)
  readFile path := liftM (readFile path : m _)
  writeFile path contents := liftM (writeFile path contents : m _)
  home := liftM (home : m _)
  print text := liftM (print text : m Unit)
  complain text := liftM (complain text : m Unit)
  outOfBudget := liftM (outOfBudget : m _)

variable {m : Type → Type} [Monad m] [Console m]

/-- Prints a line. -/
def printLine (text : String) : m Unit := print (text ++ "\n")

/-- Reports a line on the standard error. -/
def complainLine (text : String) : m Unit := complain (text ++ "\n")

end Console

end UntypedLambda
