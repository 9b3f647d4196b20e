import UntypedLambda.Console

/-!
# A console as a value

The files, what is left of the input, and what has been written so far. On a world a session is
a function: from one world to the next, or to nothing if its budget was spent.
-/

namespace UntypedLambda

open Text (Bytes)

/-- All that a session can see of its outside. -/
structure World where
  files : FileTree := {}
  input : Bytes := []
  home : Option String := some "."
  output : String := ""
  complaints : String := ""
deriving DecidableEq, Repr

/-- Computations on a world, which may run out of budget. -/
abbrev WorldM := StateT World Option

namespace World

instance : Console WorldM where
  readLine w :=
    let (line, rest) := Text.cutLine w.input
    some (line, { w with input := rest })
  readRest w := some (w.input, { w with input := [] })
  readFile path w := some (w.files.read path, w)
  writeFile path contents w :=
    match w.files.write path contents with
    | .error cause => some (.error cause, w)
    | .ok files => some (.ok (), { w with files })
  home w := some (w.home, w)
  print text w := some ((), { w with output := w.output ++ text })
  complain text w := some ((), { w with complaints := w.complaints ++ text })
  outOfBudget _ := none

end World

end UntypedLambda
