import UntypedLambda.Expr.Render

/-!
# The journal

What the evaluator does on the way is noted as a list of events: a bound name changed to avoid
capture, one step of a reduction, how a reduction ended, a file being loaded. Events are values
and are put into words only when they are shown, so a step can be noted without being printed.

A journal keeps what is at least as severe as its threshold. The default keeps nothing, since
no event reaches it; a reduction of many steps then leaves no trace in memory.
-/

namespace UntypedLambda

/-- How severe an event is. -/
inductive Level where
  | trace
  | debug
  | info
  | warn
deriving DecidableEq, Repr

/-- Levels in order, the least severe first. -/
def Level.rank : Level → Nat
  | trace => 0
  | debug => 1
  | info => 2
  | warn => 3

/-- Something that the evaluator did. -/
inductive Event where
  /-- A binder got a fresh name, since its own would have captured a variable. -/
  | renamed (old new : Name)
  /-- Step number `step` of a reduction gave `result`. -/
  | reduced (step : Nat) (result : Expr)
  /-- Nothing was left to reduce after so many steps. -/
  | reachedNormalForm (steps : Nat)
  /-- The limit was met after so many steps. -/
  | exceededLimit (steps : Nat)
  /-- The reduction was cancelled after so many steps. -/
  | cancelled (steps : Nat)
  /-- The lines of a file, or of the standard input, are about to be evaluated. -/
  | loading (source : String)
deriving DecidableEq, Repr

namespace Event

/-- The level of an event. -/
def level : Event → Level
  | renamed _ _ => .debug
  | reduced _ _ => .trace
  | reachedNormalForm _ => .debug
  | exceededLimit _ => .debug
  | cancelled _ => .debug
  | loading _ => .info

/-- The event in words. -/
def message : Event → String
  | renamed old new => "renaming " ++ old ++ " to " ++ new ++ " to avoid capture"
  | reduced _ _ => "reduced"
  | reachedNormalForm _ => "reached normal form"
  | exceededLimit _ => "step limit exceeded"
  | cancelled _ => "normalization cancelled"
  | loading _ => "loading"

/-- What is known about the event besides its message. -/
def fields : Event → List (String × String)
  | renamed _ _ => []
  | reduced step result => [("step", toString step), ("expr", result.render)]
  | reachedNormalForm steps => [("steps", toString steps)]
  | exceededLimit steps => [("steps", toString steps)]
  | cancelled steps => [("steps", toString steps)]
  | loading source => [("file", source)]

end Event

/-- The events noted so far, of those that are severe enough to be kept. -/
structure Journal where
  threshold : Level := .warn
  events : Array Event := #[]
deriving DecidableEq, Repr

/-- Notes an event, if it is severe enough. -/
def Journal.add (j : Journal) (event : Event) : Journal :=
  if j.threshold.rank ≤ event.level.rank then { j with events := j.events.push event } else j

/-- A journal that keeps every event. -/
def Journal.keepingAll : Journal := { threshold := .trace }

end UntypedLambda
