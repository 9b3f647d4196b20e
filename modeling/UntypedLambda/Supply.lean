import UntypedLambda.Journal

/-!
# The supply of fresh names

A fresh name is a stem, a `'`, and a number. The stem is the name that it replaces, up to the
first `'` in it, so `y'3` is followed by `y'7` and not by `y'3'7`. The number counts up over the
whole life of a supply, so no name is handed out twice.

The supply is a value. Whatever draws names takes one and gives back another, and the order of
the draws is the order in which the supply is passed on. It also carries the journal, which is
passed on in the same order.

Names that were there before are not looked at: a fresh name is new among the fresh names, and
it is new among the names of an expression as long as those have no `'`, or a smaller number.
-/

namespace UntypedLambda

/-- The number of the next fresh name, and the journal. -/
structure Supply where
  next : Nat := 0
  journal : Journal := {}
deriving DecidableEq, Repr

namespace Supply

/-- A name up to its first `'`. -/
def stem (name : Name) : Name := String.ofList (name.toList.takeWhile (· ≠ '\''))

/-- The fresh name with the stem of `name` and the number `n`. -/
def numbered (name : Name) (n : Nat) : Name := stem name ++ "'" ++ toString n

/-- The name that replaces `name` when it is drawn next. -/
def fresh (s : Supply) (name : Name) : Name := numbered name s.next

/-- The supply after one draw. -/
def advance (s : Supply) : Supply := { s with next := s.next + 1 }

/-- Notes an event in the journal. -/
def note (s : Supply) (event : Event) : Supply := { s with journal := s.journal.add event }

/-- Draws one name for each of `names`, in order. -/
def drawAll (s : Supply) : List Name → List Name × Supply
  | [] => ([], s)
  | name :: names =>
    let (drawn, rest) := s.advance.drawAll names
    (s.fresh name :: drawn, rest)

@[simp]
theorem next_advance (s : Supply) : s.advance.next = s.next + 1 := rfl

@[simp]
theorem next_note (s : Supply) (event : Event) : (s.note event).next = s.next := rfl

end Supply

end UntypedLambda
