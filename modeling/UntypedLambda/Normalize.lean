import UntypedLambda.Reduction

/-!
# Normalization

An expression is reduced until nothing is left to reduce, a limit on the number of steps is met,
or the reduction is cancelled. Before each step the three are asked in this order: cancelled,
normal, limit. So an expression that is normal after exactly as many steps as the limit allows
is still normalized, and a raised flag wins over both.

Some expressions have no normal form, so without a limit there may be no result. The loop
takes a *budget*, the number of times that it may ask those questions, and has no result when
the budget runs out. With a limit of `n` steps a budget of `n + 1` is always enough; without
one, "reduction ends" means that some budget is enough, and a larger one gives the same result.

The loop is written for any monad. A `Watcher` says how the flag is read and what happens at
each step; the flag may be raised by what happens there.
-/

namespace UntypedLambda

/-- Why a reduction ended without a normal form. -/
inductive Halt where
  | limitExceeded (steps : Nat)
  | cancelled (steps : Nat)
deriving DecidableEq, Repr

/-- How the end of the reduction is reported. -/
def Halt.message : Halt → String
  | limitExceeded steps => "gave up after " ++ toString steps ++ " reduction steps"
  | cancelled steps => "interrupted after " ++ toString steps ++ " reduction steps"

/-- What goes on around a reduction. -/
structure Watcher (m : Type → Type) where
  /-- Whether the reduction is cancelled. -/
  isCancelled : m Bool
  /-- Called with the number and the result of each step. -/
  onStep : Nat → Expr → m Unit

/-- A watcher that does nothing. The flag stays as it is: up throughout if it is `raised`, and never
up otherwise. -/
def Watcher.idle {m : Type → Type} [Monad m] (raised : Bool := false) : Watcher m :=
  ⟨pure raised, fun _ _ ↦ pure ()⟩

namespace Expr

/-- Whether a limit allows no step after so many. -/
def limitMet (limit : Option Nat) (steps : Nat) : Bool :=
  match limit with
  | none => false
  | some most => most ≤ steps

/-- Reduces `e`, which is the result of `steps` steps, to its normal form. -/
def normalizeFrom {m : Type → Type} [Monad m] (watcher : Watcher m) (limit : Option Nat) :
    (budget steps : Nat) → Expr → Supply → m (Option (Except Halt Expr × Supply))
  | 0, _, _, _ => pure none
  | budget + 1, steps, e, s => do
    if ← watcher.isCancelled then
      return some (.error (.cancelled steps), s.note (.cancelled steps))
    else if !e.isReducible then
      return some (.ok e, s.note (.reachedNormalForm steps))
    else if limitMet limit steps then
      return some (.error (.limitExceeded steps), s.note (.exceededLimit steps))
    else
      let (e', s') := e.reduce s
      watcher.onStep (steps + 1) e'
      normalizeFrom watcher limit budget (steps + 1) e' (s'.note (.reduced (steps + 1) e'))

/-- Reduces an expression to its normal form under the eyes of a watcher. -/
def normalizeWith {m : Type → Type} [Monad m] (watcher : Watcher m) (limit : Option Nat)
    (budget : Nat) (e : Expr) (s : Supply) : m (Option (Except Halt Expr × Supply)) :=
  normalizeFrom watcher limit budget 0 e s

/-- Reduces an expression to its normal form. Nothing happens at a step, so the flag that cancels
the reduction is up from the start, which is `raised`, or not at all. -/
def normalize (limit : Option Nat) (budget : Nat) (e : Expr) (s : Supply)
    (raised : Bool := false) : Option (Except Halt Expr × Supply) :=
  Id.run (normalizeWith (.idle raised) limit budget e s)

end Expr

/-! ### Traces -/

/-- The steps of a reduction so far, and whether the flag that cancels it is up. -/
structure Trace where
  steps : Array (Nat × Expr) := #[]
  raised : Bool := false
deriving DecidableEq, Repr

/-- Records every step. The flag goes up at step `cancelAt`, if there is one. -/
def Trace.recorder (cancelAt : Option Nat) : Watcher (StateM Trace) where
  isCancelled := do return (← get).raised
  onStep step e := modify fun t ↦
    { steps := t.steps.push (step, e), raised := t.raised || cancelAt == some step }

/-- Reduces an expression and records its steps. With `cancelAt` 0 the flag is up from the
start. -/
def Expr.trace (limit cancelAt : Option Nat) (budget : Nat) (e : Expr) (s : Supply) :
    Option (Except Halt Expr × Supply) × Trace :=
  (normalizeWith (Trace.recorder cancelAt) limit budget e s).run
    { raised := cancelAt == some 0 }

end UntypedLambda
