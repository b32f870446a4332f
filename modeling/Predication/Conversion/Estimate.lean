import Predication.Flow.Loops

/-!
Estimates of where a branch goes, from the loops around it.
-/

set_option autoImplicit false
set_option relaxedAutoImplicit false

namespace Predication

/-- The probability that a branch is taken, and the confidence in its prediction. -/
structure Estimate where
  prediction : Float := 0.5
  confidence : Float := 0.9

namespace Estimate

def not (e : Estimate) : Estimate := { e with prediction := 1 - e.prediction }

def leaves (t : LoopTable) (l : Nat) (b : BlockId) : Except Fault Bool := do
  match t.loopOf? b with
  | none => return true
  | some inner => return (← Arena.get t.parents inner) = some l

/-- Estimates a branch in the block `head` with the arms `taken` and `other`. Branches to the header
of the loop are likely, and branches out of it are not. -/
def predict (loops : Option LoopTable) (head taken other : BlockId) : Except Fault Estimate := do
  match loops with
  | none => return {}
  | some t =>
    match t.loopOf? head with
    | none => return {}
    | some l =>
      let header ← Arena.get t.headers l
      let e : Estimate :=
        if header = taken then { prediction := 0.9 }
        else if header = other then { prediction := 0.1 }
        else {}
      if ← leaves t l taken then
        return { e with prediction := 0.2 }
      else if ← leaves t l other then
        return { e with prediction := 0.8 }
      else
        return e

end Estimate

end Predication
