import Predication.Procedure.Edit
import Predication.Trace

/-!
Questions about the end of a block that the cleanup steps share, and the events they report.
-/

set_option autoImplicit false
set_option relaxedAutoImplicit false

namespace Predication.Cleanup

/-- What a cleanup reports. Blocks are given by name. -/
inductive Event where
  /-- A block that control cannot reach was removed. -/
  | removed (block : String)
  /-- A branch from `source` to `via` was led on to `dest`. -/
  | tunnelled (source via dest : String)
  /-- A block took in its only successor. -/
  | merged (block succ : String)
  /-- A round of all steps is over. -/
  | round (number : Nat) (changed : Bool)
  deriving Repr, DecidableEq

/-- The last instruction of reversed code that is no debug marker, with the number of instructions
before it. -/
def lastOfReversed? (f : Procedure) : List InstId → Except Fault (Option (Nat × Inst))
  | [] => .ok none
  | i :: before => do
    let x ← f.inst i
    if x.op.isDebug then lastOfReversed? f before else return some (before.length, x)

def last? (f : Procedure) (code : List InstId) : Except Fault (Option (Nat × Inst)) :=
  lastOfReversed? f code.reverse

def mayFallThrough (f : Procedure) (b : BlockId) : Except Fault Bool := do
  match ← last? f (← f.code b) with
  | some (_, i) => return !i.endsFlow
  | none => return true

def firstTarget (i : Inst) : Except Fault BlockId :=
  match i.uses with
  | u :: _ => .ok u.blockId
  | [] => .error .outOfRange

def isJump (i : Inst) : Bool := decide (i.op = .br) && !i.isGuarded

end Predication.Cleanup
