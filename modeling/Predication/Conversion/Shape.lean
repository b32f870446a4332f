import Predication.Conversion.Estimate
import Predication.Conversion.Summary

/-!
The shapes of branches that can be converted, and what it takes to convert them. A shape with an arm
that other blocks enter too needs a copy of that arm.
-/

set_option autoImplicit false
set_option relaxedAutoImplicit false

namespace Predication.Conversion

variable (t : Target) (f : Procedure)

def dropDebug : List InstId → Except Fault (List InstId)
  | [] => .ok []
  | i :: rest => do
    if (← f.inst i).op.isDebug then dropDebug rest else return i :: rest

/-- The number of instructions that two pieces of code start with in common, debug markers apart and
up to one that `stops` the count, with the rest of both. -/
def commonRun (stops : Inst → Bool) (a b : List InstId) :
    Except Fault (Nat × List InstId × List InstId) :=
  match a, b with
  | [], b => do return (0, [], ← dropDebug f b)
  | i :: a, [] => do return (0, ← dropDebug f (i :: a), [])
  | i :: a, j :: b => do
    let x ← f.inst i
    let y ← f.inst j
    if x.op.isDebug then
      commonRun stops a (j :: b)
    else if y.op.isDebug then
      commonRun stops (i :: a) b
    else if stops x || decide (x ≠ y) then
      return (0, i :: a, j :: b)
    else
      let (n, rest) ← commonRun stops a b
      return (n + 1, rest)
termination_by a.length + b.length

def dropBranches : List InstId → Except Fault (List InstId)
  | [] => .ok []
  | i :: rest => do
    if (← f.inst i).op.isBranch then dropBranches rest else return i :: rest

/-- The number of instructions that two blocks start with in common, and of those that the rest of
them ends with in common. Debug markers and the branches at the end do not count. -/
def sharedCode (a b : BlockId) : Except Fault (Nat × Nat) := do
  let (head, restA, restB) ← commonRun f (fun i => i.op.isBranch) (← f.code a) (← f.code b)
  let backA ← dropBranches f restA.reverse
  let backB ← dropBranches f restB.reverse
  let (tail, _) ← commonRun f (fun _ => false) backA backB
  return (head, tail)

def isBusy (s : Summary) : Bool := decide (s.visit = .analyzing) || s.done

/-- The copies of an arm that a conversion needs: none for an arm that only the head enters. Gives
nothing if the arm must not be copied or if that does not pay. -/
def copies? (arm : Summary) (size : Int) (e : Estimate) : Except Fault (Option Int) := do
  if (← f.preds arm.block).length > 1 then
    if arm.unique || !t.paysToCopy size e.prediction e.confidence then
      return none
    else
      return some size
  else
    return some 0

def simple? (arm : Summary) (e : Estimate) : Except Fault (Option Int) := do
  if isBusy arm || arm.analyzable then return none else copies? t f arm arm.size e

/-- The number of instructions that a copy of a triangle's arm has: its jump is left out, and a
branch is added where the arm has another way out. -/
def triangleSize (arm : Summary) (reversed : Bool) : Int :=
  if arm.analyzable then
    if arm.taken.isSome && arm.cond.isEmpty then
      arm.size - 1
    else if (if reversed then arm.taken else arm.other).isSome then
      arm.size + 1
    else
      arm.size
  else
    arm.size

def exitOf (arm : Summary) (exit : Option BlockId) : Option BlockId :=
  if exit.isNone && arm.alwaysFallsThrough then f.next? arm.block else exit

/-- The arm comes back to the block `join`; a reversed one where its own condition does not hold. -/
def triangle? (arm : Summary) (join : BlockId) (reversed : Bool) (e : Estimate) :
    Except Fault (Option Int) := do
  if isBusy arm then
    return none
  else
    match ← copies? t f arm (triangleSize arm reversed) e with
    | none => return none
    | some n =>
      let exit := exitOf f arm (if reversed then arm.other else arm.taken)
      return if exit = some join then some n else none

/-- Both arms are entered from the head alone and go on at the same block, or both leave for good.
Gives the numbers of instructions that they start and end with in common. -/
def diamond? (a b : Summary) : Except Fault (Option (Nat × Nat)) := do
  if isBusy a || isBusy b then
    return none
  else
    let tail := exitOf f a a.taken
    if tail ≠ exitOf f b b.taken then
      return none
    else if tail.isNone && (a.analyzable || b.analyzable) then
      return none
    else if (← f.preds a.block).length > 1 then
      return none
    else if (← f.preds b.block).length > 1 then
      return none
    else if a.other.isSome || b.other.isSome || (a.clobbers && b.clobbers) then
      return none
    else
      return some (← sharedCode f a.block b.block)

def pays (arm : Summary) (e : Estimate) : Bool :=
  let cycles := Int64.ofInt arm.size + arm.extra
  decide (0 < cycles) && t.paysToGuard cycles arm.extraGuard e.prediction e.confidence

def paysPair (a b : Summary) (shared : Nat) (e : Estimate) : Bool :=
  let cyclesA := Int64.ofInt (a.size - shared) + a.extra
  let cyclesB := Int64.ofInt (b.size - shared) + b.extra
  decide (0 < cyclesA) && decide (0 < cyclesB) &&
    t.paysToGuardPair cyclesA a.extraGuard cyclesB b.extraGuard e.prediction e.confidence

def canGuard (arm : Summary) (c : Condition) : Bool :=
  !arm.done && !arm.unguardable &&
    (arm.guard.isEmpty || t.subsumes arm.guard c || t.subsumes c arm.guard)

def feasible (arm : Summary) (c : Condition) : Bool := canGuard t arm c && arm.cond.isEmpty

/-- The arm of a triangle can be guarded by a condition. If it branches on a condition of its own,
it must come back wherever the guard does not hold. -/
def feasibleTriangle (arm : Summary) (c : Condition) (reversed : Bool) : Bool :=
  canGuard t arm c &&
    (arm.cond.isEmpty ||
      match if reversed then t.reverse? arm.cond else some arm.cond, t.reverse? c with
      | some own, some rest => t.subsumes own rest
      | _, _ => false)

end Predication.Conversion
