import Predication.Conversion.Joining
import Predication.Conversion.Shape

/-!
The conversions themselves. Each of them starts from a candidate that was found by the analysis,
and gives up where an earlier conversion has changed an arm in the meantime; the blocks are then
analyzed again.
-/

set_option autoImplicit false
set_option relaxedAutoImplicit false

namespace Predication.Conversion

variable (t : Target)

def revisit (b : BlockId) : Convert Unit :=
  Convert.setInfo b fun i => { i with visit := .unvisited }

def retire (b : BlockId) : Convert Unit := Convert.setInfo b fun i => { i with done := true }

def armsOf (head : Summary) : Arm → Convert (Summary × Summary)
  | .taken => do return (← Convert.infoOf head.taken, ← Convert.infoOf head.other)
  | .other => do
    let taken ← Convert.infoOf head.taken
    return (← Convert.infoOf head.other, taken)

def isUsable (arm : Summary) : Convert Bool := do
  if arm.done then
    return false
  else if arm.unique then
    return decide ((← Convert.predCount arm.block) ≤ 1)
  else
    return true

def armCondition (head : Summary) : Arm → Convert Condition
  | .taken => return head.cond
  | .other => reverse t head.block head.cond

def reachNext (b next : BlockId) : Convert Bool := do
  if (← Convert.procedure).next? b = some next then
    return true
  else
    jumpTo t b next
    return false

def settleHead (b : BlockId) (falls : Bool) : Convert Unit := do
  dropExtraEdges t b
  unless falls do retire b
  invalidatePreds b

/-- Guards an arm that leaves for good. -/
def convertSimple (b : BlockId) (which : Arm) : Convert Bool := do
  let head ← Convert.info b
  let (arm, next) ← armsOf head which
  if ← isUsable arm then
    let c ← armCondition t head which
    let valued ← valuedAt [arm.block, next.block]
    if (← Convert.predCount arm.block) > 1 then
      cutBranch t b
      copyBlock t b arm.block c valued true
      unless ← Convert.query (·.isSucc arm.block arm.block) do
        Convert.edit (·.removeSucc b arm.block)
        Convert.edit (·.removePhiInputs arm.block b)
    else
      let stop := (← Convert.query (·.code arm.block)).length
      let _ ← guardBlock t arm.block stop c valued
      cutBranch t b
      join b arm.block c true
    let falls ← reachNext t b next.block
    settleHead t b falls
    retire arm.block
    return true
  else
    revisit b
    revisit arm.block
    return false

/-- Turns the branch of a reversed triangle's arm round. The other heads that lead to the arm were
classified by its old direction. -/
def turnArm (b arm : BlockId) : Convert Unit := do
  if ← turnBranch t arm then
    (← Convert.query (·.preds arm)).forM fun p => do
      unless decide (p = b) do
        if (← Convert.info p).queued then
          Convert.setInfo p fun i => { i with visit := .unvisited, queued := false }

/-- Leads on from a triangle's head to the block where the arms meet: by running into it, by taking
it in, or by a jump. Tells whether the head runs into it and whether it was taken in. -/
def reachJoin (b next : BlockId) (earlyExit : Bool) : Convert (Bool × Bool) := do
  if (← Convert.procedure).next? b = some next then
    return (true, false)
  else if !earlyExit && decide ((← Convert.predCount next) = 1) &&
      !(← Convert.info next).fallsThrough then
    join b next [] true
    return (false, true)
  else
    jumpTo t b next
    return (false, false)

/-- Guards an arm that comes back to the other one. -/
def convertTriangle (b : BlockId) (which : Arm) (reversed : Bool) : Convert Bool := do
  let head ← Convert.info b
  let (arm, next) ← armsOf head which
  if ← isUsable arm then
    let c ← armCondition t head which
    if reversed then turnArm t b arm.block
    let valued ← valuedAt [arm.block, next.block]
    let turned ← Convert.info arm.block
    let exit? ← match turned.other with
      | some exit => do pure (some (exit, ← reverse t arm.block turned.cond))
      | none => pure none
    if (← Convert.predCount arm.block) > 1 then
      cutBranch t b
      copyBlock t b arm.block c valued false
      Convert.edit (·.removeSucc b arm.block)
      Convert.edit (·.removePhiInputs arm.block b)
      extendPhis next.block b arm.block c
      if let some (exit, _) := exit? then
        extendPhis exit b arm.block c
    else
      cutBranch t arm.block
      let stop := (← Convert.query (·.code arm.block)).length
      let _ ← guardBlock t arm.block stop c valued
      cutBranch t b
      join b arm.block c false
    if let some (exit, exitCond) := exit? then
      let _ ← Convert.editWith
        fun f => t.insertBranch f b { taken := some exit, cond := exitCond }
      Convert.edit (·.addSucc b exit)
    let (falls, absorbed) ← reachJoin t b next.block exit?.isSome
    settleHead t b falls
    retire arm.block
    if absorbed then retire next.block
    return true
  else
    revisit b
    revisit arm.block
    return false

def leading (f : Procedure) (code : List InstId) : (n i : Nat) → Except Fault Nat
  | 0, i => .ok i
  | n + 1, i => do
    let rest := code.drop i
    leading f code n (i + (rest.length - (← dropDebug f rest).length) + 1)

/-- The position of the first of the last `n` instructions of a run of code that are no debug
markers. -/
def trailing (f : Procedure) (code : List InstId) : (n : Nat) → (stop : Int) → Except Fault Int
  | 0, stop => .ok stop
  | n + 1, stop => do
    let back := (code.take stop.toNat).reverse
    trailing f code n (stop - (back.length - (← dropDebug f back).length) - 1)

/-- Orders the arms of a diamond: one that sets predicates goes last, otherwise the longer one. -/
def inOrder (a b : Summary) : Bool :=
  !((a.clobbers && !b.clobbers) || (a.clobbers == b.clobbers && decide (a.size > b.size)))

def shrink (b : BlockId) (n : Int) : Convert Unit :=
  Convert.setInfo b fun i => { i with size := if i.size < n then 0 else i.size - n }

/-- Moves both arms of a diamond into the head: what they start with in common once and unguarded,
then the first arm without what they end with in common, then the second one, guarded up to that. -/
def moveArms (b first second : BlockId) (c c' : Condition) (shared sharedTail : Int)
    (keep : Bool) : Convert Unit := do
  cutBranch t b
  let valued ← valuedAt [first]
  let stop ← Convert.query fun f => do leading f (← f.code first) shared.toNat 0
  let stop' ← Convert.query fun f => do leading f (← f.code second) shared.toNat 0
  let valued ← (← Convert.query fun f => do Arena.upTo (← f.code first) stop).foldlM
    (notePlain t) valued
  Convert.edit (·.moveCode b first 0 stop)
  Convert.edit (·.eraseCode second 0 stop')
  shrink first shared
  shrink second shared
  cutBranch t first
  Convert.edit fun f => do
    let code ← f.code first
    f.eraseCode first (← trailing f code sharedTail.toNat code.length) code.length
  let stop := (← Convert.query (·.code first)).length
  let valued ← guardBlock t first stop c valued
  cutBranch t second
  let stop ← Convert.query fun f => do
    let code ← f.code second
    trailing f code sharedTail.toNat code.length
  let _ ← guardBlock t second stop c' valued
  join b first c keep
  join b second c' keep

def mayRunOn (b : BlockId) : Convert Bool := do
  match ← Convert.query (t.analyzeBranch · b) with
  | some br => return br.other.isNone
  | none => return false

/-- Leads on from a diamond's head to the block where the arms meet: by taking it in if nothing else
leads there, or by a jump. -/
def reachTail (b tail : BlockId) : Convert Unit := do
  let _ ← Convert.info tail
  let alone ← if tail = b then pure false
    else if (← Convert.predCount tail) ≠ 0 then pure false
    else do pure !(← mayRunOn t tail)
  if alone then
    Convert.setInfo tail fun i => { i with fallsThrough := false }
    join b tail [] true
    retire tail
  else
    Convert.edit (·.addSucc b tail)
    jumpTo t b tail

/-- Guards both arms of a branch. -/
def convertDiamond (b : BlockId) (shared sharedTail : Int) : Convert Bool := do
  let head ← Convert.info b
  let taken ← Convert.infoOf head.taken
  let other ← Convert.infoOf head.other
  let tail := exitOf (← Convert.procedure) taken taken.taken
  let usable ← if taken.done || other.done then pure false
    else if (← Convert.predCount taken.block) > 1 then pure false
    else do pure (decide ((← Convert.predCount other.block) ≤ 1))
  if usable then
    let c := head.cond
    let c' ← reverse t b c
    if inOrder taken other then
      moveArms t b taken.block other.block c c' shared sharedTail tail.isNone
    else
      moveArms t b other.block taken.block c' c shared sharedTail tail.isNone
    if let some tail := tail then
      reachTail t b tail
    dropExtraEdges t b
    retire b
    retire taken.block
    retire other.block
    invalidatePreds b
    let f ← Convert.procedure
    Convert.report (.diamond (f.blockName b) (f.blockName? tail) shared sharedTail)
    return true
  else
    revisit b
    revisit taken.block
    revisit other.block
    return false

def convert (c : Candidate) : Convert Bool :=
  match c.kind with
  | .simple arm => convertSimple t c.block arm
  | .triangle arm reversed => convertTriangle t c.block arm reversed
  | .diamond => convertDiamond t c.block c.shared c.sharedTail

end Predication.Conversion
