import Predication.Cleanup.Basic

/-!
Merging: a block takes in its only successor where it is the only predecessor of that block and runs
straight into it. A block of the layout is tried again after it has taken in a successor.
-/

set_option autoImplicit false
set_option relaxedAutoImplicit false

namespace Predication.Cleanup

/-- Some instruction is a terminator, the one at position `except` apart. -/
def hasTerminator (f : Procedure) (except : Option Nat) :
    (index : Nat) → List InstId → Except Fault Bool
  | _, [] => .ok false
  | index, i :: rest => do
    let x ← f.inst i
    if except ≠ some index && x.op.isTerminator then
      return true
    else
      hasTerminator f except (index + 1) rest

/-- How a block runs straight into the one that follows it. -/
inductive Straight where
  /-- It runs past its end. -/
  | falls
  /-- It ends in the jump at this position. -/
  | jumps (position : Nat)
  deriving Repr, DecidableEq

def Straight.position? : Straight → Option Nat
  | falls => none
  | jumps position => some position

def ending? (f : Procedure) (b s : BlockId) : Except Fault (Option Straight) := do
  match ← last? f (← f.code b) with
  | some (position, i) =>
    if isJump i then
      return if (← firstTarget i) = s then some (.jumps position) else none
    else
      return some .falls
  | none => return some .falls

/-- How `b` reaches `s`, if it does so always and reaches nothing else. -/
def straightTo? (f : Procedure) (b s : BlockId) : Except Fault (Option Straight) := do
  match ← ending? f b s with
  | none => return none
  | some how =>
    if ← hasTerminator f how.position? 0 (← f.code b) then
      return none
    else
      match how with
      | .jumps position => return some (.jumps position)
      | .falls => return if f.next? b = some s then some .falls else none

def renameLabels (old new : BlockId) : List Operand → List Operand
  | v :: b :: rest => v :: b.renameLabel old new :: renameLabels old new rest
  | uses => uses

def renamePhiInputs (f : Procedure) (x old new : BlockId) : Except Fault Procedure := do
  (← f.phis x).foldlM
    (fun f id => f.updateInst id fun i => { i with uses := renameLabels old new i.uses }) f

/-- Puts `i` in place of the phi `id` in the arena, and behind the phis as a new instruction with
the same operands. -/
def placeResolved (f : Procedure) (b : BlockId) (id : InstId) (i : Inst) :
    Except Fault Procedure := do
  let f ← f.updateInst id (fun _ => i)
  let (f, new) ← f.insert b (← f.phis b).length i
  return f.shareOperands id new

/-- Replaces a phi of a block with one predecessor by its value. -/
def resolvePhi (f : Procedure) (b : BlockId) (id : InstId) : Except Fault Procedure := do
  let i ← f.inst id
  let f ← f.updateBlock b (fun x => { x with code := x.code.erase id })
  match i.uses with
  | [] => placeResolved f b id { i with op := .undef, uses := [] }
  | .reg r _ :: _ =>
    match i.defs with
    | d :: _ => return f.replaceReg d r
    | [] => throw .outOfRange
  | v :: _ => placeResolved f b id { i with op := .copy, uses := [v] }

def takeEdges (f : Procedure) (b s : BlockId) : Except Fault Procedure := do
  (← f.succs s).foldlM
    (fun f x => do
      let f ← renamePhiInputs f x s b
      (← f.removeSucc s x).addSucc b x)
    f

def openEnd (f : Procedure) (b : BlockId) : Straight → Except Fault Procedure
  | .jumps position => f.eraseCode b position (position + 1)
  | .falls => .ok f

/-- Moves the code and the edges of `s` to the end of `b` and removes `s`. A jump is added where `s`
ran past its end into a block that does not follow `b`. -/
def fuse (f : Procedure) (b s : BlockId) : Except Fault Procedure := do
  let f ← (← f.phis s).foldlM (fun f id => resolvePhi f s id) f
  let next := if ← mayFallThrough f s then f.next? s else none
  let f ← f.moveCode b s 0 (← f.code s).length
  let f ← takeEdges f b s
  let f ← (← f.removeSucc b s).removeBlock s
  match next with
  | some n => if f.next? b = some n then return f else return (← f.append b (.jump n)).1
  | none => return f

def absorb (f : Procedure) (b s : BlockId) (how : Straight) : Except Fault Procedure := do
  fuse (← openEnd f b how) b s

/-- The successor that `b` can take in. -/
def absorbable? (isEntry : BlockId → Bool) (f : Procedure) (b : BlockId) :
    Except Fault (Option (BlockId × Straight)) := do
  match (← f.block b).succs with
  | [s] =>
    if s = b || isEntry s then
      return none
    else if (← f.preds s).length ≠ 1 then
      return none
    else
      return (← straightTo? f b s).map fun how => (s, how)
  | _ => return none

/-- Merges from the position `index` of the layout on. -/
def mergeFrom (isEntry : BlockId → Bool) :
    (fuel : Nat) → (index : Nat) → Procedure × Bool → Traced Event (Procedure × Bool)
  | 0, _, _ => throw .unsettled
  | fuel + 1, index, (f, changed) => do
    match f.layout[index]? with
    | none => return (f, changed)
    | some b =>
      match ← Traced.ofExcept (absorbable? isEntry f b) with
      | none => mergeFrom isEntry fuel (index + 1) (f, changed)
      | some (s, how) =>
        let f ← Traced.ofExcept (absorb f b s how)
        Traced.report (.merged (f.blockName b) (f.blockName s))
        mergeFrom isEntry fuel index (f, true)

/-- The number of steps that merging can take: one for each block of the layout, and one for each
edge, since every merge uses up an edge. -/
def mergeBound (f : Procedure) : Nat :=
  f.layout.length + f.blocks.foldl (fun n b => n + b.succs.length) 0

def merge (f : Procedure) : Traced Event (Procedure × Bool) :=
  mergeFrom f.isEntry (mergeBound f + 1) 0 (f, false)

end Predication.Cleanup
