import Predication.Flow.Order

/-!
Immediate dominators, by sweeps over the blocks in depth first order. In each sweep a block gets the
nearest common dominator of its predecessors that have one already; the sweeps end when one of them
changes nothing. The immediate dominator of the entry is the entry.
-/

set_option autoImplicit false
set_option relaxedAutoImplicit false

namespace Predication.Flow

abbrev DominatorTree := Array (Option BlockId)

def parentOf (tree : DominatorTree) (b : BlockId) : Except Fault BlockId := do
  match ← Arena.get tree b with
  | some d => return d
  | none => throw .outOfRange

def finishNumber (numbers : Array (Option Nat)) (b : BlockId) : Except Fault Nat := do
  match ← Arena.get numbers b with
  | some n => return n
  | none => throw .outOfRange

/-- Moves up from a block for as long as the block was finished before number `limit`. A walk that
does not end never meets a block twice, so the number of blocks bounds it. -/
def climb (numbers : Array (Option Nat)) (tree : DominatorTree) (limit : Nat) :
    (fuel : Nat) → (a : BlockId) → Except Fault BlockId
  | 0, _ => .error .unsettled
  | fuel + 1, a => do
    if (← finishNumber numbers a) < limit then
      climb numbers tree limit fuel (← parentOf tree a)
    else
      return a

/-- The nearest common dominator: of two blocks, the one that was finished earlier moves up to the
other until both are the same. -/
def commonDominator (numbers : Array (Option Nat)) (tree : DominatorTree) :
    (fuel : Nat) → (a b : BlockId) → Except Fault BlockId
  | 0, _, _ => .error .unsettled
  | fuel + 1, a, b => do
    if a = b then
      return a
    else
      let a ← climb numbers tree (← finishNumber numbers b) (tree.size + 1) a
      let b ← climb numbers tree (← finishNumber numbers a) (tree.size + 1) b
      commonDominator numbers tree fuel a b

/-- The nearest common dominator of those of the blocks that are reached and have a dominator. -/
def joinDominators (numbers : Array (Option Nat)) (tree : DominatorTree) :
    (known : Option BlockId) → List BlockId → Except Fault (Option BlockId)
  | known, [] => .ok known
  | known, p :: rest => do
    if (← Arena.get numbers p).isNone || (← Arena.get tree p).isNone then
      joinDominators numbers tree known rest
    else
      match known with
      | none => joinDominators numbers tree (some p) rest
      | some x =>
        let bound := (tree.size + 1) * (tree.size + 1)
        joinDominators numbers tree (some (← commonDominator numbers tree bound p x)) rest

/-- One sweep over the blocks, and whether it changed anything. -/
def sweep (f : Procedure) (numbers : Array (Option Nat)) :
    List BlockId → DominatorTree × Bool → Except Fault (DominatorTree × Bool)
  | [], state => .ok state
  | b :: rest, (tree, changed) => do
    let d ← joinDominators numbers tree none (← f.preds b)
    if d = (← Arena.get tree b) then
      sweep f numbers rest (tree, changed)
    else
      sweep f numbers rest (← Arena.update tree b (fun _ => d), true)

def settle (f : Procedure) (numbers : Array (Option Nat)) (order : List BlockId) :
    (fuel : Nat) → DominatorTree → Except Fault DominatorTree
  | 0, _ => .error .unsettled
  | fuel + 1, tree => do
    let (tree, changed) ← sweep f numbers order (tree, false)
    if changed then settle f numbers order fuel tree else return tree

/-- The immediate dominators of the blocks in `order`, which starts with the entry. A sweep that
changes something moves a block up, and there are fewer such moves than pairs of blocks. -/
def dominators (f : Procedure) (numbers : Array (Option Nat)) :
    (order : List BlockId) → Except Fault DominatorTree
  | [] => .ok #[]
  | entry :: rest => do
    let size := f.blocks.size
    let tree ← Arena.update (Array.replicate size none) entry (fun _ => some entry)
    settle f numbers rest ((size + 1) * (size + 1)) tree

/-- The block `a` is on the way from `b` up to the entry. -/
def dominates (tree : DominatorTree) (entry : BlockId) :
    (fuel : Nat) → (a b : BlockId) → Except Fault Bool
  | 0, _, _ => .error .unsettled
  | fuel + 1, a, b => do
    if a = b then
      return true
    else if b = entry then
      return false
    else
      dominates tree entry fuel a (← parentOf tree b)

end Predication.Flow
