import Predication.Procedure.Basic

/-!
Edges between blocks. Successor and predecessor lists are kept in step: adding or removing an edge
changes the list at both of its ends. `flowSuccs` reads the successors off the code and the layout,
and `buildEdges` sets all edges to what the code says.
-/

set_option autoImplicit false
set_option relaxedAutoImplicit false

namespace Predication.Procedure

variable (f : Procedure)

def isSucc (b s : BlockId) : Except Fault Bool := do
  return decide (s ∈ (← f.block b).succs)

def addSucc (b s : BlockId) : Except Fault Procedure := do
  if ← f.isSucc b s then
    return f
  else
    let f ← f.updateBlock b (fun x => { x with succs := x.succs ++ [s] })
    f.updateBlock s (fun x => { x with preds := x.preds ++ [b] })

def removeSucc (b s : BlockId) : Except Fault Procedure := do
  if ← f.isSucc b s then
    let f ← f.updateBlock b (fun x => { x with succs := x.succs.erase s })
    f.updateBlock s (fun x => { x with preds := x.preds.erase b })
  else
    return f

/-- Unlinks a block that no other block leads to: its edges and its code go, and it leaves the
layout. -/
def removeBlock (b : BlockId) : Except Fault Procedure := do
  let blk ← f.block b
  if blk.preds.isEmpty then
    let f ← blk.succs.reverse.foldlM (fun f s => f.removeSucc b s) f
    let f ← f.updateBlock b (fun x => { x with code := [], dead := true })
    return { f with layout := f.layout.erase b }
  else
    throw (.stillEntered blk.name blk.preds)

def distinct {α : Type} [DecidableEq α] : List α → List α
  | [] => []
  | x :: rest => x :: (distinct rest).filter (fun y => decide (y ≠ x))

/-- The branch targets of a run of code up to the first instruction that ends the flow, and whether
control gets past the end of the run. -/
def flowTargets : List InstId → Except Fault (List BlockId × Bool)
  | [] => .ok ([], true)
  | i :: rest => do
    let x ← f.inst i
    if x.endsFlow then
      return (x.targets, false)
    else
      let (more, falls) ← flowTargets rest
      return (x.targets ++ more, falls)

/-- The blocks that control can reach from the end of `b` or from a branch in it: branch targets in
order, and last the next block of the layout if the code does not end the flow. -/
def flowSuccs (b : BlockId) : Except Fault (List BlockId) := do
  let (targets, falls) ← f.flowTargets (← f.code b)
  return distinct (targets ++ if falls then (f.next? b).toList else [])

def buildEdges : Except Fault Procedure :=
  let bare : Procedure :=
    { f with blocks := f.blocks.map (fun x : Block => { x with succs := [], preds := [] }) }
  bare.layout.foldlM
    (fun g b => do (← g.flowSuccs b).foldlM (fun g s => g.addSucc b s) g) bare

end Predication.Procedure
