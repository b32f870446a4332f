import Predication.Flow.Dominators

/-!
Natural loops. A loop has a header that dominates all of its blocks; an edge from a block of the
loop back to the header closes it. Loops with one header are one loop, and loops nest by their
blocks.
-/

set_option autoImplicit false
set_option relaxedAutoImplicit false

namespace Predication

/-- A natural loop. `parent` is the smallest other loop around it. -/
structure Loop where
  header : BlockId
  parent : Option Nat := none
  depth : Nat := 0
  blocks : BitSet
  deriving Repr, DecidableEq, Inhabited

/-- The loops of a procedure, and for each block the smallest loop that holds it. -/
structure LoopForest where
  loops : Array Loop := #[]
  innermost : Array (Option Nat)
  deriving Repr, DecidableEq

/-- What the converter asks about loops. -/
structure LoopTable where
  innermost : Array (Option Nat)
  headers : Array BlockId
  parents : Array (Option Nat)
  deriving Repr, DecidableEq

/-- The smallest loop that holds a block; an id outside the table is in no loop. -/
def LoopTable.loopOf? (t : LoopTable) (b : BlockId) : Option Nat :=
  match Arena.get t.innermost b with
  | .ok l => l
  | .error _ => none

namespace LoopForest

def table (t : LoopForest) : LoopTable :=
  { innermost := t.innermost
    headers := t.loops.map Loop.header
    parents := t.loops.map Loop.parent }

/-- Adds to a loop the blocks on the stack and all blocks that lead to them, up to those it has. -/
def fill (f : Procedure) (numbers : Array (Option Nat)) :
    (fuel : Nat) → (stack : List BlockId) → BitSet → Except Fault BitSet
  | _, [], blocks => .ok blocks
  | 0, _ :: _, _ => .error .unsettled
  | fuel + 1, b :: stack, blocks => do
    let (blocks, new) ← blocks.insertNew b
    if new then
      let more ← (← f.preds b).filterM fun p => do
        return (← Arena.get numbers p).isSome && !blocks.contains p
      fill f numbers fuel (more.reverse ++ stack) blocks
    else
      fill f numbers fuel stack blocks

def latches (f : Procedure) (numbers : Array (Option Nat)) (tree : Flow.DominatorTree)
    (entry header : BlockId) : Except Fault (List BlockId) := do
  (← f.preds header).filterM fun p => do
    if (← Arena.get numbers p).isSome then
      Flow.dominates tree entry (tree.size + 1) header p
    else
      return false

/-- The loop with the given header, if the header has a latch. -/
def loopAt? (f : Procedure) (numbers : Array (Option Nat)) (tree : Flow.DominatorTree)
    (entry header : BlockId) : Except Fault (Option Loop) := do
  let latches ← latches f numbers tree entry header
  if latches.isEmpty then
    return none
  else
    let bound := f.blocks.foldl (fun n b => n + b.preds.length) latches.length
    let blocks ← fill f numbers (bound + 1) latches.reverse (← BitSet.empty.insert header)
    return some { header, blocks }

/-- A loop with its index and its number of blocks. -/
structure Sized where
  loop : Loop
  index : Nat
  size : Nat
  deriving Repr, DecidableEq

def sized (loops : Array Loop) : List Sized :=
  loops.toList.zipIdx.map fun (l, i) => { loop := l, index := i, size := l.blocks.size }

/-- The smallest of the loops with an allowed index and with the block `b`; of two equally small
ones the first. -/
def smallest? (loops : List Sized) (allowed : Nat → Bool) (b : BlockId) : Option Nat :=
  (loops.foldl
    (fun best l =>
      if allowed l.index && l.loop.blocks.contains b && best.all (fun m => l.size < m.size) then
        some l
      else
        best)
    (none : Option Sized)).map Sized.index

def withParents (loops : Array Loop) : Array Loop :=
  let all := sized loops
  loops.mapIdx fun i l => { l with parent := smallest? all (fun j => j != i) l.header }

def withDepths (loops : Array Loop) : Array Loop :=
  let order := (sized loops).mergeSort fun x y => decide (x.size ≥ y.size)
  order.foldl
    (fun loops x =>
      loops.modify x.index fun l =>
        { l with depth := (l.parent.map fun p => ((loops[p]?).map Loop.depth).getD 0).getD 0 + 1 })
    loops

/-- Finds the loops of a procedure. -/
def find (f : Procedure) : Except Fault LoopForest := do
  let outside : Array (Option Nat) := Array.replicate f.blocks.size none
  match f.entry? with
  | none => return { innermost := outside }
  | some entry =>
    let order ← Flow.reversePostorder f entry
    let numbers := Flow.finishNumbers f.blocks.size order
    let tree ← Flow.dominators f numbers order
    let found ← order.filterMapM (loopAt? f numbers tree entry)
    let loops := withDepths (withParents found.toArray)
    let all := sized loops
    let innermost := order.foldl
      (fun inner b => inner.modify b.toNat fun _ => smallest? all (fun _ => true) b) outside
    return { loops, innermost }

end LoopForest

end Predication
