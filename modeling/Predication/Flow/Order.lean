import Predication.BitSet
import Predication.Procedure.Basic

/-!
The depth first order of the blocks that control can reach. Successors are visited in the order of
their lists, and a block is finished after all blocks that were first seen below it.
-/

set_option autoImplicit false
set_option relaxedAutoImplicit false

namespace Predication.Flow

/-- A block on the path of the walk, with the successors that are still to be tried. -/
structure Frame where
  block : BlockId
  pending : List BlockId
  deriving Repr, DecidableEq

/-- The number of steps a walk can take: one for each block and one for each edge. -/
def walkBound (f : Procedure) : Nat :=
  f.blocks.foldl (fun n b => n + (b.succs.length + 1)) 0

/-- Walks on until the path is used up. Finished blocks come out with the last one first. -/
def walk (f : Procedure) :
    (fuel : Nat) → (path : List Frame) → (seen : BitSet) → (finished : List BlockId) →
      Except Fault (List BlockId)
  | _, [], _, finished => .ok finished
  | 0, _ :: _, _, _ => .error .unsettled
  | fuel + 1, ⟨b, []⟩ :: path, seen, finished => walk f fuel path seen (b :: finished)
  | fuel + 1, ⟨b, s :: pending⟩ :: path, seen, finished => do
    let (seen, new) ← seen.insertNew s
    if new then
      walk f fuel (⟨s, ← f.succs s⟩ :: ⟨b, pending⟩ :: path) seen finished
    else
      walk f fuel (⟨b, pending⟩ :: path) seen finished

def reversePostorder (f : Procedure) (entry : BlockId) : Except Fault (List BlockId) := do
  let seen ← BitSet.empty.insert entry
  walk f (walkBound f + 1) [⟨entry, ← f.succs entry⟩] seen []

/-- The place of each block in the order of finishing; a block that is never reached has none. -/
def finishNumbers (size : Nat) (order : List BlockId) : Array (Option Nat) :=
  order.reverse.zipIdx.foldl
    (fun numbers (b, n) => numbers.modify b.toNat (fun _ => some n))
    (Array.replicate size none)

end Predication.Flow
