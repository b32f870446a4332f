import Predication.BitSet
import Predication.Cleanup.Basic

/-!
Removal of the blocks of the layout that control cannot reach from the entry.
-/

set_option autoImplicit false
set_option relaxedAutoImplicit false

namespace Predication.Cleanup

/-- Marks what the blocks on the stack lead to. -/
def reach (f : Procedure) :
    (fuel : Nat) → (stack : List BlockId) → (seen : BitSet) → Except Fault BitSet
  | _, [], seen => .ok seen
  | 0, _ :: _, _ => .error .unsettled
  | fuel + 1, b :: stack, seen => do
    let (seen, stack) ← (← f.succs b).foldlM
      (fun (seen, stack) s => do
        let (seen, new) ← seen.insertNew s
        return (seen, if new then s :: stack else stack))
      (seen, stack)
    reach f fuel stack seen

def unreachable (f : Procedure) (entry : BlockId) : Except Fault (List BlockId) := do
  let seen ← reach f (f.blocks.size + 1) [entry] (← BitSet.empty.insert entry)
  let lost ← f.layout.foldlM
    (fun lost b => if seen.contains b then .ok lost else lost.insert b) BitSet.empty
  return lost.toList.map Int.ofNat

def unlink (f : Procedure) (b : BlockId) : Except Fault Procedure := do
  (← f.succs b).reverse.foldlM
    (fun f s => do (← f.removePhiInputs s b).removeSucc b s) f

def removeAll : List BlockId → Procedure → Traced Event Procedure
  | [], f => return f
  | b :: rest, f => do
    Traced.report (.removed (f.blockName b))
    removeAll rest (← Traced.ofExcept (f.removeBlock b))

def removeUnreachable (f : Procedure) : Traced Event (Procedure × Bool) := do
  match f.entry? with
  | none => return (f, false)
  | some entry =>
    let lost ← Traced.ofExcept (unreachable f entry)
    let f ← Traced.ofExcept (lost.foldlM unlink f)
    return (← removeAll lost f, !lost.isEmpty)

end Predication.Cleanup
