import Predication.Conversion.Guarding

/-!
Joining blocks: a block takes in the code and the edges of an arm, and its edges and the summaries
of its neighbours are brought in order afterwards.
-/

set_option autoImplicit false
set_option relaxedAutoImplicit false

namespace Predication.Conversion

variable (t : Target)

/-- Hands the edges of `source` over to `dest`. The edge by which `source` runs past its end stays
with it, and the others are dropped unless `keep` says to lead them from `dest`. -/
def handOver (dest source : BlockId) (c : Condition) (keep : Bool) (next : Option BlockId) :
    List BlockId → Convert Unit
  | [] => return ()
  | s :: rest => do
    joinPhis s dest source c
    if BlockId.named? s ≠ next then
      Convert.edit (·.removeSucc source s)
      if keep then
        Convert.edit (·.addSucc dest s)
    handOver dest source c keep next rest

/-- Moves the code and the edges of `source` into `dest` and removes `source`. The condition tells
that control came through `source`. -/
def join (dest source : BlockId) (c : Condition) (keep : Bool) : Convert Unit := do
  collapsePhis source
  let falls := (← Convert.info source).fallsThrough
  let f ← Convert.procedure
  let next := if falls then f.next? source else none
  Convert.edit fun f => do f.moveCode dest source 0 (← f.code source).length
  handOver dest source c keep next (← Convert.query (·.succs source))
  Convert.edit (·.removeSucc dest source)
  let preds ← Convert.predCount source
  if preds ≠ 0 then
    Convert.breach (some source) none (.stillEntered preds)
  Convert.edit (·.removeBlock source)
  let src ← Convert.info source
  Convert.setInfo dest fun i =>
    { i with
      guard := i.guard.conj src.guard
      size := i.size + src.size
      extra := i.extra + src.extra
      extraGuard := i.extraGuard + src.extraGuard
      clobbers := i.clobbers || src.clobbers
      fallsThrough := src.fallsThrough
      visit := .unvisited }
  Convert.setInfo source fun i => { i with guard := [], size := 0, visit := .unvisited }

def dropExtraEdges (b : BlockId) : Convert Unit := do
  if (← Convert.query (t.analyzeBranch · b)).isSome then
    let flow ← Convert.query (·.flowSuccs b)
    let extra := (← Convert.query (·.succs b)).filter fun s => decide (s ∉ flow)
    extra.forM fun s => do
      Convert.edit (·.removeSucc b s)
      Convert.edit (·.removePhiInputs s b)

def invalidatePreds (b : BlockId) : Convert Unit := do
  (← Convert.query (·.preds b)).forM fun p => do
    let i ← Convert.info p
    unless i.done || decide (p = b) do
      Convert.setInfo p fun i => { i with visit := .unvisited, queued := false }

def jumpTo (b dest : BlockId) : Convert Unit := do
  let _ ← Convert.editWith fun f => t.insertBranch f b { taken := BlockId.named? dest }
  Convert.setInfo b fun i => { i with fallsThrough := false }

def cutBranch (b : BlockId) : Convert Unit := do
  let n ← Convert.editWith (t.removeBranch · b)
  Convert.setInfo b fun i => { i with size := if i.size < n then 0 else i.size - n }

def reverse (b : BlockId) (c : Condition) : Convert Condition :=
  match t.reverse? c with
  | some r => return r
  | none => Convert.breach (some b) none (.irreversible c)

/-- Turns the branch at the end of `b` round, and tells whether that could be done. -/
def turnBranch (b : BlockId) : Convert Bool := do
  let i ← Convert.info b
  match t.reverse? i.cond with
  | none => return false
  | some r =>
    let _ ← Convert.editWith (t.removeBranch · b)
    let _ ← Convert.editWith
      fun f => t.insertBranch f b { taken := i.other, other := i.taken, cond := r }
    Convert.setInfo b fun i => { i with taken := i.other, other := i.taken, cond := r }
    return true

end Predication.Conversion
