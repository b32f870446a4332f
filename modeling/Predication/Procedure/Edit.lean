import Predication.Procedure.Edges

/-!
Changes to the code of blocks. New instructions go to the end of the instruction arena, so the ids
of older ones stay good; an instruction taken out of a block stays in the arena.
-/

set_option autoImplicit false
set_option relaxedAutoImplicit false

namespace Predication.Procedure

variable (f : Procedure)

def addInst (i : Inst) : Procedure × InstId :=
  ({ f with insts := f.insts.push i }, f.insts.size)

def placeLast (b : BlockId) (i : InstId) : Except Fault Procedure :=
  f.updateBlock b (fun x => { x with code := x.code ++ [i] })

def placeAt (b : BlockId) (pos : Int) (i : InstId) : Except Fault Procedure := do
  let code ← f.code b
  let code := (← Arena.upTo code pos) ++ i :: (← Arena.since code pos)
  f.updateBlock b (fun x => { x with code := code })

def append (b : BlockId) (i : Inst) : Except Fault (Procedure × InstId) := do
  let (f, id) := f.addInst i
  return (← f.placeLast b id, id)

def insert (b : BlockId) (pos : Int) (i : Inst) : Except Fault (Procedure × InstId) := do
  let (f, id) := f.addInst i
  return (← f.placeAt b pos id, id)

def clone (i : InstId) : Except Fault (Procedure × InstId) := do
  return f.addInst (← f.inst i)

def shareOperands (i new : InstId) : Procedure :=
  { f with sharing := (new, i) :: (i, i) :: f.sharing }

def ownOperands (i : InstId) : Procedure :=
  { f with sharing := f.sharing.filter fun x => decide (x.1 ≠ i) }

def sharers (i : InstId) : List InstId :=
  match f.sharing.lookup i with
  | none => []
  | some owner =>
    (f.sharing.filter fun x => decide (x.2 = owner) && decide (x.1 ≠ i)).map Prod.fst

/-- Leads an instruction to `new` where it led to `old`, and with it those that share its
operands. -/
def retarget (i : InstId) (old new : BlockId) : Except Fault Procedure :=
  (i :: f.sharers i).foldlM (fun g k => g.updateInst k (Inst.retarget old new)) f

def eraseCode (b : BlockId) (i j : Int) : Except Fault Procedure := do
  let code ← f.code b
  let code := (← Arena.upTo code i) ++ (← Arena.since code j)
  f.updateBlock b (fun x => { x with code := code })

def moveCode (dest source : BlockId) (i j : Int) : Except Fault Procedure := do
  let moved ← Arena.since (← Arena.upTo (← f.code source) j) i
  let f ← f.updateBlock dest (fun x => { x with code := x.code ++ moved })
  f.eraseCode source i j

def replaceReg (old new : Reg) : Procedure :=
  { f with
    insts := f.insts.map (Inst.renameReads old new)
    blocks := f.blocks.map (fun x : Block =>
      { x with liveIn := x.liveIn.map (fun r => if r = old then new else r) }) }

def leadingPhis : List InstId → Except Fault (List InstId)
  | [] => .ok []
  | i :: rest => do
    if (← f.inst i).op = .phi then
      return i :: (← leadingPhis rest)
    else
      return []

def phis (b : BlockId) : Except Fault (List InstId) := do
  f.leadingPhis (← f.code b)

def removePhiInputs (b pred : BlockId) : Except Fault Procedure := do
  (← f.phis b).foldlM (fun g i => g.updateInst i (Inst.dropPhiInputs pred)) f

end Predication.Procedure
