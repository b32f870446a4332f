import Predication.BitSet
import Predication.Conversion.Phis

/-!
Guarding code by a condition, in place or in a copy. A guarded instruction may leave its definitions
as they were; if such a register had a value before, the instruction reads it.
-/

set_option autoImplicit false
set_option relaxedAutoImplicit false

namespace Predication.Conversion

variable (t : Target)

/-- Guards an instruction. A copy becomes a select that keeps the former value, and an undefined
value needs no guard. -/
def guardInst (b : BlockId) (id : InstId) (c : Condition) : Convert Unit := do
  let i ← Convert.query (·.inst id)
  match i.op with
  | .undef => return ()
  | .copy =>
    match i.defs, i.uses with
    | [d], [v] =>
      Convert.edit (·.updateInst id fun i =>
        { i with op := .sel, cond := c, uses := [v, .reg d] })
      Convert.edit fun f => .ok (f.ownOperands id)
    | _, _ => Convert.breach (some b) (some id) .malformedCopy
  | _ =>
    match t.guard? i c with
    | some i => Convert.edit (·.updateInst id fun _ => i)
    | none => Convert.breach (some b) (some id) (.notGuarded i.op c)

/-- Goes through definitions: each joins the registers that have a value, and in a guarded
instruction one that had a value before joins the implicit reads. -/
def noteDefs (guarded : Bool) :
    List Reg → BitSet × List Reg → Except Fault (BitSet × List Reg)
  | [], state => .ok state
  | r :: rest, (valued, implicits) => do
    let implicits :=
      if guarded && valued.contains r && decide (r ∉ implicits) then implicits ++ [r]
      else implicits
    noteDefs guarded rest (← valued.insert r, implicits)

def allDefs (f : Procedure) (i : Inst) : List Reg := i.defs ++ t.redefines f i

def notePlain (valued : BitSet) (id : InstId) : Convert BitSet := do
  let i ← Convert.query (·.inst id)
  let f ← Convert.procedure
  return (← Convert.ofExcept (noteDefs false (allDefs t f i) (valued, i.implicits))).1

def noteGuarded (valued : BitSet) (id : InstId) : Convert BitSet := do
  let i ← Convert.query (·.inst id)
  let f ← Convert.procedure
  let (valued, implicits) ←
    Convert.ofExcept (noteDefs i.isGuarded (allDefs t f i) (valued, i.implicits))
  Convert.edit (·.updateInst id fun i => { i with implicits := implicits })
  return valued

def valuedAt (blocks : List BlockId) : Convert BitSet := do
  blocks.foldlM
    (fun valued b => do
      Convert.ofExcept ((← Convert.query (·.block b)).liveIn.foldlM BitSet.insert valued))
    .empty

def guardCode (b : BlockId) (c : Condition) : List InstId → BitSet → Convert BitSet
  | [], valued => return valued
  | id :: rest, valued => do
    if (← Convert.query (·.inst id)).op.isDebug then
      guardCode b c rest valued
    else
      guardInst t b id c
      guardCode b c rest (← noteGuarded t valued id)

def guardBlock (b : BlockId) (stop : Int) (c : Condition) (valued : BitSet) : Convert BitSet := do
  let code ← Convert.query fun f => do Arena.upTo (← f.code b) stop
  let valued ← guardCode t b c code valued
  Convert.setInfo b fun i => { i with guard := i.guard.conj c, size := 0, visit := .unvisited }
  Convert.tally fun s => { s with guardedBlocks := s.guardedBlocks + 1 }
  return valued

/-- Adds guarded copies of instructions to the end of a block. Without `branches` it stops at the
first branch. -/
def copyCode (dest : BlockId) (c : Condition) (branches : Bool) :
    List InstId → BitSet → Convert Unit
  | [], _ => return ()
  | id :: rest, valued => do
    if !branches && (← Convert.query (·.inst id)).op.isBranch then
      return ()
    else
      let new ← Convert.editWith (·.clone id)
      Convert.edit (·.placeLast dest new)
      let i ← Convert.query (·.inst new)
      if i.op.isDebug then
        copyCode dest c branches rest valued
      else
        Convert.setInfo dest (·.charge (t.latency i))
        guardInst t dest new c
        copyCode dest c branches rest (← noteGuarded t valued new)

def branchSuccs (b : BlockId) : Convert (List BlockId) := do
  let falls := (← Convert.info b).fallsThrough
  let f ← Convert.procedure
  let next := if falls then f.next? b else none
  return (← Convert.query (·.succs b)).filter fun s => decide (BlockId.named? s ≠ next)

/-- Adds a guarded copy of `source` to the end of `dest`. With its branches copied, `dest` also
leads to the successors of `source`. -/
def copyBlock (dest source : BlockId) (c : Condition) (valued : BitSet) (branches : Bool) :
    Convert Unit := do
  copyCode t dest c branches (← Convert.query (·.code source)) valued
  if branches then
    (← branchSuccs source).forM fun s => do
      Convert.edit (·.addSucc dest s)
      extendPhis s dest source c
  let src ← Convert.info source
  Convert.setInfo dest fun i =>
    { i with
      guard := (i.guard.conj src.guard).conj c
      clobbers := i.clobbers || src.clobbers
      visit := .unvisited }
  Convert.tally fun s => { s with copiedBlocks := s.copiedBlocks + 1 }

end Predication.Conversion
