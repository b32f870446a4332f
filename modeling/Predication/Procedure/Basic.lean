import Predication.Arena
import Predication.Instruction

/-!
Procedures: control flow graphs over two arenas, one of blocks and one of instructions. Blocks and
instructions are named by id and never move; a removed block stays in the arena, marked dead. The
layout is the order in which blocks stand in memory, and control falls from a block into the next.

A procedure is plain data. What makes it a proper graph is said by `Procedure.verify`.
-/

set_option autoImplicit false
set_option relaxedAutoImplicit false

namespace Predication

/-- A straight run of instructions with the edges that enter and leave it. -/
structure Block where
  id : BlockId
  name : String
  code : List InstId := []
  succs : List BlockId := []
  preds : List BlockId := []
  liveIn : List Reg := []
  dead : Bool := false
  deriving Repr, DecidableEq, Inhabited

/-- A control flow graph. -/
structure Procedure where
  name : String
  blocks : Array Block := #[]
  insts : Array Inst := #[]
  layout : List BlockId := []
  regs : Array String := #[]
  /-- Instructions with the instruction whose operands they read; those that read the operands of
  the same instruction share them. -/
  sharing : List (InstId × InstId) := []
  deriving Repr, DecidableEq, Inhabited

abbrev Program := List Procedure

def Program.procedure? (p : Program) (name : String) : Option Procedure :=
  p.find? (fun f => decide (f.name = name))

namespace Procedure

variable (f : Procedure)

def block (b : BlockId) : Except Fault Block := Arena.get f.blocks b

def inst (i : InstId) : Except Fault Inst := Arena.get f.insts i

def updateBlock (b : BlockId) (g : Block → Block) : Except Fault Procedure := do
  return { f with blocks := ← Arena.update f.blocks b g }

def updateInst (i : InstId) (g : Inst → Inst) : Except Fault Procedure := do
  return { f with insts := ← Arena.update f.insts i g }

def code (b : BlockId) : Except Fault (List InstId) := do
  return (← f.block b).code

def preds (b : BlockId) : Except Fault (List BlockId) := do
  return (← f.block b).preds

def succs (b : BlockId) : Except Fault (List BlockId) := do
  return (← f.block b).succs

/-- The block where control enters: the first of the layout. -/
def entry? : Option BlockId := f.layout.head?.bind BlockId.named?

def isEntry (b : BlockId) : Bool := f.layout.head? = some b

def following (b : BlockId) : List BlockId → Option BlockId
  | [] => none
  | x :: rest => if x = b then rest.head? else following b rest

def next? (b : BlockId) : Option BlockId := (following b f.layout).bind BlockId.named?

/-- The name of a register; a number outside the table is its own name. -/
def regName (r : Reg) : String :=
  match Arena.get f.regs r with
  | .ok name => name
  | .error _ => "r" ++ toString r

/-- The name of a block; an id outside the arena is shown as such. -/
def blockName (b : BlockId) : String :=
  match f.block b with
  | .ok blk => blk.name
  | .error _ => "<block " ++ toString b ++ ">"

def blockName? (b : Option BlockId) : String := f.blockName (BlockId.ofOption b)

def lookupReg? (name : String) : Option Reg :=
  (f.regs.findIdx? (fun n => decide (n = name))).map Int.ofNat

/-- Adds a block. A block without a name is named by its number. -/
def newBlock (name : String) : Procedure × BlockId :=
  let id : BlockId := f.blocks.size
  let name := if name = "" then "b" ++ toString id else name
  ({ f with blocks := f.blocks.push { id := id, name := name } }, id)

def freshName (taken : Array String) (n : Nat) : (tries : Nat) → String
  | 0 => "tmp." ++ toString n
  | tries + 1 =>
    let name := "tmp." ++ toString n
    if name ∈ taken then freshName taken (n + 1) tries else name

/-- Adds a register. A register without a name gets one that no other register has. -/
def newReg (name : String) : Procedure × Reg :=
  let r : Reg := f.regs.size
  let name := if name = "" then freshName f.regs f.regs.size f.regs.size else name
  ({ f with regs := f.regs.push name }, r)

end Procedure

end Predication
