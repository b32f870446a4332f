import Predication.Condition

/-!
Instructions of a predicated machine. An instruction may be guarded: it then takes effect only
where its guard holds. A phi takes its value from the block that control came from; its uses
alternate between a value and the block that brings it.
-/

set_option autoImplicit false
set_option relaxedAutoImplicit false

namespace Predication

abbrev BlockId := Int

abbrev InstId := Int

/-- The block an id stands for; the id `-1` stands for no block. -/
def BlockId.named? (b : BlockId) : Option BlockId :=
  if b = -1 then none else some b

def BlockId.ofOption (b : Option BlockId) : BlockId :=
  b.getD (-1)

/-- What an instruction does. All but the last are known to every machine. -/
inductive Op where
  | phi
  | copy
  | undef
  | sel
  | br
  | brc
  | ret
  | switch
  | dbg
  | other (name : String)
  deriving Repr, DecidableEq, Inhabited

namespace Op

/-- The name of an operation in a listing. -/
def mnemonic : Op → String
  | phi => "phi"
  | copy => "copy"
  | undef => "undef"
  | sel => "sel"
  | br => "br"
  | brc => "brc"
  | ret => "ret"
  | switch => "switch"
  | dbg => "dbg"
  | other name => name

/-- The operation with a given name. -/
def ofMnemonic (name : String) : Op :=
  if name = "phi" then phi
  else if name = "copy" then copy
  else if name = "undef" then undef
  else if name = "sel" then sel
  else if name = "br" then br
  else if name = "brc" then brc
  else if name = "ret" then ret
  else if name = "switch" then switch
  else if name = "dbg" then dbg
  else other name

def isBranch : Op → Bool
  | br | brc => true
  | _ => false

def isTerminator : Op → Bool
  | br | brc | ret | switch => true
  | _ => false

def isDebug : Op → Bool
  | dbg => true
  | _ => false

end Op

/-- What an instruction reads: a register, a constant or a block. A register or a constant also has
a label, the block that it stands for where a block is read. -/
inductive Operand where
  | reg (r : Reg) (label : BlockId := 0)
  | imm (v : Int) (label : BlockId := 0)
  | block (b : BlockId)
  deriving Repr, DecidableEq, Inhabited

namespace Operand

def blockId : Operand → BlockId
  | block b => b
  | reg _ label | imm _ label => label

def block? : Operand → Option BlockId
  | block b => some b
  | reg _ _ | imm _ _ => none

def withBlock (b : BlockId) : Operand → Operand
  | block _ => block b
  | reg r _ => reg r b
  | imm v _ => imm v b

def renameReg (old new : Reg) : Operand → Operand
  | reg r label => if r = old then reg new label else reg r label
  | x => x

/-- Leads to another block in place of `old`. Only a block operand leads anywhere. -/
def renameBlock (old new : BlockId) : Operand → Operand
  | block b => if b = old then block new else block b
  | x => x

def renameLabel (old new : BlockId) (x : Operand) : Operand :=
  if x.blockId = old then x.withBlock new else x

end Operand

/-- A machine instruction. `cond` decides a conditional branch or a select, `guard` decides
whether the instruction takes effect, and `implicits` are the registers whose former value is read
because the instruction may leave them unchanged. -/
structure Inst where
  op : Op
  defs : List Reg := []
  uses : List Operand := []
  cond : Condition := []
  guard : Condition := []
  implicits : List Reg := []
  deriving Repr, DecidableEq, Inhabited

namespace Inst

def isGuarded (i : Inst) : Bool := !i.guard.isEmpty

def endsFlow (i : Inst) : Bool :=
  !i.isGuarded &&
    match i.op with
    | .br | .ret | .switch => true
    | _ => false

/-- The blocks that the instruction may lead to. A phi leads nowhere. -/
def targets (i : Inst) : List BlockId :=
  match i.op with
  | .phi => []
  | _ => i.uses.filterMap Operand.block?

def jump (b : BlockId) : Inst := { op := .br, uses := [.block b] }

def branch (c : Condition) (b : BlockId) : Inst := { op := .brc, cond := c, uses := [.block b] }

/-- Reads `new` wherever the instruction read `old`. Definitions stay. -/
def renameReads (old new : Reg) (i : Inst) : Inst :=
  { i with
    uses := i.uses.map (Operand.renameReg old new)
    cond := i.cond.map (Term.rename old new)
    guard := i.guard.map (Term.rename old new)
    implicits := i.implicits.map (fun r => if r = old then new else r) }

/-- Leads to `new` wherever the instruction led to `old`. A phi is left alone. -/
def retarget (old new : BlockId) (i : Inst) : Inst :=
  match i.op with
  | .phi => i
  | _ => { i with uses := i.uses.map (Operand.renameBlock old new) }

end Inst

/-- An input of a phi: a value and the operand that names the block it comes from. -/
structure PhiInput where
  value : Operand
  label : Operand
  deriving Repr, DecidableEq, Inhabited

def PhiInput.source (x : PhiInput) : BlockId := x.label.blockId

/-- Reads uses in pairs. A use left over at the end is no input. -/
def PhiInput.ofUses : List Operand → List PhiInput
  | v :: b :: rest => ⟨v, b⟩ :: ofUses rest
  | [_] | [] => []

def PhiInput.toUses (xs : List PhiInput) : List Operand :=
  xs.flatMap (fun x => [x.value, x.label])

namespace Inst

def phiInputs (i : Inst) : List PhiInput := PhiInput.ofUses i.uses

def phiValue? (i : Inst) (b : BlockId) : Option Operand :=
  (i.phiInputs.find? (fun x => decide (x.source = b))).map PhiInput.value

def dropPhiInputs (b : BlockId) (i : Inst) : Inst :=
  { i with uses := PhiInput.toUses (i.phiInputs.filter (fun x => decide (x.source ≠ b))) }

def addPhiInput (v : Operand) (b : BlockId) (i : Inst) : Inst :=
  { i with uses := i.uses ++ [v, .block b] }

end Inst

end Predication
