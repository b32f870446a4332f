import Predication.Listing.Scan
import Predication.Procedure.Basic

/-!
The writer of listings. Blocks are written in layout order, each with its label, its live-in list
and its instructions, one to a line. What is written reads back as the same procedure, up to the
numbers of registers, blocks and instructions.
-/

set_option autoImplicit false
set_option relaxedAutoImplicit false

namespace Predication.Listing

/-- Why an instruction has no line of its own. -/
inductive Unwritable where
  | oddPhi
  | conditionMissing (op : Op)
  deriving Repr, DecidableEq

def Unwritable.message : Unwritable → String
  | oddPhi => "malformed phi"
  | conditionMissing op => op.mnemonic ++ " without condition"

/-- Why something has no listing. -/
inductive WriteError where
  | deadBlock (block : String)
  | badInst (block : String) (reason : Unwritable)
  | inProcedure (name : String) (e : WriteError)
  | unsupported (type : String)
  deriving Repr, DecidableEq

def WriteError.message : WriteError → String
  | deadBlock block => "removed block " ++ block ++ " in layout"
  | badInst block reason => "block " ++ block ++ ": " ++ reason.message
  | inProcedure name e => "func " ++ name ++ ": " ++ e.message
  | unsupported type => "unsupported type: " ++ type

def registerText (name : String) : String := "%" ++ name

def NamedTerm.text (t : NamedTerm) : String :=
  (if t.negated then "!" else "") ++ registerText t.reg

def termsText (ts : List NamedTerm) : String := ", ".intercalate (ts.map NamedTerm.text)

/-- Spells a condition: a single term bare, a conjunction in parentheses. -/
def conditionText : List NamedTerm → String
  | [t] => t.text
  | ts => "(" ++ termsText ts ++ ")"

def NamedOperand.text : NamedOperand → String
  | reg name => registerText name
  | imm v => toString v
  | block name => name

def inputTexts : List NamedOperand → Except Unwritable (List String)
  | [] => .ok []
  | [_] => .error .oddPhi
  | v :: b :: rest => do
    return (" [" ++ v.text ++ ", " ++ b.text ++ "]") :: (← inputTexts rest)

/-- Spells what follows the name of an operation. -/
def argumentsText (i : NamedInst) : Except Unwritable String :=
  match i.op with
  | .phi => do return ",".intercalate (← inputTexts i.uses)
  | .sel | .brc =>
    if i.cond.isEmpty then
      .error (.conditionMissing i.op)
    else
      .ok (" " ++ conditionText i.cond ++ String.join (i.uses.map (fun u => ", " ++ u.text)))
  | _ => .ok (",".intercalate (i.uses.map (fun u => " " ++ u.text)))

def NamedInst.text (i : NamedInst) : Except Unwritable String := do
  let guard := if i.guard.isEmpty then "" else "(" ++ termsText i.guard ++ ") "
  let defs :=
    if i.defs.isEmpty then "" else ", ".intercalate (i.defs.map registerText) ++ " = "
  let implicits :=
    if i.implicits.isEmpty then ""
    else " implicit(" ++ ", ".intercalate (i.implicits.map registerText) ++ ")"
  return guard ++ defs ++ i.op.mnemonic ++ (← argumentsText i) ++ implicits

def nameTerm (f : Procedure) (t : Term) : NamedTerm :=
  { reg := f.regName t.reg, negated := t.negated }

def nameOperand (f : Procedure) : Operand → NamedOperand
  | .reg r _ => .reg (f.regName r)
  | .imm v _ => .imm v
  | .block b => .block (f.blockName b)

def nameInst (f : Procedure) (i : Inst) : NamedInst :=
  { guard := i.guard.map (nameTerm f)
    defs := i.defs.map f.regName
    op := i.op
    cond := i.cond.map (nameTerm f)
    uses := i.uses.map (nameOperand f)
    implicits := i.implicits.map f.regName }

abbrev Writing := ExceptT WriteError (Except Fault)

def writeInst (f : Procedure) (block : String) (id : InstId) : Writing String := do
  match (nameInst f (← f.inst id)).text with
  | .ok text => return "\t" ++ text ++ "\n"
  | .error reason => throw (.badInst block reason)

/-- Writes a block. -/
def writeBlock (f : Procedure) (b : BlockId) : Writing String := do
  let blk ← f.block b
  if blk.dead then
    throw (.deadBlock blk.name)
  else
    let names := blk.liveIn.map fun r => " " ++ registerText (f.regName r)
    let liveIn := if names.isEmpty then "" else "\tlivein" ++ String.join names ++ "\n"
    let code ← blk.code.mapM (writeInst f blk.name)
    return blk.name ++ ":\n" ++ liveIn ++ String.join code

def writeProcedure (f : Procedure) : Writing String := do
  return "func " ++ f.name ++ "\n" ++ String.join (← f.layout.mapM (writeBlock f))

/-- Writes a procedure of a program; errors name it. -/
def writeMember (f : Procedure) : Writing String :=
  tryCatch (writeProcedure f) (fun e => throw (.inProcedure f.name e))

def writeProgram (p : Program) : Writing String := do
  return "\n".intercalate (← p.mapM writeMember)

/-- What may be handed to the writer. A number has no listing. -/
inductive Subject where
  | program (p : Program)
  | procedure (f : Procedure)
  | number (v : Int)
  deriving Repr, DecidableEq

def write (before : String) (x : Subject) : Except Fault (Except WriteError String) :=
  ExceptT.run do
    match x with
    | .program p => return before ++ (← writeProgram p)
    | .procedure f => return before ++ (← writeProcedure f)
    | .number _ => throw (.unsupported "int")

end Predication.Listing
