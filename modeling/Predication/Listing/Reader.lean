import Predication.Listing.Buffer
import Predication.Listing.Scan
import Predication.Procedure.Edges

/-!
The reader of listings. A listing is read line by line: a `func` line opens a procedure, a label
opens a block, and any other line is an instruction or the live-in list of the open block. Registers
and blocks are numbered in the order in which they are first named. A procedure is finished by the
next `func` line or by the end of its file; all labels must be defined by then.
-/

set_option autoImplicit false
set_option relaxedAutoImplicit false

namespace Predication.Listing

/-- A file of a listing. -/
structure Source where
  name : String := ""
  bytes : List UInt8
  deriving Repr, DecidableEq

/-- A procedure that is being read. `defined` and `mentioned` have an entry for each block: whether
its label was seen, and the line that named it first. -/
structure Draft where
  procedure : Procedure
  defined : Array Bool := #[]
  mentioned : Array Nat := #[]
  current : Option Nat := none
  deriving Repr, DecidableEq

namespace Draft

def register (name : String) : StateM Draft Reg := do
  let d ← get
  match d.procedure.lookupReg? name with
  | some r => return r
  | none =>
    let (f, r) := d.procedure.newReg name
    set { d with procedure := f }
    return r

/-- The number of a block, which is new if the name is. -/
def block (line : Nat) (name : String) : StateM Draft Nat := do
  let d ← get
  match d.procedure.blocks.findIdx? (fun b => decide (b.name = name)) with
  | some b => return b
  | none =>
    set { d with
      procedure := (d.procedure.newBlock name).1
      defined := d.defined.push false
      mentioned := d.mentioned.push line }
    return d.procedure.blocks.size

def term (t : NamedTerm) : StateM Draft Term := do
  return { reg := ← register t.reg, negated := t.negated }

def operand (line : Nat) : NamedOperand → StateM Draft Operand
  | .reg name => do return .reg (← register name)
  | .imm v => return .imm v
  | .block name => do return .block (← block line name)

def inst (line : Nat) (i : NamedInst) : StateM Draft Inst := do
  let guard ← i.guard.mapM term
  let defs ← i.defs.mapM register
  let cond ← i.cond.mapM term
  let uses ← i.uses.mapM (operand line)
  let implicits ← i.implicits.mapM register
  return { op := i.op, defs, uses, cond, guard, implicits }

def updateBlock (b : Nat) (g : Block → Block) (d : Draft) : Draft :=
  { d with procedure := { d.procedure with blocks := d.procedure.blocks.modify b g } }

def addInst (b : Nat) (i : Inst) (d : Draft) : Draft :=
  let id : InstId := d.procedure.insts.size
  updateBlock b (fun x => { x with code := x.code ++ [id] })
    { d with procedure := { d.procedure with insts := d.procedure.insts.push i } }

def openBlock (b : Nat) (d : Draft) : Draft :=
  { d with
    defined := d.defined.modify b (fun _ => true)
    current := some b
    procedure := { d.procedure with layout := d.procedure.layout ++ [(b : BlockId)] } }

def undefined? (d : Draft) : Option (String × Nat) :=
  ((d.defined.toList.zip (d.procedure.blocks.toList.zip d.mentioned.toList)).find?
    (fun x => !x.1)).map (fun x => (x.2.1.name, x.2.2))

/-- The procedure with its edges. All branch targets are blocks of the draft, so the edges can
always be built. -/
def toProcedure (d : Draft) : Procedure :=
  match d.procedure.buildEdges with
  | .ok f => f
  | .error _ => d.procedure

end Draft

/-- What was read so far: finished procedures and the one that is open. -/
structure Reading where
  finished : Program := []
  draft : Option Draft := none
  deriving Repr, DecidableEq

namespace Reading

/-- A step of the reader. What was finished before a complaint stays finished. -/
abbrev Step := ExceptT Complaint (StateM Reading)

def scan {α : Type} (part : Scan α) (c : Cursor) : Step (α × Cursor) :=
  match part c with
  | .ok r => return r
  | .error e => throw e

def finish : Step Unit := do
  match (← get).draft with
  | none => return ()
  | some d =>
    modify fun r => { r with draft := none }
    match d.undefined? with
    | some (label, line) => throw { cause := .undefinedLabel d.procedure.name label line }
    | none => modify fun r => { r with finished := r.finished ++ [d.toProcedure] }

/-- Opens a procedure, given what follows the word `func`. -/
def header (c : Cursor) : Step Unit := do
  finish
  match c.name? with
  | none => throw { cause := .nameExpected }
  | some (name, c) =>
    if ((← get).finished.procedure? name).isSome then
      throw { cause := .redeclared name }
    else
      modify fun r => { r with draft := some { procedure := { name := name } } }
      discard (scan Scan.lineEnd c)

def labelled (number : Nat) (d : Draft) (name : String) (c : Cursor) : Step Unit := do
  let (b, d) := (Draft.block number name).run d
  if d.defined.getD b false then
    throw { cause := .labelRedefined name }
  else
    modify fun r => { r with draft := some (d.openBlock b) }
    discard (scan Scan.lineEnd c)

/-- Reads a line inside a block. -/
def inBlock (number : Nat) (d : Draft) (b : Nat) (c : Cursor) : Step Unit := do
  match c.keyword? "livein" with
  | some c =>
    let (names, _) ← scan Scan.liveIn c
    let (regs, d) := (names.mapM Draft.register).run d
    let d := d.updateBlock b (fun x => { x with liveIn := x.liveIn ++ regs })
    modify fun r => { r with draft := some d }
  | none =>
    let (named, c) ← scan Scan.instruction c
    let (i, d) := (Draft.inst number named).run d
    modify fun r => { r with draft := some (d.addInst b i) }
    discard (scan Scan.lineEnd c)

/-- Reads a line. -/
def line (number : Nat) (text : List UInt8) : Step Unit := do
  let c := Cursor.start text
  if c.atEnd then
    return ()
  else
    match c.keyword? "func" with
    | some c => header c
    | none =>
      match (← get).draft with
      | none => throw { cause := .headerExpected }
      | some d =>
        match c.label? with
        | some (name, c) => labelled number d name c
        | none =>
          match d.current with
          | none => throw { cause := .outsideBlock }
          | some b => inBlock number d b c

/-- The lines of a text, without their ends. There is no line after the last line feed. -/
def splitLines : List UInt8 → List (List UInt8)
  | [] => []
  | c :: rest =>
    if c = '\n'.toUInt8 then
      [] :: splitLines rest
    else
      match splitLines rest with
      | [] => [[c]]
      | l :: ls => (c :: l) :: ls

def trimEnd (line : List UInt8) : List UInt8 :=
  (line.reverse.dropWhile (· == '\r'.toUInt8)).reverse

abbrev FileStep := ExceptT Error (StateM Reading)

def located (file : String) (line : Option Nat) (step : Step Unit) : FileStep Unit := fun r =>
  match step r with
  | (.ok u, r) => (.ok u, r)
  | (.error e, r) => (.error { file, line, complaint := e }, r)

def lines (file : String) : (number : Nat) → List (List UInt8) → FileStep Unit
  | _, [] => located file none finish
  | number, text :: rest => do
    located file (some number) (line number (trimEnd text))
    lines file (number + 1) rest

def file (source : Source) : FileStep Unit :=
  lines source.name 1 (splitLines source.bytes)

end Reading

/-- Reads files one after the other. The procedures that were finished come back together with the
error that stopped the reader, if one did. -/
def readAll (sources : List Source) : Program × Option Error :=
  match (sources.forM Reading.file).run {} with
  | (.ok _, r) => (r.finished, none)
  | (.error e, r) => (r.finished, some e)

def read (sources : List Source) : Except Error Program :=
  match readAll sources with
  | (program, none) => .ok program
  | (_, some e) => .error e

def buffer (sources : List Source) : Buffer :=
  sources.foldl (fun b s => b.add s.bytes) {}

end Predication.Listing
