import Predication.Machine.Target
import Predication.Procedure.Edit

/-!
A generic machine with predicated execution, described by a table of operations and a few costs. An
operation that is not in the table takes one cycle and can be guarded.
-/

set_option autoImplicit false
set_option relaxedAutoImplicit false

namespace Predication

/-- How a machine executes an operation. `state` names the registers that it sets beside its
definitions. -/
structure OpProfile where
  latency : Cycles := 0
  guardCost : Cycles := 0
  setsPredicate : Bool := false
  unguardable : Bool := false
  unique : Bool := false
  state : List String := []
  deriving Repr, DecidableEq, Inhabited

/-- A machine with predicated execution. -/
structure Datapath where
  name : String
  branchCost : Float
  mispredictPenalty : Float
  copyLimit : Int
  ops : List (Op × OpProfile)

namespace Datapath

/-- The machine that is assumed where none is described. -/
def standard : Datapath :=
  { name := "default"
    branchCost := 2
    mispredictPenalty := 10
    copyLimit := 4
    ops :=
      [(.phi, { unguardable := true }),
       (.switch, { unguardable := true }),
       (.copy, { unguardable := true }),
       (.undef, { unguardable := true }),
       (.other "cmp", { setsPredicate := true }),
       (.other "mul", { latency := 3 }),
       (.other "div", { latency := 8, guardCost := 1 }),
       (.other "load", { latency := 2, guardCost := 1 }),
       (.other "store", { guardCost := 1 }),
       (.other "call", { unguardable := true, unique := true })] }

def setOp (d : Datapath) (op : Op) (profile : OpProfile) : Datapath :=
  { d with ops := d.ops.filter (fun e => decide (e.1 ≠ op)) ++ [(op, profile)] }

/-- The profile of an operation. No operation takes less than a cycle. -/
def profile (d : Datapath) (op : Op) : OpProfile :=
  let p := (d.ops.lookup op).getD {}
  if p.latency = 0 then { p with latency := 1 } else p

def terminal (f : Procedure) : List InstId → Except Fault (List InstId)
  | [] => .ok []
  | i :: rest => do
    if (← f.inst i).op.isTerminator then return i :: rest else terminal f rest

/-- The instructions of the end of a block, debug markers apart, if all of them are terminators that
are not guarded. -/
def terminators? (f : Procedure) : List InstId → Except Fault (Option (List Inst))
  | [] => .ok (some [])
  | i :: rest => do
    let x ← f.inst i
    if x.op.isDebug then
      terminators? f rest
    else if !x.op.isTerminator || x.isGuarded then
      return none
    else
      return (← terminators? f rest).map (x :: ·)

def branchTarget? (i : Inst) : Option BlockId :=
  (i.uses.findSome? Operand.block?).bind BlockId.named?

/-- The branch that a list of terminators makes. -/
def branchOf? : List Inst → Option Branch
  | [] => some {}
  | [x] =>
    match x.op with
    | .br => some { taken := branchTarget? x }
    | .brc => some { taken := branchTarget? x, cond := x.cond }
    | _ => none
  | [x, y] =>
    if x.op = .brc ∧ y.op = .br then
      some { taken := branchTarget? x, other := branchTarget? y, cond := x.cond }
    else
      none
  | _ => none

def analyzeBranch (f : Procedure) (b : BlockId) : Except Fault (Option Branch) := do
  return (← terminators? f (← terminal f (← f.code b))).bind branchOf?

/-- Erases the last instruction of a block if it is not guarded and has one of the given
operations. -/
def dropLast? (f : Procedure) (b : BlockId) (ops : List Op) :
    Except Fault (Option Procedure) := do
  let code ← f.code b
  match code.getLast? with
  | none => return none
  | some i =>
    let x ← f.inst i
    if x.isGuarded || decide (x.op ∉ ops) then
      return none
    else
      return some (← f.eraseCode b (code.length - 1) code.length)

def removeBranch (f : Procedure) (b : BlockId) : Except Fault (Procedure × Nat) := do
  match ← dropLast? f b [.br, .brc] with
  | none => return (f, 0)
  | some f =>
    match ← dropLast? f b [.brc] with
    | none => return (f, 1)
    | some f => return (f, 2)

/-- Ends a block in a jump, or in a conditional branch that a jump may follow. -/
def insertBranch (f : Procedure) (b : BlockId) (br : Branch) :
    Except Fault (Procedure × Nat) := do
  let taken := BlockId.ofOption br.taken
  if br.cond.isEmpty then
    return ((← f.append b (.jump taken)).1, 1)
  else
    let (f, _) ← f.append b (.branch br.cond taken)
    match br.other with
    | none => return (f, 1)
    | some other => return ((← f.append b (.jump other)).1, 2)

variable (d : Datapath)

def isGuardable (i : Inst) : Bool := !(d.profile i.op).unguardable

def guard? (i : Inst) (c : Condition) : Option Inst :=
  if d.isGuardable i && !c.isEmpty then some { i with guard := i.guard.conj c } else none

def branchCostAt (confidence : Float) : Float :=
  d.branchCost + (1 - confidence) * d.mispredictPenalty

def paysToGuard (cycles extra : Cycles) (prediction confidence : Float) : Bool :=
  decide (0 < cycles) &&
    decide ((cycles + extra).toFloat ≤ prediction * cycles.toFloat + d.branchCostAt confidence)

def paysToGuardPair (cycles extra cycles' extra' : Cycles) (prediction confidence : Float) : Bool :=
  decide (0 < cycles) && decide (0 < cycles') &&
    decide ((cycles + extra + cycles' + extra').toFloat ≤
      prediction * cycles.toFloat + (1 - prediction) * cycles'.toFloat + d.branchCostAt confidence)

def paysToCopy (size : Int) : Bool := decide (0 < size ∧ size ≤ d.copyLimit)

/-- The registers that an instruction sets beside its definitions, as far as the procedure has
them. -/
def redefines (f : Procedure) (i : Inst) : List Reg :=
  (d.profile i.op).state.filterMap f.lookupReg?

/-- The machine as the converter sees it. -/
def target : Target :=
  { analyzeBranch := analyzeBranch
    removeBranch := removeBranch
    insertBranch := insertBranch
    reverse? := Condition.reverse?
    isGuarded := Inst.isGuarded
    isGuardable := d.isGuardable
    guard? := d.guard?
    isUnique := fun i => (d.profile i.op).unique
    subsumes := Condition.subsumes
    setsPredicate := fun i => (d.profile i.op).setsPredicate
    latency := fun i => ((d.profile i.op).latency, (d.profile i.op).guardCost)
    paysToGuard := d.paysToGuard
    paysToGuardPair := d.paysToGuardPair
    paysToCopy := fun size _ _ => d.paysToCopy size
    redefines := d.redefines }

end Datapath

end Predication
