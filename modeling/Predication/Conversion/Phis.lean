import Predication.Conversion.State
import Predication.Procedure.Edit

/-!
Phis during a conversion. Where two blocks become one, a phi that told them apart gets a single
value: a select on the condition that told which of the two control came through.
-/

set_option autoImplicit false
set_option relaxedAutoImplicit false

namespace Predication.Conversion

def bodyLength (f : Procedure) : List InstId → Except Fault Nat
  | [] => .ok 0
  | i :: before => do
    let x ← f.inst i
    if x.op.isTerminator || x.op.isDebug then bodyLength f before else return before.length + 1

/-- Adds a register to `b` that is `x` where the condition holds and `y` elsewhere. It is computed
before the terminators of the block. -/
def addSelect (b : BlockId) (c : Condition) (x y : Operand) : Convert Reg := do
  let r ← Convert.editWith fun f => .ok (f.newReg "")
  let pos ← Convert.query fun f => do bodyLength f (← f.code b).reverse
  Convert.edit fun f => do
    return (← f.insert b pos { op := .sel, defs := [r], uses := [x, y], cond := c }).1
  return r

def inputPosition? (b : BlockId) (i : Inst) : Option Nat :=
  (i.phiInputs.findIdx? fun x => decide (x.source = b)).map (2 * ·)

/-- Lets the phi take from `dest` the value it takes from `source` where the condition holds. -/
def extendPhi (dest source : BlockId) (c : Condition) (id : InstId) : Convert Unit := do
  let i ← Convert.query (·.inst id)
  match i.phiValue? source with
  | none => return ()
  | some v =>
    match inputPosition? dest i, i.phiValue? dest with
    | some n, some w =>
      if w = v then
        return ()
      else
        let r ← addSelect dest c v w
        Convert.edit (·.updateInst id fun i => { i with uses := i.uses.set n (.reg r) })
    | _, _ => Convert.edit (·.updateInst id (Inst.addPhiInput v dest))

/-- Lets the phis of `s` take from `dest` the values they take from `source` where the condition
holds. -/
def extendPhis (s dest source : BlockId) (c : Condition) : Convert Unit := do
  (← Convert.query (·.phis s)).forM (extendPhi dest source c)

/-- Replaces a phi by its only value: a register is read in its place, and anything else is
copied. -/
def replacePhi (b : BlockId) (id : InstId) (v : Operand) : Convert Unit := do
  let i ← Convert.query (·.inst id)
  match i.defs with
  | [d] =>
    let code ← Convert.query (·.code b)
    if id ∈ code then
      Convert.edit (·.updateBlock b fun x => { x with code := x.code.erase id })
    else
      throw (.fault .outOfRange)
    match v with
    | .reg r _ => Convert.edit fun f => .ok (f.replaceReg d r)
    | _ =>
      Convert.edit (·.updateInst id fun i => { i with op := .copy, uses := [v] })
      Convert.edit fun f => do f.placeAt b (← f.phis b).length id
  | defs => Convert.breach (some b) (some id) (.phiDefs defs.length)

/-- The value that a block brings to a phi; of several the last. -/
def lastValue? (b : BlockId) (inputs : List PhiInput) : Option Operand :=
  ((inputs.filter fun x => decide (x.source = b)).getLast?).map PhiInput.value

/-- Makes one input of those that come from `dest` and `source`. Where they differ, the condition
tells that control came through `source`. -/
def joinPhi (s dest source : BlockId) (c : Condition) (id : InstId) : Convert Unit := do
  let inputs := (← Convert.query (·.inst id)).phiInputs
  let v? := lastValue? source inputs
  let w? := if dest = source then none else lastValue? dest inputs
  Convert.edit (·.updateInst id fun i =>
    { i with
      uses := PhiInput.toUses (inputs.filter fun x =>
        decide (x.source ≠ source) && decide (x.source ≠ dest)) })
  let joined ← match v?, w? with
    | none, none => pure none
    | some v, none => pure (some v)
    | none, some w => pure (some w)
    | some v, some w =>
      if v = w then
        pure (some w)
      else if c.isEmpty then do
        let f ← Convert.procedure
        Convert.breach (some s) (some id)
          (.joinWithoutCondition (f.blockName source) (f.blockName dest))
      else do
        pure (some (.reg (← addSelect dest c v w)))
  match joined with
  | none => return ()
  | some v =>
    if (← Convert.query (·.inst id)).uses.isEmpty then
      replacePhi s id v
    else
      Convert.edit (·.updateInst id (Inst.addPhiInput v dest))

def joinPhis (s dest source : BlockId) (c : Condition) : Convert Unit := do
  (← Convert.query (·.phis s)).forM (joinPhi s dest source c)

def evens : List Operand → List Operand
  | w :: _ :: rest => w :: evens rest
  | [w] => [w]
  | [] => []

/-- Replaces a phi whose inputs all have the same value. -/
def collapsePhi (b : BlockId) (id : InstId) : Convert Unit := do
  let i ← Convert.query (·.inst id)
  match i.uses with
  | v :: _ :: rest =>
    if (evens rest).all fun w => decide (w = v) then
      replacePhi b id v
    else
      Convert.breach (some b) (some id) .severalValues
  | _ => Convert.breach (some b) (some id) .emptyPhi

def collapsePhis (b : BlockId) : Convert Unit := do
  (← Convert.query (·.phis b)).forM (collapsePhi b)

end Predication.Conversion
