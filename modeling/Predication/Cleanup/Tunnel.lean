import Predication.Cleanup.Basic

/-!
Tunnelling: a branch to a block that only branches further is led straight to where that block
branches. The phis at the end of the tunnel must be able to tell the value they took from the block
that is left out.
-/

set_option autoImplicit false
set_option relaxedAutoImplicit false

namespace Predication.Cleanup

/-- The target of code that is a single jump, debug markers apart. `found` is the jump that was
seen. -/
def onlyJumpFrom? (f : Procedure) :
    (found : Option BlockId) → List InstId → Except Fault (Option BlockId)
  | found, [] => .ok found
  | found, i :: rest => do
    let x ← f.inst i
    if x.op.isDebug then
      onlyJumpFrom? f found rest
    else if found.isSome || !isJump x then
      return none
    else
      onlyJumpFrom? f (BlockId.named? (← firstTarget x)) rest

def onlyJump? (f : Procedure) (b : BlockId) : Except Fault (Option BlockId) := do
  onlyJumpFrom? f none (← f.code b)

def fallsInto (f : Procedure) (p t : BlockId) : Except Fault Bool :=
  if f.next? p = some t then mayFallThrough f p else .ok false

def phisAgree (f : Procedure) (x a b : BlockId) : Except Fault Bool := do
  (← f.phis x).allM fun id => do
    let i ← f.inst id
    match i.phiValue? a, i.phiValue? b with
    | some v, some w => return decide (v = w)
    | _, _ => return true

def copyPhiInputs (f : Procedure) (x a b : BlockId) : Except Fault Procedure := do
  (← f.phis x).foldlM
    (fun f id => do
      match (← f.inst id).phiValue? a with
      | some v => f.updateInst id (Inst.addPhiInput v b)
      | none => return f)
    f

def redirect (f : Procedure) (p t x : BlockId) : Except Fault Procedure := do
  let f ← (← f.code p).foldlM (fun f i => f.retarget i t x) f
  let f ← f.removeSucc p t
  if ← f.isSucc p x then
    return f
  else
    copyPhiInputs (← f.addSucc p x) x t p

def canRedirect (f : Procedure) (p t x : BlockId) : Except Fault Bool := do
  if p = t then
    return false
  else if ← fallsInto f p t then
    return false
  else
    phisAgree f x t p

/-- Leads the branches of the given predecessors of `t` on to `x`. -/
def tunnelFrom (t x : BlockId) : List BlockId → Procedure × Bool → Traced Event (Procedure × Bool)
  | [], state => return state
  | p :: rest, (f, changed) => do
    if ← Traced.ofExcept (canRedirect f p t x) then
      let f ← Traced.ofExcept (redirect f p t x)
      Traced.report (.tunnelled (f.blockName p) (f.blockName t) (f.blockName x))
      tunnelFrom t x rest (f, true)
    else
      tunnelFrom t x rest (f, changed)

/-- Leads branches through the given blocks, the entry apart. -/
def tunnelThrough (isEntry : BlockId → Bool) :
    List BlockId → Procedure × Bool → Traced Event (Procedure × Bool)
  | [], state => return state
  | t :: rest, (f, changed) => do
    if isEntry t then
      tunnelThrough isEntry rest (f, changed)
    else
      match ← Traced.ofExcept (onlyJump? f t) with
      | none => tunnelThrough isEntry rest (f, changed)
      | some x =>
        if x = t then
          tunnelThrough isEntry rest (f, changed)
        else
          let state ← tunnelFrom t x (← Traced.ofExcept (f.preds t)) (f, changed)
          tunnelThrough isEntry rest state

def tunnel (f : Procedure) : Traced Event (Procedure × Bool) :=
  tunnelThrough f.isEntry f.layout (f, false)

end Predication.Cleanup
