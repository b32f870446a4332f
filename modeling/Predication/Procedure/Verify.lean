import Predication.Procedure.Edges

/-!
The check that a procedure is a proper control flow graph: every live block stands in the layout
once, the two ends of each edge know of each other, every branch target is a successor, phis come
first in a block and name predecessors only, and dead blocks are unlinked. The first defect in the
order of blocks is reported.
-/

set_option autoImplicit false
set_option relaxedAutoImplicit false

namespace Predication

/-- What is wrong with a procedure. -/
inductive Defect where
  | badLayout (b : BlockId)
  | misnumbered (block : String) (id : BlockId) (index : Nat)
  | stillLinked (block : String)
  | layoutCount (block : String) (times : Nat)
  | repeatedSucc (block succ : String)
  | deadSucc (block succ : String)
  | unansweredSucc (block succ : String)
  | repeatedPred (block pred : String)
  | unansweredPred (block pred : String)
  | badInst (block : String) (id : InstId) (index : Nat)
  | strayTarget (block target : String)
  | latePhi (block : String) (index : Nat)
  | oddPhi (block : String) (index : Nat)
  | strayPhiInput (block source : String)
  deriving Repr, DecidableEq

/-- The text of a defect. -/
def Defect.message : Defect → String
  | badLayout b => "layout: bad block " ++ toString b
  | misnumbered block id index =>
    "block " ++ block ++ ": id " ++ toString id ++ " at index " ++ toString index
  | stillLinked block => "block " ++ block ++ ": removed block is still linked"
  | layoutCount block times =>
    "block " ++ block ++ ": appears " ++ toString times ++ " times in layout"
  | repeatedSucc block succ => "block " ++ block ++ ": duplicate successor " ++ succ
  | deadSucc block succ => "block " ++ block ++ ": successor " ++ succ ++ " is removed"
  | unansweredSucc block succ =>
    "block " ++ block ++ ": successor " ++ succ ++ " doesn't list it as predecessor"
  | repeatedPred block pred => "block " ++ block ++ ": duplicate predecessor " ++ pred
  | unansweredPred block pred =>
    "block " ++ block ++ ": predecessor " ++ pred ++ " doesn't list it as successor"
  | badInst block id index =>
    "block " ++ block ++ ": bad instruction " ++ toString id ++ " at " ++ toString index
  | strayTarget block target =>
    "block " ++ block ++ ": branch target " ++ target ++ " is not a successor"
  | latePhi block index => "block " ++ block ++ ": phi after non-phi at " ++ toString index
  | oddPhi block index => "block " ++ block ++ ": malformed phi at " ++ toString index
  | strayPhiInput block source =>
    "block " ++ block ++ ": phi input from " ++ source ++ " which is not a predecessor"

namespace Procedure

variable (f : Procedure)

abbrev Check := ExceptT Defect (Except Fault) Unit

def require (holds : Bool) (d : Defect) : Check :=
  if holds then pure () else throw d

def checkLayout : Check :=
  f.layout.forM fun b => require (decide (0 ≤ b ∧ b < f.blocks.size)) (.badLayout b)

/-- Successors are distinct and live, and answer with a predecessor entry. `earlier` holds the
successors before the rest. -/
def checkSuccs (blk : Block) : (earlier rest : List BlockId) → Check
  | _, [] => pure ()
  | earlier, s :: rest => do
    require (decide (s ∉ earlier)) (.repeatedSucc blk.name (f.blockName s))
    let succ ← f.block s
    require (!succ.dead) (.deadSucc blk.name (f.blockName s))
    require (decide (blk.id ∈ succ.preds)) (.unansweredSucc blk.name (f.blockName s))
    checkSuccs blk (earlier ++ [s]) rest

/-- Predecessors are distinct and answer with a successor entry. `earlier` holds the predecessors
before the rest. -/
def checkPreds (blk : Block) : (earlier rest : List BlockId) → Check
  | _, [] => pure ()
  | earlier, p :: rest => do
    require (decide (p ∉ earlier)) (.repeatedPred blk.name (f.blockName p))
    let pred ← f.block p
    require (decide (blk.id ∈ pred.succs)) (.unansweredPred blk.name (f.blockName p))
    checkPreds blk (earlier ++ [p]) rest

/-- Instructions are in the arena, branch targets are successors, and phis stand before all else and
name predecessors. `phisOnly` tells whether the code before `index` is made of phis. -/
def checkCode (blk : Block) : (index : Nat) → (phisOnly : Bool) → List InstId → Check
  | _, _, [] => pure ()
  | index, phisOnly, id :: rest => do
    match f.inst id with
    | .error _ => throw (.badInst blk.name id index)
    | .ok i =>
      if i.op = .phi then
        require phisOnly (.latePhi blk.name index)
        require (decide (i.uses.length % 2 = 0)) (.oddPhi blk.name index)
        i.phiInputs.forM fun x =>
          require (decide (x.source ∈ blk.preds)) (.strayPhiInput blk.name (f.blockName x.source))
        checkCode blk (index + 1) phisOnly rest
      else
        i.targets.forM fun t =>
          require (decide (t ∈ blk.succs)) (.strayTarget blk.name (f.blockName t))
        checkCode blk (index + 1) false rest

/-- A block is numbered by its place; a dead one is unlinked, a live one is in order. -/
def checkBlock (index : Nat) (blk : Block) : Check := do
  let times := f.layout.count (index : BlockId)
  require (decide (blk.id = index)) (.misnumbered blk.name blk.id index)
  if blk.dead then
    require (decide (times = 0) && blk.succs.isEmpty && blk.preds.isEmpty && blk.code.isEmpty)
      (.stillLinked blk.name)
  else
    require (decide (times = 1)) (.layoutCount blk.name times)
    f.checkSuccs blk [] blk.succs
    f.checkPreds blk [] blk.preds
    f.checkCode blk 0 true blk.code

def checkBlocks : (index : Nat) → List Block → Check
  | _, [] => pure ()
  | index, blk :: rest => do
    f.checkBlock index blk
    checkBlocks (index + 1) rest

def verify : Except Fault (Except Defect Unit) :=
  ExceptT.run do
    f.checkLayout
    f.checkBlocks 0 f.blocks.toList

end Procedure

end Predication
