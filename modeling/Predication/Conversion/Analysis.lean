import Predication.Conversion.Shape
import Predication.Conversion.State

/-!
The analysis of a procedure. Blocks are visited against the edges from the blocks where control
ends. Before a block that ends in a two way branch is classified, both of its arms are analyzed; a
block that is met again while its own arms are being analyzed is not analyzed a second time.
-/

set_option autoImplicit false
set_option relaxedAutoImplicit false

namespace Predication.Conversion

/-- What the converter works with. -/
structure Setting where
  config : Config
  target : Target
  loops : Option LoopTable

variable (s : Setting)

def enqueue (c : Candidate) : Convert Unit := do
  if s.config.disabled.contains c.kind then
    return ()
  else
    modify fun st => { st with queue := st.queue.push (Candidate.before s.config.priority) c }
    Convert.setInfo c.block fun i => { i with queued := true }

/-- Queues a diamond at `head`. -/
def queueDiamond (head taken other : Summary) (reverse : Condition) (e : Estimate) :
    Convert Unit := do
  match ← Convert.query (diamond? · taken other) with
  | some (n, m) =>
    if paysPair s.target taken other (n + m) e && feasible s.target taken head.cond &&
        feasible s.target other reverse then
      enqueue s
        { block := head.block, kind := .diamond
          guarded := !taken.guard.isEmpty || !other.guard.isEmpty
          shared := n, sharedTail := m }
  | none => return ()

/-- Queues a triangle at `head` with the given arm. -/
def queueTriangle (head : Summary) (arm : Arm) (info join : Summary) (c : Condition)
    (reversed : Bool) (e : Estimate) : Convert Unit := do
  match ← Convert.query (triangle? s.target · info join.block reversed e) with
  | some n =>
    if pays s.target info e && feasibleTriangle s.target info c reversed then
      enqueue s
        { block := head.block, kind := .triangle arm reversed
          guarded := !info.guard.isEmpty, shared := n }
  | none => return ()

def queueSimple (head : Summary) (arm : Arm) (info : Summary) (c : Condition) (e : Estimate) :
    Convert Unit := do
  match ← Convert.query (simple? s.target · info e) with
  | some n =>
    if pays s.target info e && feasible s.target info c then
      enqueue s
        { block := head.block, kind := .simple arm, guarded := !info.guard.isEmpty, shared := n }
  | none => return ()

def queueArm (head : Summary) (arm : Arm) (info join : Summary) (c : Condition) (e : Estimate) :
    Convert Unit := do
  queueTriangle s head arm info join c false e
  queueTriangle s head arm info join c true e
  queueSimple s head arm info c e

/-- Queues every conversion that the branch at the end of `head` allows. -/
def classify (b : BlockId) : Convert Unit := do
  let head ← Convert.info b
  let taken ← Convert.infoOf head.taken
  let other ← Convert.infoOf head.other
  if taken.done && other.done then
    return ()
  else
    let name := (← Convert.procedure).blockName b
    Convert.report (.head name head taken other)
    let reverse? := s.target.reverse? head.cond
    let e ← Convert.ofExcept (Estimate.predict s.loops b taken.block other.block)
    if let some reverse := reverse? then
      queueDiamond s head taken other reverse e
    queueArm s head .taken taken other head.cond e
    if let some reverse := reverse? then
      queueArm s head .other other taken reverse e.not
    if (← Convert.info b).queued then
      Convert.report (.queued name (← get).queue.size)

/-- A block on the way of the analysis, and whether its arms are analyzed. -/
structure Pending where
  block : BlockId
  armsDone : Bool := false
  deriving Repr, DecidableEq

/-- Works off a stack of blocks. -/
def analyzeStack : (fuel : Nat) → List Pending → Convert Unit
  | _, [] => return ()
  | 0, _ :: _ => throw .unsettled
  | fuel + 1, p :: stack => do
    let i ← Convert.info p.block
    if p.armsDone then
      classify s p.block
      Convert.setInfo p.block fun i => { i with visit := .analyzed }
      analyzeStack fuel stack
    else if i.visit ≠ .unvisited then
      analyzeStack fuel stack
    else
      let i ← Convert.query fun f => ({ i with visit := .analyzing } : Summary).scan s.target f
      if i.isHead then
        Convert.setInfo p.block fun _ => i
        analyzeStack fuel
          ({ block := BlockId.ofOption i.taken } :: { block := BlockId.ofOption i.other } ::
            { block := p.block, armsDone := true } :: stack)
      else
        Convert.setInfo p.block fun _ => { i with visit := .analyzed }
        analyzeStack fuel stack

/-- Analyzes a block, and before it the arms it depends on. A block adds to the stack once, and
every entry of the stack is looked at twice at most. -/
def analyzeBlock (b : BlockId) : Convert Unit := do
  analyzeStack s (4 * (← get).infos.size + 4) [{ block := b }]

def pushNew (stack : List BlockId) (b : BlockId) : Convert (List BlockId) := do
  if ← Convert.visit b then return b :: stack else return stack

def analyzeBack : (fuel : Nat) → List BlockId → Convert Unit
  | _, [] => return ()
  | 0, _ :: _ => throw .unsettled
  | fuel + 1, b :: stack => do
    analyzeBlock s b
    let preds ← Convert.query (·.preds b)
    analyzeBack fuel (← preds.reverse.foldlM pushNew stack)

/-- Analyzes the given blocks where control ends, and all that lead to them. -/
def analyzeRoots : List BlockId → Convert Unit
  | [] => return ()
  | root :: rest => do
    if (← Convert.query (·.succs root)).isEmpty then
      if ← Convert.visit root then
        analyzeBack s ((← get).infos.size + 1) [root]
        analyzeRoots rest
      else
        analyzeRoots rest
    else
      analyzeRoots rest

def analyze : Convert Unit := do
  modify fun st => { st with visited := st.visited.reset }
  analyzeRoots s (← Convert.procedure).layout

end Predication.Conversion
