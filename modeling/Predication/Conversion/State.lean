import Predication.BitSet
import Predication.Cleanup.Basic
import Predication.Conversion.Candidate
import Predication.Conversion.Config
import Predication.Conversion.Failure
import Predication.Conversion.Summary
import Predication.Heap
import Predication.Listing.Writer

/-!
The state of a conversion: the procedure, the summaries of its blocks, the queue of candidates, the
blocks that were visited and the tally. A step that stops early leaves the state as it was when it stopped.
-/

set_option autoImplicit false
set_option relaxedAutoImplicit false

namespace Predication.Conversion

/-- What the converter reports. Blocks are given by name. -/
inductive Event where
  | cleanup (e : Cleanup.Event)
  | skipped
  | listingBefore (name : String) (text : Except Listing.WriteError String)
  | listingAfter (name : String) (text : Except Listing.WriteError String)
  | head (block : String) (info taken other : Summary)
  | queued (block : String) (queue : Nat)
  | candidates (count : Nat)
  | tried (kind : Kind) (block taken other : String) (ok : Bool)
  | diamond (head tail : String) (shared sharedTail : Int)
  | finished (stats : Stats)

/-- The state of a conversion. -/
structure State where
  procedure : Procedure
  infos : Array Summary
  queue : Heap Candidate := {}
  /-- The blocks that the last analysis came to. -/
  visited : BitSet := {}
  stats : Stats
  log : Array Event

abbrev Convert := ExceptT Stop (StateM State)

namespace Convert

variable {α : Type}

def ofExcept : Except Fault α → Convert α
  | .ok x => pure x
  | .error e => throw (.fault e)

def report (e : Event) : Convert Unit := modify fun s => { s with log := s.log.push e }

def procedure : Convert Procedure := do return (← get).procedure

def query (g : Procedure → Except Fault α) : Convert α := do
  ofExcept (g (← get).procedure)

def edit (g : Procedure → Except Fault Procedure) : Convert Unit := do
  let f ← query g
  modify fun s => { s with procedure := f }

def editWith (g : Procedure → Except Fault (Procedure × α)) : Convert α := do
  let (f, x) ← query g
  modify fun s => { s with procedure := f }
  return x

def info (b : BlockId) : Convert Summary := do
  ofExcept (Arena.get (← get).infos b)

def infoOf (b : Option BlockId) : Convert Summary := info (BlockId.ofOption b)

def setInfo (b : BlockId) (g : Summary → Summary) : Convert Unit := do
  let infos ← ofExcept (Arena.update (← get).infos b g)
  modify fun s => { s with infos := infos }

def visit (b : BlockId) : Convert Bool := do
  let (visited, new) ← ofExcept ((← get).visited.insertNew b)
  modify fun s => { s with visited := visited }
  return new

def tally (g : Stats → Stats) : Convert Unit := modify fun s => { s with stats := g s.stats }

def breach (b : Option BlockId) (i : Option InstId) (reason : Reason) : Convert α := do
  let f ← procedure
  let inst ← match i with
    | some id => do pure (some (id, (← query (·.inst id)).op))
    | none => pure none
  throw (.failure (.broken
    { procedure := f.name, block := b.map f.blockName, inst := inst, reason := reason }))

def predCount (b : BlockId) : Convert Nat := do return (← query (·.preds b)).length

end Convert

end Predication.Conversion
