import Predication.Cleanup.Rounds
import Predication.Conversion.Analysis
import Predication.Conversion.Arms

/-!
The converter. Each procedure is converted in rounds: a round analyzes the procedure, queues
candidates and makes those that still fit, best first. Rounds go on until one makes no conversion.
-/

set_option autoImplicit false
set_option relaxedAutoImplicit false

namespace Predication

namespace Conversion

variable (s : Setting)

def ensureValid (failure : Defect → Failure) : Convert Unit := do
  match ← Convert.query (·.verify) with
  | .ok _ => return ()
  | .error d => throw (.failure (failure d))

/-- Takes a candidate off the queue: its block is marked as no longer queued. Tells whether the
candidate is still wanted. -/
def dequeue (c : Candidate) : Convert Bool := do
  let i ← Convert.info c.block
  Convert.setInfo c.block fun i => { i with queued := false }
  return i.queued && !i.done

/-- Tries the candidates in order until the limit is reached, and tells whether any was made. -/
def tryAll : List Candidate → (changed : Bool) → Convert Bool
  | [], changed => return changed
  | c :: rest, changed => do
    if ← dequeue c then
      let ok ← convert s.target c
      let i ← Convert.info c.block
      let f ← Convert.procedure
      Convert.report (.tried c.kind (f.blockName c.block) (f.blockName? i.taken)
        (f.blockName? i.other) ok)
      if ok then
        Convert.tally fun st => { st with made := c.kind :: st.made }
        if s.config.verify then
          ensureValid (.invalidAfter c.kind ((← Convert.procedure).blockName c.block))
        if (← get).stats.isUnder s.config.limit then tryAll rest true else return true
      else
        tryAll rest changed
    else
      tryAll rest changed

def round : Convert Bool := do
  analyze s
  Convert.report (.candidates (← get).queue.size)
  let found := (← get).queue.drain (Candidate.before s.config.priority)
  let changed ← tryAll s found false
  modify fun st => { st with queue := {} }
  return changed

def rounds : (fuel : Nat) → (changed : Bool) → Convert Bool
  | 0, _ => throw .unsettled
  | fuel + 1, changed => do
    if (← get).stats.isUnder s.config.limit then
      if ← round s then rounds fuel true else return changed
    else
      return changed

def cleanUp : Convert Bool := do
  let (result, events) := (Cleanup.run (← Convert.procedure)).events
  modify fun st => { st with log := st.log ++ events.map Event.cleanup }
  let (f, changed) ← Convert.ofExcept result
  modify fun st => { st with procedure := f }
  return changed

def reportListing (wanted : Bool) (event : String → Except Listing.WriteError String → Event) :
    Convert Unit := do
  if wanted then
    let f ← Convert.procedure
    Convert.report (event f.name (← Convert.query fun f => Listing.write "" (.procedure f)))

def blankInfos (f : Procedure) : Array Summary :=
  (Array.range f.blocks.size).map fun (b : Nat) => { block := (b : BlockId) }

/-- The tables that a converter uses for one procedure after the other. -/
structure Tables where
  infos : Array Summary := #[]
  queue : Heap Candidate := {}
  visited : BitSet := {}

def takeUp (t : Tables) : Convert Unit :=
  modify fun st => { st with infos := t.infos, queue := t.queue, visited := t.visited }

/-- Makes the tables ready for the procedure. The visited blocks are left to the analysis. -/
def reset : Convert Unit :=
  modify fun st => { st with infos := blankInfos st.procedure, queue := {} }

end Conversion

/-- A converter between procedures: its settings, its tally, the number of the next procedure, and
the tables that it uses again.
-/
structure Pass where
  config : Config
  target : Target
  stats : Stats := {}
  number : Nat := 0
  /-- Report the listing of each procedure before and after. -/
  listings : Bool := false
  /-- The tables as the last procedure left them. -/
  tables : Conversion.Tables := {}

namespace Pass

open Conversion

/-- How the converter gets to know about loops. -/
inductive LoopSource where
  /-- It is told. -/
  | given (table : Option LoopTable)
  /-- It finds the loops itself, after the first cleanup. -/
  | found
  deriving Repr, DecidableEq

def LoopSource.table (source : LoopSource) (f : Procedure) : Except Fault (Option LoopTable) :=
  match source with
  | given table => .ok table
  | found => do return some (← LoopForest.find f).table

/-- Converts the procedure of the state and tells whether it changed. There are no more rounds than
blocks, since each of them is done with a block. -/
def convertState (p : Pass) (source : LoopSource) : Convert Bool := do
  takeUp p.tables
  let cleaned ← if p.config.cleanBefore then cleanUp else pure false
  let loops ← Convert.query source.table
  reset
  let s : Setting := { config := p.config, target := p.target, loops := loops }
  reportListing p.listings .listingBefore
  let made ← rounds s ((← Convert.procedure).blocks.size + 2) false
  if made && p.config.cleanAfter then
    let _ ← cleanUp
  reportListing p.listings .listingAfter
  if p.config.verify then
    ensureValid .invalid
  return cleaned || made

/-- What became of a procedure. -/
structure Outcome where
  pass : Pass
  procedure : Procedure
  changed : Bool
  failure : Option Failure := none

/-- The converter after a conversion, for the next procedure. The summaries and the queue are cleared,
and the visited blocks stay. -/
def after (p : Pass) (st : State) : Pass :=
  { p with number := p.number + 1, stats := st.stats, tables := { visited := st.visited } }

/-- Converts a procedure. A failure counts as a change, since the procedure may be half converted.
-/
def runProcedure (p : Pass) (source : LoopSource) (f : Procedure) : Traced Event Outcome := do
  if p.config.covers p.number then
    let start : State := { procedure := f, infos := #[], stats := p.stats, log := ← get }
    let (result, st) := (p.convertState source).run start
    set st.log
    match result with
    | .ok changed => return { pass := p.after st, procedure := st.procedure, changed }
    | .error (.failure e) =>
      return { pass := p.after st, procedure := st.procedure, changed := true, failure := some e }
    | .error (.fault e) => throw e
    | .error .unsettled => throw .unsettled
  else
    Traced.report .skipped
    return { pass := { p with number := p.number + 1 }, procedure := f, changed := false }

/-- What became of a program. A failure comes with the name of its procedure. -/
structure ProgramOutcome where
  pass : Pass
  program : Program
  changed : Bool
  failure : Option (String × Failure) := none

/-- Converts procedures one after the other, up to the first failure. `done` holds those that were
converted before, in reverse. -/
def runFrom (p : Pass) (changed : Bool) (done : List Procedure) :
    List Procedure → Traced Event ProgramOutcome
  | [] => do
    Traced.report (.finished p.stats)
    return { pass := p, program := done.reverse, changed }
  | f :: rest => do
    let out ← p.runProcedure .found f
    match out.failure with
    | none => runFrom out.pass (changed || out.changed) (out.procedure :: done) rest
    | some e =>
      return { pass := out.pass, program := done.reverse ++ out.procedure :: rest, changed
               failure := some (f.name, e) }

def run (p : Pass) (program : Program) : Traced Event ProgramOutcome :=
  p.runFrom false [] program

end Pass

end Predication
