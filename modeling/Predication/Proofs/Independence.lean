import Predication.Proofs.Frames
import Predication.Proofs.Limits
import Predication.Proofs.RoundCounts

/-!
Procedures do not influence each other. What a converter has counted and reported so far only lies
under what a conversion adds to it, and the tables that it finds are made ready before they are read.
So without a limit a procedure is converted in the same way by a new converter and by one that was used
for other procedures.
-/

set_option autoImplicit false
set_option relaxedAutoImplicit false

namespace Predication

open Conversion

/-- The tally of two runs, the later one first. -/
def Stats.onTop (later earlier : Stats) : Stats where
  made := later.made ++ earlier.made
  guardedBlocks := later.guardedBlocks + earlier.guardedBlocks
  copiedBlocks := later.copiedBlocks + earlier.copiedBlocks

private theorem Stats.onTop_empty (s : Stats) : ({} : Stats).onTop s = s := by
  simp [Stats.onTop]

/-- What a converter has counted and reported before. -/
structure Past where
  stats : Stats
  log : Array Event

def Past.under (past : Past) (st : State) : State :=
  { st with stats := st.stats.onTop past.stats, log := past.log ++ st.log }

@[grind .] theorem Past.aside (past : Past) : Convert.Aside past.under where
  procedure _ := rfl
  infos _ := rfl
  setProcedure _ _ := rfl
  setInfos _ _ := rfl
  append st events := by
    unfold Past.under
    rw [Array.append_assoc]

def Conversion.Tables.within (t : Tables) (st : State) : State :=
  { st with infos := t.infos, queue := t.queue, visited := t.visited }

namespace Conversion.Convert

section Past

variable (past : Past)

@[grind .] theorem commutes_visit (b : BlockId) : Commutes past.under (visit b) :=
  commutes_read (fun _ => rfl) fun _ =>
    commutes_bind (commutes_ofExcept _) fun r =>
      commutes_bind (commutes_modify fun _ => rfl) fun _ => commutes_pure r.2

private theorem commutes_tally {g : Stats → Stats}
    (h : ∀ s, g (s.onTop past.stats) = (g s).onTop past.stats) : Commutes past.under (tally g) := by
  refine commutes_modify fun st => ?_
  unfold Past.under
  dsimp only
  rw [h]

end Past

end Conversion.Convert

namespace Conversion

open Predication.Conversion.Convert

variable (past : Past) (t : Target) (s : Setting)

section Guarding

private theorem commutes_guarded : Commutes past.under
    (tally fun s => { s with guardedBlocks := s.guardedBlocks + 1 }) :=
  commutes_tally past fun s => by
    unfold Stats.onTop
    rw [Nat.add_right_comm]

private theorem commutes_copied : Commutes past.under
    (tally fun s => { s with copiedBlocks := s.copiedBlocks + 1 }) :=
  commutes_tally past fun s => by
    unfold Stats.onTop
    rw [Nat.add_right_comm]

end Guarding

section Arms

private theorem converting_commutes : Converting t (Commutes past.under) (Commutes past.under)
    (fun _ _ => Commutes past.under) (fun _ _ => Commutes past.under)
    (fun _ => Commutes past.under) where
  toPervasive := pervasive_commutes past.aside
  made := commutes_pure true
  step := commutes_bind
  guarded := commutes_bind ((pervasive_commutes past.aside).guardBlock t _ _ _ (commutes_guarded past) _)
  copied := commutes_bind ((pervasive_commutes past.aside).copyBlock t _ _ _ _ (commutes_copied past) _)
  retired h := commutes_bind ((pervasive_commutes past.aside).retire _) fun _ => h
  looks := composes_commutes past.aside
  revisits := (pervasive_commutes past.aside).revisit
  look := commutes_bind
  agreed := id
  refused := commutes_pure false
  arm {b which _ _} h := by
    refine commutes_bind (commutes_info past.aside b) fun head => ?_
    refine commutes_bind ((composes_commutes past.aside).armsOf head which) fun r => ?_
    obtain ⟨k, same, yes, no⟩ := h head r.1 r.2
    rw [same]
    refine commutes_bind ((composes_commutes past.aside).isUsable r.1) fun usable => ?_
    cases usable with
    | false => exact no
    | true => exact yes
  arms {b _ _} h := by
    refine commutes_bind (commutes_info past.aside b) fun head => ?_
    refine commutes_bind (commutes_infoOf past.aside _) fun taken => ?_
    exact commutes_bind (commutes_infoOf past.aside _) fun other =>
      h head taken other (some taken.block) fun _ => rfl

private theorem commutes_convert (c : Candidate) : Commutes past.under (convert t c) :=
  (converting_commutes past t).convert c

end Arms

section Analysis

@[grind .] theorem commutes_enqueue (c : Candidate) : Commutes past.under (enqueue s c) := by
  unfold enqueue
  split
  · exact commutes_pure ()
  · exact commutes_bind (commutes_modify fun _ => rfl) fun _ => commutes_setInfo past.aside c.block _

private theorem analyzing_commutes : Analyzing s (Commutes past.under) :=
  { composes_commutes past.aside with
    queued := fun _ => commutes_read (fun _ => rfl) fun _ => commutes_report past.aside _
    enqueue := commutes_enqueue past s
    look := fun b => by
      unfold look
      grind
    finished := fun b => commutes_setInfo past.aside b _
    visit := commutes_visit past
    sized := fun h => commutes_read (fun _ => rfl) fun _ => h _
    unsettled := commutes_throw _
    start := commutes_modify fun _ => rfl }

private theorem commutes_analyze : Commutes past.under (analyze s) := (analyzing_commutes past s).analyze

end Analysis

section Rounds

variable {s}

private theorem commutes_offer (c : Candidate) : Commutes past.under (offer s c) := by
  unfold offer dequeue
  have made := commutes_convert past s.target c
  grind

private theorem commutes_approve (c : Candidate) : Commutes past.under (approve s c) := by
  have checked := (composes_commutes past.aside).ensureValid
  unfold approve
  refine commutes_bind (commutes_tally past fun _ => rfl) fun _ => ?_
  grind

private theorem isUnder_of_none (limit : s.config.limit = none) (st : Stats) :
    st.isUnder s.config.limit = true := by
  rw [limit]
  rfl

private theorem commutes_under {α : Type} {m n : Convert α} (limit : s.config.limit = none)
    (h : Commutes past.under m) :
    Commutes past.under (do if (← get).stats.isUnder s.config.limit then m else n) := by
  refine commutes_read (fun st => ?_) fun st => ?_
  · rw [if_pos (isUnder_of_none limit _), if_pos (isUnder_of_none limit _)]
  · rw [if_pos (isUnder_of_none limit _)]
    exact h

private theorem commutes_tryAll (limit : s.config.limit = none) (l : List Candidate) (changed : Bool) :
    Commutes past.under (tryAll s l changed) := by
  induction l generalizing changed with
  | nil => exact commutes_pure changed
  | cons c l ih =>
    rw [tryAll_cons]
    refine commutes_bind (commutes_offer past c) fun made => ?_
    split
    · refine commutes_bind (commutes_approve past c) fun _ => ?_
      exact commutes_under past limit (ih true)
    · exact ih changed

private theorem commutes_round (limit : s.config.limit = none) : Commutes past.under (round s) := by
  unfold round
  refine commutes_bind (commutes_analyze past s) fun _ => ?_
  refine commutes_read (fun _ => rfl) fun st => commutes_bind (commutes_report past.aside _) fun _ => ?_
  refine commutes_read (fun _ => rfl) fun st => ?_
  refine commutes_bind (commutes_tryAll past limit _ false) fun changed => ?_
  exact commutes_bind (commutes_modify fun _ => rfl) fun _ => commutes_pure changed

private theorem commutes_rounds (limit : s.config.limit = none) (fuel : Nat) (changed : Bool) :
    Commutes past.under (rounds s fuel changed) := by
  induction fuel generalizing changed with
  | zero => exact commutes_throw _
  | succ fuel ih =>
    refine commutes_under past limit ?_
    refine commutes_bind (commutes_round past limit) fun again => ?_
    split
    · exact ih true
    · exact commutes_pure changed

end Rounds

end Conversion

namespace Pass

open Predication.Conversion.Convert

variable (p : Pass) (source : LoopSource)

/-- The first cleanup and the loops. -/
def opening : Convert (Bool × Option LoopTable) := do
  let cleaned ← if p.config.cleanBefore then cleanUp else pure false
  let loops ← Convert.query source.table
  return (cleaned, loops)

/-- The work on a procedure once the tables are ready. -/
def work (cleaned : Bool) (loops : Option LoopTable) : Convert Bool := do
  reportListing p.listings .listingBefore
  let f ← Convert.procedure
  let made ← rounds { config := p.config, target := p.target, loops } (f.blocks.size + 2) false
  p.conclude cleaned made

/-- What is done to a procedure whatever tables there are. -/
def body : Convert Bool := do
  let (cleaned, loops) ← p.opening source
  reset
  p.work cleaned loops

private theorem convertState_eq_body :
    p.convertState source = takeUp p.tables >>= fun _ => p.body source := by
  rw [convertState_eq]
  unfold prepare body opening work
  cases p.config.cleanBefore <;> simp

section Past

variable (past : Past)

theorem commutes_conclude {u : State → State} (aside : Aside u) (cleaned made : Bool) :
    Commutes u (p.conclude cleaned made) := by
  have cleans := commutes_cleanUp aside
  have lists := (composes_commutes aside).reportListing p.listings .listingAfter
  have checks := (composes_commutes aside).ensureValid .invalid
  unfold conclude
  grind

private theorem commutes_body (limit : p.config.limit = none) : Commutes past.under (p.body source) := by
  have cleans := commutes_cleanUp past.aside
  have opens : Commutes past.under (p.opening source) := by
    unfold opening
    grind
  refine commutes_bind opens fun r => commutes_bind (commutes_modify fun _ => rfl) fun _ => ?_
  refine commutes_bind ((composes_commutes past.aside).reportListing _ _) fun _ => ?_
  refine commutes_bind (commutes_procedure past.aside) fun f => ?_
  exact commutes_bind (commutes_rounds past limit _ false) fun made => commutes_conclude p past.aside _ made

private theorem commutes_convertState (limit : p.config.limit = none) :
    Commutes past.under (p.convertState source) := by
  rw [convertState_eq_body]
  exact commutes_bind (commutes_modify fun _ => rfl) fun _ => commutes_body p source past limit

end Past

section Tables

abbrev visiting (visited : BitSet) (st : State) : State := { st with visited := visited }

private theorem opening_tables (t : Tables) : Commutes t.within (p.opening source) := by
  have cleans : Commutes t.within cleanUp := by
    have looks : Commutes t.within procedure := fun _ => rfl
    unfold cleanUp
    refine commutes_bind looks fun f => commutes_bind (commutes_modify fun _ => rfl) fun _ => ?_
    refine commutes_bind (commutes_ofExcept _) fun r => ?_
    exact commutes_bind (commutes_modify fun _ => rfl) fun _ => commutes_pure r.2
  have asks : Commutes t.within (Convert.query source.table) :=
    commutes_read (fun _ => rfl) fun _ => commutes_ofExcept _
  unfold opening
  grind

private theorem round_visiting (s : Setting) (visited : BitSet) (st : State) :
    (round s).run (visiting visited st) = (round s).run st := rfl

private theorem rounds_visiting {s : Setting} (limit : s.config.limit = none) (fuel : Nat) (changed : Bool)
    (visited : BitSet) (st : State) :
    (rounds s (fuel + 1) changed).run (visiting visited st) =
      (rounds s (fuel + 1) changed).run st := by
  have first : ∀ st : State, (rounds s (fuel + 1) changed).run st =
      (round s >>= fun again => if again then rounds s fuel true else return changed).run st := by
    intro st
    rw [rounds, run_bind]
    change (if st.stats.isUnder s.config.limit then _ else _ : Convert Bool).run st = _
    rw [if_pos (isUnder_of_none limit _)]
  rw [first, first, run_bind, run_bind, round_visiting]

private theorem work_visiting (limit : p.config.limit = none) (cleaned : Bool) (loops : Option LoopTable)
    (visited : BitSet) (st : State) :
    ∃ visited', (p.work cleaned loops).run (visiting visited st) =
      (((p.work cleaned loops).run st).1, visiting visited' ((p.work cleaned loops).run st).2) := by
  have lists : Commutes (visiting visited) (reportListing p.listings .listingBefore) := by
    have looks : Commutes (visiting visited) procedure := fun _ => rfl
    have asks : ∀ {α : Type} (g : Procedure → Except Fault α),
        Commutes (visiting visited) (Convert.query g) := fun g =>
      commutes_read (fun _ => rfl) fun _ => commutes_ofExcept _
    unfold reportListing
    split
    · refine commutes_bind looks fun f => commutes_bind (asks _) fun text => ?_
      exact commutes_modify fun _ => rfl
    · exact commutes_pure ()
  have same : ∀ st : State,
      (Convert.procedure >>= fun f => rounds { config := p.config, target := p.target, loops }
        (f.blocks.size + 2) false >>= fun made => p.conclude cleaned made).run (visiting visited st) =
      (Convert.procedure >>= fun f => rounds { config := p.config, target := p.target, loops }
        (f.blocks.size + 2) false >>= fun made => p.conclude cleaned made).run st := by
    intro st
    rw [run_bind, run_bind]
    change (rounds _ (st.procedure.blocks.size + 2) false >>= _).run (visiting visited st) =
      (rounds _ (st.procedure.blocks.size + 2) false >>= _).run st
    rw [run_bind, run_bind, rounds_visiting limit]
  unfold work
  rw [run_bind, run_bind, lists st]
  rcases (reportListing p.listings .listingBefore).run st with ⟨e | u, mid⟩
  · exact ⟨visited, rfl⟩
  · exact ⟨_, same mid⟩

private theorem body_tables (limit : p.config.limit = none) (t : Tables) (st : State) :
    ∃ t' : Tables, (p.body source).run (t.within st) =
      (((p.body source).run st).1, t'.within ((p.body source).run st).2) := by
  unfold body
  rw [run_bind, run_bind, opening_tables p source t st]
  rcases (p.opening source).run st with ⟨e | ⟨cleaned, loops⟩, mid⟩
  · exact ⟨t, rfl⟩
  · dsimp only
    rw [run_bind, run_bind]
    obtain ⟨visited, ended⟩ := p.work_visiting limit cleaned loops t.visited
      { mid with infos := blankInfos mid.procedure, queue := {} }
    exact ⟨⟨_, _, visited⟩, ended⟩

private theorem convertState_alike {p q : Pass} (config : p.config = q.config) (target : p.target = q.target)
    (listings : p.listings = q.listings) (limit : q.config.limit = none) (source : LoopSource)
    (st : State) :
    ∃ t : Tables, (p.convertState source).run st =
      (((q.convertState source).run st).1, t.within ((q.convertState source).run st).2) := by
  have same : p.body source = q.body source := by
    unfold body opening work conclude
    rw [config, target, listings]
  rw [convertState_eq_body, convertState_eq_body, same]
  obtain ⟨t, first⟩ := q.body_tables source limit p.tables st
  obtain ⟨t', second⟩ := q.body_tables source limit q.tables st
  refine ⟨t, ?_⟩
  rw [run_bind, run_bind]
  change (q.body source).run (p.tables.within st) =
    (((q.body source).run (q.tables.within st)).1, t.within ((q.body source).run (q.tables.within st)).2)
  rw [first, second]
  rfl

end Tables

/-- The same came of a procedure in two runs: the same change and the same failure, or the same fault.
What was counted and reported before differs, and what each run added to it does not. -/
inductive SameEnd (past past' : Past) :
    Except Fault Outcome × Array Event → Except Fault Outcome × Array Event → Prop
  | ended {out out' : Outcome} (gain : Past) (procedure : out.procedure = out'.procedure)
      (changed : out.changed = out'.changed) (failure : out.failure = out'.failure)
      (stats : out.pass.stats = gain.stats.onTop past.stats)
      (stats' : out'.pass.stats = gain.stats.onTop past'.stats) :
      SameEnd past past' (.ok out, past.log ++ gain.log) (.ok out', past'.log ++ gain.log)
  | broke (e : Fault) (events : Array Event) :
      SameEnd past past' (.error e, past.log ++ events) (.error e, past'.log ++ events)

private theorem start_eq (p : Pass) (f : Procedure) (log : Array Event) :
    Noting.start p f log = Past.under ⟨p.stats, log⟩ (blank f) := by
  unfold Past.under blank
  rw [Stats.onTop_empty, Array.append_empty]

private theorem runProcedure_alike {p q : Pass} (config : p.config = q.config) (target : p.target = q.target)
    (listings : p.listings = q.listings) (limit : q.config.limit = none)
    (covered : p.config.covers p.number = true) (covered' : q.config.covers q.number = true)
    (source : LoopSource) (f : Procedure) (log log' : Array Event) :
    SameEnd ⟨p.stats, log⟩ ⟨q.stats, log'⟩ ((p.runProcedure source f).run log)
      ((q.runProcedure source f).run log') := by
  obtain ⟨t, alike⟩ := convertState_alike config target listings limit source (blank f)
  rw [Noting.run_covered source f covered log [], Noting.run_covered source f covered' log' [],
    start_eq, start_eq, commutes_convertState p source _ (by rw [config, limit]),
    commutes_convertState q source _ limit, alike]
  rcases (q.convertState source).run (blank f) with ⟨(e | e | _) | changed, st⟩
  · exact .broke e st.log
  · exact .ended ⟨st.stats, st.log⟩ rfl rfl rfl rfl rfl
  · exact .broke .unsettled st.log
  · exact .ended ⟨st.stats, st.log⟩ rfl rfl rfl rfl rfl

/-- A converter that was used for any procedures, however their conversion ended. -/
inductive Used (new : Pass) : Pass → Prop
  | new : Used new new
  | again {p : Pass} {source : LoopSource} {f : Procedure} {log log' : Array Event} {out : Outcome}
      (used : Used new p) (run : (p.runProcedure source f).run log = (.ok out, log')) :
      Used new out.pass

theorem runProcedure_settings {p : Pass} {source : LoopSource} {f : Procedure}
    {log log' : Array Event} {out : Outcome}
    (run : (p.runProcedure source f).run log = (.ok out, log')) :
    out.pass.config = p.config ∧ out.pass.target = p.target ∧ out.pass.listings = p.listings ∧
      out.pass.number = p.number + 1 := by
  by_cases covered : p.config.covers p.number = true
  · rw [Noting.run_covered source f covered log []] at run
    generalize (p.convertState source).run (Noting.start p f log) = ended at run
    rcases ended with ⟨(e | e) | changed, st⟩ <;> cases run <;> exact ⟨rfl, rfl, rfl, rfl⟩
  · unfold runProcedure at run
    rw [if_neg covered] at run
    cases run
    exact ⟨rfl, rfl, rfl, rfl⟩

private theorem Used.settings {new p : Pass} (used : Used new p) :
    p.config = new.config ∧ p.target = new.target ∧ p.listings = new.listings := by
  induction used with
  | new => exact ⟨rfl, rfl, rfl⟩
  | @again p source f log log' out used run ih =>
    obtain ⟨config, target, listings, -⟩ := runProcedure_settings run
    rw [config, target, listings]
    exact ih

/-- A procedure is converted in the same way by a new converter and by one that was used before. -/
theorem runProcedure_independent (config : Config) (target : Target) (listings : Bool)
    (limit : config.limit = none) (first : config.first = none) (last : config.last = none)
    {p : Pass} (used : Used { config, target, listings } p) (source : LoopSource) (f : Procedure)
    (log log' : Array Event) :
    SameEnd ⟨p.stats, log⟩ ⟨{}, log'⟩ ((p.runProcedure source f).run log)
      ((({ config, target, listings } : Pass).runProcedure source f).run log') := by
  obtain ⟨config', target', listings'⟩ := used.settings
  have covers : ∀ number, config.covers number = true := by
    intro number
    unfold Config.covers
    rw [first, last]
    rfl
  refine runProcedure_alike config' target' listings' limit ?_ (covers 0) source f log log'
  rw [config']
  exact covers _

def torn : Procedure :=
  { name := "g"
    blocks := #[{ id := 0, name := "A", code := [0], preds := [0] }]
    insts := #[{ op := .ret }]
    layout := [0] }

/-- A converter that checks procedures, for a target where guards are always worth their cost. -/
def checking : Pass :=
  { config := { verify := true }
    target :=
      { Datapath.standard.target with
        paysToGuard := fun _ _ _ _ => true
        paysToGuardPair := fun _ _ _ _ _ _ => true } }

def endsIn {α : Type} (P : α → Bool) : Except Fault α → Bool
  | .ok out => P out
  | .error _ => false

theorem exists_of_endsIn {α : Type} {P : α → Bool} {r : Except Fault α × Array Event}
    (h : endsIn P r.1 = true) : ∃ out log, r = (.ok out, log) ∧ P out = true := by
  rcases r with ⟨e | out, log⟩
  · cases h
  · exact ⟨out, log, rfl, h⟩

theorem runProcedure_independent_torn :
    ∃ p : Pass, Used checking p ∧ p.stats.total = 1 ∧
      SameEnd ⟨p.stats, #[]⟩ ⟨{}, #[]⟩ ((p.runProcedure .found fork).run #[])
        ((checking.runProcedure .found fork).run #[]) := by
  -- one procedure is converted, and the next one does not pass its check
  obtain ⟨out, log, run, second⟩ := exists_of_endsIn
    (P := fun out : Outcome => endsIn
      (fun out : Outcome => out.failure.isSome && decide (out.pass.stats.total = 1))
      ((out.pass.runProcedure .found torn).run #[]).1)
    (r := (checking.runProcedure .found fork).run #[]) (by decide +kernel)
  obtain ⟨out', log', run', failed⟩ := exists_of_endsIn second
  have used : Used checking out'.pass := (Used.new.again run).again run'
  refine ⟨out'.pass, used, ?_, ?_⟩
  · exact of_decide_eq_true (Bool.and_eq_true_iff.mp failed).2
  · exact runProcedure_independent _ _ false rfl rfl rfl used .found fork #[] #[]

end Pass

end Predication
