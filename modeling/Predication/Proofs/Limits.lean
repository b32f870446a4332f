import Predication.Proofs.Outcomes
import Predication.Proofs.Retirement

/-!
The limit on conversions. The runs of the converter are given once more, with a journal of the
conversions that they make; without the journal they are the runs that they were. Up to the limit a
limited run does what the run without a limit does, and from then on it makes no conversion. So its
conversions are the first ones of the run without a limit.
-/

set_option autoImplicit false
set_option relaxedAutoImplicit false

namespace Predication

open Conversion

namespace Conversion

variable (s : Setting)

/-- Takes a candidate off the queue and tries it. Tells whether a conversion was made. -/
def offer (c : Candidate) : Convert Bool := do
  if ← dequeue c then
    let ok ← convert s.target c
    let i ← Convert.info c.block
    let f ← Convert.procedure
    Convert.report (.tried c.kind (f.blockName c.block) (f.blockName? i.taken)
      (f.blockName? i.other) ok)
    return ok
  else
    return false

/-- Counts a conversion that was made, and checks the procedure. -/
def approve (c : Candidate) : Convert Unit := do
  Convert.tally fun st => { st with made := c.kind :: st.made }
  if s.config.verify then
    ensureValid (.invalidAfter c.kind ((← Convert.procedure).blockName c.block))

theorem tryAll_cons (c : Candidate) (rest : List Candidate) (changed : Bool) :
    tryAll s (c :: rest) changed = (do
      if ← offer s c then
        approve s c
        if (← get).stats.isUnder s.config.limit then tryAll s rest true else return true
      else
        tryAll s rest changed) := by
  unfold offer approve
  rw [tryAll]
  simp only [bind_assoc]
  congr 1
  funext wanted
  cases wanted with
  | false => simp
  | true =>
    simp only [if_true, bind_assoc, pure_bind]
    congr 1
    funext ok
    cases ok with
    | false => simp
    | true =>
      cases s.config.verify <;> simp

/-- The setting with another limit. -/
def Setting.withLimit (limit : Option Nat) : Setting :=
  { s with config := { s.config with limit := limit } }

section

variable (limit : Option Nat)

private theorem offer_withLimit (c : Candidate) : offer (s.withLimit limit) c = offer s c := rfl

private theorem approve_withLimit (c : Candidate) : approve (s.withLimit limit) c = approve s c := rfl

private theorem classify_withLimit (b : BlockId) : classify (s.withLimit limit) b = classify s b := rfl

private theorem analyzeStack_withLimit (fuel : Nat) (stack : List Pending) :
    analyzeStack (s.withLimit limit) fuel stack = analyzeStack s fuel stack := by
  induction fuel generalizing stack with
  | zero => cases stack <;> rfl
  | succ fuel ih =>
    cases stack with
    | nil => rfl
    | cons p stack =>
      unfold analyzeStack
      simp only [ih, classify_withLimit]
      rfl

private theorem analyzeBack_withLimit (fuel : Nat) (stack : List BlockId) :
    analyzeBack (s.withLimit limit) fuel stack = analyzeBack s fuel stack := by
  induction fuel generalizing stack with
  | zero => cases stack <;> rfl
  | succ fuel ih =>
    cases stack with
    | nil => rfl
    | cons p stack =>
      unfold analyzeBack analyzeBlock
      simp only [ih, analyzeStack_withLimit]

private theorem analyzeRoots_withLimit (roots : List BlockId) :
    analyzeRoots (s.withLimit limit) roots = analyzeRoots s roots := by
  induction roots with
  | nil => rfl
  | cons root roots ih =>
    unfold analyzeRoots
    simp only [ih, analyzeBack_withLimit]

private theorem analyze_withLimit : analyze (s.withLimit limit) = analyze s := by
  unfold analyze
  simp only [analyzeRoots_withLimit]

end

end Conversion

namespace Pass

/-- The converter with another limit. -/
def withLimit (p : Pass) (limit : Option Nat) : Pass :=
  { p with config := { p.config with limit := limit } }

private theorem withLimit_self {p : Pass} {limit : Option Nat} (h : p.config.limit = limit) :
    p.withLimit limit = p := by
  subst h
  rfl

/-- What comes before the rounds: the first cleanup, the loops and the tables. Tells whether
the cleanup changed anything, with the loops and the number of rounds at most. -/
def prepare (p : Pass) (source : LoopSource) : Convert (Bool × Option LoopTable × Nat) := do
  takeUp p.tables
  let cleaned ← if p.config.cleanBefore then cleanUp else pure false
  let loops ← Convert.query source.table
  reset
  reportListing p.listings .listingBefore
  let f ← Convert.procedure
  return (cleaned, loops, f.blocks.size + 2)

/-- What comes after the rounds. -/
def conclude (p : Pass) (cleaned made : Bool) : Convert Bool := do
  if made && p.config.cleanAfter then
    let _ ← cleanUp
  reportListing p.listings .listingAfter
  if p.config.verify then
    ensureValid .invalid
  return cleaned || made

theorem convertState_eq (p : Pass) (source : LoopSource) :
    p.convertState source = (do
      let (cleaned, loops, fuel) ← p.prepare source
      let made ← rounds { config := p.config, target := p.target, loops } fuel false
      p.conclude cleaned made) := by
  unfold convertState prepare conclude
  cases p.config.cleanBefore <;> simp

open Convert in
/-- The parts of a preparation that succeeds. -/
theorem yields_prepare {p : Pass} {source : LoopSource} {st st' : State} {cleaned : Bool}
    {r : Option LoopTable × Nat} (run : Yields (p.prepare source) st (cleaned, r) st') :
    ∃ taken mid, taken.procedure = st.procedure ∧ taken.stats = st.stats ∧
      (Yields cleanUp taken cleaned mid ∨ cleaned = false ∧ mid = taken) ∧
      Yields (reportListing p.listings .listingBefore)
        { mid with infos := blankInfos mid.procedure, queue := {} } () st' := by
  have rest : ∀ {mid : State} {told : Bool}, Yields (do
      let loops ← query source.table
      reset
      reportListing p.listings .listingBefore
      let f ← procedure
      return (told, loops, f.blocks.size + 2)) mid (cleaned, r) st' →
      told = cleaned ∧ Yields (reportListing p.listings .listingBefore)
        { mid with infos := blankInfos mid.procedure, queue := {} } () st' := by
    intro mid told run
    obtain ⟨loops, found, asked, run⟩ := yields_bind.mp run
    obtain ⟨-, rfl⟩ := yields_query.mp asked
    obtain ⟨x, ready, cleared, run⟩ := yields_bind.mp run
    obtain rfl := yields_modify.mp cleared
    obtain ⟨x, listed, reported, run⟩ := yields_bind.mp run
    obtain ⟨f, looked, asked, run⟩ := yields_bind.mp run
    obtain ⟨rfl, rfl⟩ := yields_procedure.mp asked
    obtain ⟨answer, rfl⟩ := yields_pure.mp run
    exact ⟨(congrArg Prod.fst answer), reported⟩
  unfold prepare at run
  obtain ⟨x, taken, first, run⟩ := yields_bind.mp run
  obtain rfl := yields_modify.mp first
  rcases yields_ite.mp run with ⟨-, run⟩ | ⟨-, run⟩
  · obtain ⟨told, mid, cleans, run⟩ := yields_bind.mp run
    obtain ⟨rfl, listed⟩ := rest run
    refine ⟨_, mid, ?_, ?_, .inl cleans, listed⟩ <;> rfl
  · obtain ⟨told, mid, none, run⟩ := yields_bind.mp run
    obtain ⟨rfl, rfl⟩ := yields_pure.mp none
    obtain ⟨rfl, listed⟩ := rest run
    refine ⟨_, _, ?_, ?_, .inr ⟨rfl, rfl⟩, listed⟩ <;> rfl

end Pass

/-- A conversion that was made in the procedure with the given number: its head and kind, and the
procedure before and after it. -/
structure Made where
  number : Nat
  block : BlockId
  kind : Kind
  before : Procedure
  after : Procedure

abbrev Noting (ε σ : Type) := ExceptT ε (StateM (σ × List Made))

namespace Noting

variable {ε σ α β : Type}

def silent (m : ExceptT ε (StateM σ) α) : Noting ε σ α := fun (st, notes) =>
  let (result, st) := m.run st
  (result, (st, notes))

def note (x : Made) : Noting ε σ Unit := modify fun (st, notes) => (st, notes ++ [x])

/-- Without its notes the one computation is the other. -/
def Erases (m : Noting ε σ α) (m' : ExceptT ε (StateM σ) α) : Prop :=
  ∀ st notes, ∃ notes', m.run (st, notes) = ((m'.run st).1, ((m'.run st).2, notes'))

section Runs

variable (s : Setting) (number : Nat)

/-- Tries the candidates in order until the limit is reached, with notes. -/
def tryAll : List Candidate → (changed : Bool) → Noting Stop State Bool
  | [], changed => return changed
  | c :: rest, changed => do
    let before ← silent Convert.procedure
    if ← silent (offer s c) then
      let after ← silent Convert.procedure
      note { number, block := c.block, kind := c.kind, before, after }
      silent (approve s c)
      let st ← silent get
      if st.stats.isUnder s.config.limit then tryAll rest true else return true
    else
      tryAll rest changed

/-- One round, with notes. -/
def round : Noting Stop State Bool := do
  silent (analyze s)
  let st ← silent get
  silent (Convert.report (.candidates st.queue.size))
  let st ← silent get
  let changed ← tryAll s number (st.queue.drain (Candidate.before s.config.priority)) false
  silent (modify fun st => { st with queue := {} })
  return changed

/-- Rounds until one makes no conversion or the limit is reached, with notes. -/
def rounds : (fuel : Nat) → (changed : Bool) → Noting Stop State Bool
  | 0, _ => throw .unsettled
  | fuel + 1, changed => do
    let st ← silent get
    if st.stats.isUnder s.config.limit then
      if ← round s number then rounds fuel true else return changed
    else
      return changed

/-- The conversion of the procedure of the state, with notes. -/
def convertState (p : Pass) (source : Pass.LoopSource) : Noting Stop State Bool := do
  let (cleaned, loops, fuel) ← silent (p.prepare source)
  let made ← rounds { config := p.config, target := p.target, loops } p.number fuel false
  silent (p.conclude cleaned made)

/-- The conversion of a procedure, with notes. -/
def runProcedure (p : Pass) (source : Pass.LoopSource) (f : Procedure) :
    Noting Fault (Array Event) Pass.Outcome := do
  if p.config.covers p.number then
    let (log, notes) ← get
    let start : State := { procedure := f, infos := #[], stats := p.stats, log }
    let (result, st, notes) := (convertState p source).run (start, notes)
    set (st.log, notes)
    match result with
    | .ok changed => return { pass := p.after st, procedure := st.procedure, changed }
    | .error (.failure e) =>
      return { pass := p.after st, procedure := st.procedure, changed := true, failure := some e }
    | .error (.fault e) => throw e
    | .error .unsettled => throw .unsettled
  else
    silent (Traced.report .skipped)
    return { pass := { p with number := p.number + 1 }, procedure := f, changed := false }

/-- What becomes of a procedure, from the way its conversion ended. -/
def outcome (p : Pass) : Except Stop Bool × State × List Made →
    Except Fault Pass.Outcome × Array Event × List Made
  | (.ok changed, st, notes) =>
    (.ok { pass := p.after st, procedure := st.procedure, changed }, st.log, notes)
  | (.error (.failure e), st, notes) =>
    (.ok { pass := p.after st, procedure := st.procedure, changed := true, failure := some e }, st.log,
      notes)
  | (.error (.fault e), st, notes) => (.error e, st.log, notes)
  | (.error .unsettled, st, notes) => (.error .unsettled, st.log, notes)

private theorem outcome_notes (p : Pass) (r : Except Stop Bool × State × List Made) :
    (outcome p r).2.2 = r.2.2 := by
  rcases r with ⟨(e | e) | changed, st, notes⟩ <;> rfl

private theorem outcome_pass {p : Pass} {r : Except Stop Bool × State × List Made} {out : Pass.Outcome}
    (h : (outcome p r).1 = .ok out) : out.pass = p.after r.2.1 := by
  rcases r with ⟨(e | e) | changed, st, notes⟩ <;> cases h <;> rfl

abbrev start (p : Pass) (f : Procedure) (log : Array Event) : State :=
  { procedure := f, infos := #[], stats := p.stats, log }

theorem run_covered {p : Pass} (source : Pass.LoopSource) (f : Procedure)
    (covered : p.config.covers p.number = true) (log : Array Event) (notes : List Made) :
    (p.runProcedure source f).run log =
      match (p.convertState source).run (start p f log) with
      | (result, st) =>
        let (out, log, _) := outcome p (result, st, notes)
        (out, log) := by
  unfold Pass.runProcedure
  rw [if_pos covered, run_bind, show (get : Traced Event _).run log = (.ok log, log) from rfl]
  dsimp only
  generalize (p.convertState source).run (start p f log) = ended
  rcases ended with ⟨(e | e) | changed, st⟩ <;> rfl

private theorem runProcedure_covered {p : Pass} (source : Pass.LoopSource) (f : Procedure)
    (covered : p.config.covers p.number = true) (log : Array Event) (notes : List Made) :
    (runProcedure p source f).run (log, notes) =
      outcome p ((convertState p source).run (start p f log, notes)) := by
  unfold runProcedure
  rw [if_pos covered, run_bind,
    show (get : Noting Fault (Array Event) _).run (log, notes) = (.ok (log, notes), log, notes) from rfl]
  dsimp only
  generalize (convertState p source).run (start p f log, notes) = ended
  rcases ended with ⟨(e | e) | changed, st, notes⟩ <;> rfl

private theorem runProcedure_skipped {p : Pass} (source : Pass.LoopSource) (f : Procedure)
    (skipped : ¬ p.config.covers p.number = true) (log : Array Event) (notes : List Made) :
    (runProcedure p source f).run (log, notes) =
      (.ok { pass := { p with number := p.number + 1 }, procedure := f, changed := false },
        log.push .skipped, notes) := by
  unfold runProcedure
  rw [if_neg skipped]
  rfl

/-- The conversion of one procedure after the other, with notes. -/
def runFrom (p : Pass) (changed : Bool) (done : List Procedure) :
    List Procedure → Noting Fault (Array Event) Pass.ProgramOutcome
  | [] => do
    silent (Traced.report (.finished p.stats))
    return { pass := p, program := done.reverse, changed }
  | f :: rest => do
    let out ← runProcedure p .found f
    match out.failure with
    | none => runFrom out.pass (changed || out.changed) (out.procedure :: done) rest
    | some e =>
      return { pass := out.pass, program := done.reverse ++ out.procedure :: rest, changed
               failure := some (f.name, e) }

end Runs

section Counting

def Untold (m : Convert α) : Prop := ∀ st, (m.run st).2.stats.made = st.stats.made

private theorem Untold.of_keeps {m : Convert α} (h : Convert.Keeps m) : Untold m := fun st => (h st).made

theorem Untold.bind {m : Convert α} {k : α → Convert β} (h : Untold m) (h' : ∀ a, Untold (k a)) :
    Untold (m >>= k) :=
  fun st => state_bind (P := fun st' : State => st'.stats.made = st.stats.made) (h st) fun a =>
    (h' a _).trans (h st)

theorem Untold.ite {c : Prop} [Decidable c] {m n : Convert α} (h : Untold m) (h' : Untold n) :
    Untold (if c then m else n) := by
  split
  · exact h
  · exact h'

def Counts (m : Noting Stop State α) : Prop :=
  ∀ st notes, ∃ more, (m.run (st, notes)).2.2 = notes ++ more ∧
    (m.run (st, notes)).2.1.stats.made = (more.map Made.kind).reverse ++ st.stats.made

def Records (m : Noting Stop State α) (m' : Convert α) : Prop :=
  ∀ st notes, ∃ more, m.run (st, notes) = ((m'.run st).1, ((m'.run st).2, notes ++ more)) ∧
    (m'.run st).2.stats.made = (more.map Made.kind).reverse ++ st.stats.made

private theorem Records.counts {m : Noting Stop State α} {m' : Convert α} (h : Records m m') : Counts m := by
  intro st notes
  obtain ⟨more, run, made⟩ := h st notes
  rw [run]
  exact ⟨more, rfl, made⟩

theorem Records.silent {m : Convert α} (h : Untold m) : Records (silent m) m := fun st notes =>
  ⟨[], by rw [List.append_nil]; rfl, h st⟩

theorem Records.pure (a : α) : Records (pure a) (pure a) := fun _ _ =>
  ⟨[], by rw [List.append_nil]; rfl, rfl⟩

theorem Records.throw (e : Stop) : Records (throw e : Noting Stop State α) (throw e) := fun _ _ =>
  ⟨[], by rw [List.append_nil]; rfl, rfl⟩

theorem Records.bind {m : Noting Stop State α} {m' : Convert α} {k : α → Noting Stop State β}
    {k' : α → Convert β} (h : Records m m') (h' : ∀ a, Records (k a) (k' a)) :
    Records (m >>= k) (m' >>= k') := by
  intro st notes
  obtain ⟨more, run, made⟩ := h st notes
  rw [run_bind, run, run_bind m']
  generalize m'.run st = left at made ⊢
  rcases left with ⟨e | a, mid⟩
  · exact ⟨more, rfl, made⟩
  · obtain ⟨more', run', made'⟩ := h' a mid (notes ++ more)
    refine ⟨more ++ more', ?_, ?_⟩
    · rw [← List.append_assoc]
      exact run'
    · rw [made', made, List.map_append, List.reverse_append, List.append_assoc]

private theorem Records.look {k : Procedure → Noting Stop State β} {m : Convert β}
    (h : ∀ f, Records (k f) m) :
    Records (Noting.silent Convert.procedure >>= k) m := by
  intro st notes
  rw [run_bind]
  exact h st.procedure st notes

theorem Records.ite {c : Prop} [Decidable c] {m n : Noting Stop State α} {m' n' : Convert α}
    (h : Records m m') (h' : Records n n') : Records (if c then m else n) (if c then m' else n') := by
  split
  · exact h
  · exact h'

private theorem Counts.length {m : Noting Stop State α} (h : Counts m) (st : State) (notes : List Made) :
    (m.run (st, notes)).2.2.length + st.stats.total =
      notes.length + (m.run (st, notes)).2.1.stats.total := by
  obtain ⟨more, noted, made⟩ := h st notes
  unfold Stats.total
  rw [noted, made, List.length_append, List.length_append, List.length_reverse, List.length_map]
  omega

variable (s : Setting) (number : Nat)

private theorem keeps_offer (c : Candidate) : Convert.Keeps (offer s c) := by
  unfold offer
  refine Convert.keeps_bind (keeps_dequeue c) fun wanted => ?_
  split
  · refine Convert.keeps_bind (advances_convert s.target c).1 fun ok => ?_
    refine Convert.keeps_bind (Convert.keeps_info _) fun i => ?_
    refine Convert.keeps_bind Convert.keeps_procedure fun f => ?_
    exact Convert.keeps_bind (Convert.keeps_report _) fun _ => Convert.keeps_pure ok
  · exact Convert.keeps_pure false

private theorem made_approve (c : Candidate) (st : State) :
    ((approve s c).run st).2.stats.made = c.kind :: st.stats.made := by
  unfold approve
  rw [run_bind]
  change ((if s.config.verify then _ else pure () : Convert Unit).run _).2.stats.made = _
  split
  · exact ((Convert.keeps_bind Convert.keeps_procedure fun f => keeps_ensureValid _) _).made
  · rfl

private theorem Records.made {x : Made} {c : Candidate} (same : x.kind = c.kind)
    {k : Unit → Noting Stop State β} {k' : Unit → Convert β} (h : ∀ u, Records (k u) (k' u)) :
    Records (note x >>= fun _ => Noting.silent (approve s c) >>= k) (approve s c >>= k') := by
  have once : Records (note x >>= fun _ => Noting.silent (approve s c)) (approve s c) := by
    intro st notes
    refine ⟨[x], by rw [run_bind]; rfl, ?_⟩
    rw [made_approve, List.map_singleton, List.reverse_singleton, List.singleton_append, same]
  have both := once.bind h
  rwa [bind_assoc] at both

private theorem records_tryAll (l : List Candidate) (changed : Bool) :
    Records (tryAll s number l changed) (Conversion.tryAll s l changed) := by
  induction l generalizing changed with
  | nil => exact .pure changed
  | cons c l ih =>
    rw [tryAll_cons, tryAll]
    refine .look fun before => (Records.silent (.of_keeps (keeps_offer s c))).bind fun made => ?_
    refine .ite ?_ (ih changed)
    refine .look fun after => Records.made s rfl fun _ => ?_
    exact (Records.silent (.of_keeps Convert.keeps_get)).bind fun st => .ite (ih true) (.pure true)

private theorem records_round : Records (round s number) (Conversion.round s) := by
  unfold round Conversion.round
  refine (Records.silent (.of_keeps (keeps_analyze s))).bind fun _ => ?_
  refine (Records.silent (.of_keeps Convert.keeps_get)).bind fun st => ?_
  refine (Records.silent (.of_keeps (Convert.keeps_report _))).bind fun _ => ?_
  refine (Records.silent (.of_keeps Convert.keeps_get)).bind fun st => ?_
  refine (records_tryAll s number _ false).bind fun changed => ?_
  exact (Records.silent fun _ => rfl).bind fun _ => .pure changed

private theorem records_rounds (fuel : Nat) (changed : Bool) :
    Records (rounds s number fuel changed) (Conversion.rounds s fuel changed) := by
  induction fuel generalizing changed with
  | zero => exact .throw _
  | succ fuel ih =>
    unfold rounds Conversion.rounds
    refine (Records.silent (.of_keeps Convert.keeps_get)).bind fun st => .ite ?_ (.pure changed)
    exact (records_round s number).bind fun again => .ite (ih true) (.pure changed)

private theorem untold_prepare (p : Pass) (source : Pass.LoopSource) : Untold (p.prepare source) := by
  have rest : ∀ cleaned : Bool, Untold (do
      let loops ← Convert.query source.table
      reset
      reportListing p.listings .listingBefore
      let f ← Convert.procedure
      return (cleaned, loops, f.blocks.size + 2)) := by
    intro cleaned
    refine .bind (.of_keeps (Convert.keeps_query _)) fun loops => .bind (fun _ => rfl) fun _ => ?_
    refine .bind (.of_keeps (keeps_reportListing _ _)) fun _ => ?_
    exact .bind (.of_keeps Convert.keeps_procedure) fun f => fun _ => rfl
  refine .bind (fun _ => rfl) fun _ => ?_
  exact .ite (.bind (.of_keeps keeps_cleanUp) rest) (.bind (fun _ => rfl) rest)

private theorem untold_conclude (p : Pass) (cleaned made : Bool) : Untold (p.conclude cleaned made) := by
  have rest : Untold (do
      reportListing p.listings .listingAfter
      if p.config.verify then
        ensureValid .invalid
      return cleaned || made) := by
    refine .bind (.of_keeps (keeps_reportListing _ _)) fun _ => .ite ?_ fun _ => rfl
    exact .bind (.of_keeps (keeps_ensureValid _)) fun _ _ => rfl
  exact .ite (.bind (.of_keeps keeps_cleanUp) fun _ => rest) rest

private theorem records_convertState (p : Pass) (source : Pass.LoopSource) :
    Records (convertState p source) (p.convertState source) := by
  rw [Pass.convertState_eq]
  refine (Records.silent (untold_prepare p source)).bind fun start => ?_
  refine (records_rounds _ _ _ false).bind fun made => ?_
  exact .silent (untold_conclude p _ made)

end Counting

section Limited

variable {limit : Nat} {st : State} {notes : List Made}

/-- From the same state the second computation does what the first one does and keeps to the limit, or
it has come to the limit and has noted a first part of what the first one notes. -/
def Shadows (limit : Nat) (u l : Noting Stop State α) (st : State) (notes : List Made) : Prop :=
  (l.run (st, notes) = u.run (st, notes) ∧ (u.run (st, notes)).2.1.stats.total ≤ limit) ∨
    (l.run (st, notes)).2.1.stats.total = limit ∧
      ∃ more, (u.run (st, notes)).2.2 = (l.run (st, notes)).2.2 ++ more

def Idle (limit : Nat) (l : Noting Stop State α) : Prop :=
  ∀ st notes, limit ≤ st.stats.total →
    (l.run (st, notes)).2.2 = notes ∧ (l.run (st, notes)).2.1.stats.total = st.stats.total

private theorem total_of_untold {m : Convert α} (h : Untold m) (st : State) :
    (m.run st).2.stats.total = st.stats.total := by
  unfold Stats.total
  rw [h st]

theorem Idle.silent {m : Convert α} (h : Untold m) : Idle limit (silent m) := fun st _ _ =>
  ⟨rfl, total_of_untold h st⟩

theorem Idle.pure (a : α) : Idle limit (pure a) := fun _ _ _ => ⟨rfl, rfl⟩

theorem Idle.throw (e : Stop) : Idle limit (throw e : Noting Stop State α) :=
  fun _ _ _ => ⟨rfl, rfl⟩

theorem Idle.bind {m : Noting Stop State α} {k : α → Noting Stop State β} (h : Idle limit m)
    (h' : ∀ a, Idle limit (k a)) : Idle limit (m >>= k) := by
  intro st notes full
  obtain ⟨same, total⟩ := h st notes full
  rw [run_bind]
  rcases run : m.run (st, notes) with ⟨e | a, mid, notes'⟩
  · rw [run] at same total
    exact ⟨same, total⟩
  · rw [run] at same total
    obtain ⟨same', total'⟩ := h' a mid notes' (full.trans_eq total.symm)
    exact ⟨same'.trans same, total'.trans total⟩

private theorem Idle.shadows {u l : Noting Stop State α} (idle : Idle limit l) (counts : Counts u)
    (full : st.stats.total = limit) : Shadows limit u l st notes := by
  obtain ⟨same, total⟩ := idle st notes full.ge
  obtain ⟨more, noted, -⟩ := counts st notes
  refine .inr ⟨total.trans full, more, ?_⟩
  rw [same]
  exact noted

theorem Shadows.pure (a : α) (le : st.stats.total ≤ limit) :
    Shadows limit (pure a) (pure a) st notes :=
  .inl ⟨rfl, le⟩

private theorem Shadows.common {m : Convert α} {ku kl : α → Noting Stop State β}
    (le : (m.run st).2.stats.total ≤ limit)
    (next : ∀ a, Shadows limit (ku a) (kl a) (m.run st).2 notes) :
    Shadows limit (silent m >>= ku) (silent m >>= kl) st notes := by
  have run : (Noting.silent m).run (st, notes) = ((m.run st).1, ((m.run st).2, notes)) := rfl
  unfold Shadows
  rw [run_bind, run_bind, run]
  cases (m.run st).1 with
  | error e => exact .inl ⟨rfl, le⟩
  | ok a => exact next a

private theorem Shadows.step {m : Convert α} {ku kl : α → Noting Stop State β} (h : Untold m)
    (le : st.stats.total ≤ limit)
    (next : ∀ a st', st'.stats.total = st.stats.total → Shadows limit (ku a) (kl a) st' notes) :
    Shadows limit (silent m >>= ku) (silent m >>= kl) st notes :=
  .common ((total_of_untold h st).trans_le le) fun a => next a _ (total_of_untold h st)

private theorem Shadows.read {ku kl : State → Noting Stop State β}
    (next : Shadows limit (ku st) (kl st) st notes) :
    Shadows limit (silent get >>= ku) (silent get >>= kl) st notes := by
  unfold Shadows
  rw [run_bind, run_bind]
  exact next

private theorem Shadows.note {x : Made} {ku kl : Unit → Noting Stop State β}
    (next : Shadows limit (ku ()) (kl ()) st (notes ++ [x])) :
    Shadows limit (note x >>= ku) (note x >>= kl) st notes := by
  unfold Shadows
  rw [run_bind, run_bind]
  exact next

theorem Shadows.bind {u l : Noting Stop State α} {ku kl : α → Noting Stop State β}
    (h : Shadows limit u l st notes)
    (next : ∀ a st notes, st.stats.total ≤ limit → Shadows limit (ku a) (kl a) st notes)
    (idle : ∀ a, Idle limit (kl a)) (counts : ∀ a, Counts (ku a)) :
    Shadows limit (u >>= ku) (l >>= kl) st notes := by
  rcases h with ⟨same, le⟩ | ⟨full, more, noted⟩
  · unfold Shadows
    rw [run_bind, run_bind, same]
    rcases run : u.run (st, notes) with ⟨e | a, mid, notes'⟩
    · rw [run] at le
      exact .inl ⟨rfl, le⟩
    · rw [run] at le
      exact next a mid notes' le
  · -- the one stands still, and the other only adds to its notes
    have still : ((l >>= kl).run (st, notes)).2.2 = (l.run (st, notes)).2.2 ∧
        ((l >>= kl).run (st, notes)).2.1.stats.total = limit := by
      rw [run_bind]
      rcases run : l.run (st, notes) with ⟨e | a, mid, notes'⟩
      · rw [run] at full
        exact ⟨rfl, full⟩
      · rw [run] at full
        obtain ⟨same, total⟩ := idle a mid notes' full.ge
        exact ⟨same, total.trans full⟩
    have adds : ∃ more', ((u >>= ku).run (st, notes)).2.2 = (u.run (st, notes)).2.2 ++ more' := by
      rw [run_bind]
      rcases run : u.run (st, notes) with ⟨e | a, mid, notes'⟩
      · exact ⟨[], (List.append_nil _).symm⟩
      · obtain ⟨more', noted', -⟩ := counts a mid notes'
        exact ⟨more', noted'⟩
    obtain ⟨more', adds⟩ := adds
    refine .inr ⟨still.2, more ++ more', ?_⟩
    rw [adds, noted, still.1, List.append_assoc]

variable (s : Setting) (number : Nat)

private theorem isUnder_none (st : Stats) : st.isUnder (s.withLimit none).config.limit = true := rfl

private theorem isUnder_some {st : Stats} :
    st.isUnder (s.withLimit (some limit)).config.limit = true ↔ st.total < limit := by
  change st.isUnder (some limit) = true ↔ _
  unfold Stats.isUnder
  simp

private theorem total_approve (c : Candidate) (st : State) :
    ((approve s c).run st).2.stats.total = st.stats.total + 1 := by
  unfold Stats.total
  rw [made_approve, List.length_cons]

private theorem tryAll_shadows (l : List Candidate) (changed : Bool) (under : st.stats.total < limit) :
    Shadows limit (tryAll (s.withLimit none) number l changed)
      (tryAll (s.withLimit (some limit)) number l changed) st notes := by
  induction l generalizing changed st notes with
  | nil => exact .pure changed under.le
  | cons c l ih =>
    rw [tryAll, tryAll]
    simp only [offer_withLimit, approve_withLimit]
    refine .step (.of_keeps Convert.keeps_procedure) under.le fun before st₁ same => ?_
    refine .step (.of_keeps (keeps_offer s c)) (by omega) fun made st₂ same => ?_
    cases made with
    | false => exact ih changed (by omega)
    | true =>
      refine .step (.of_keeps Convert.keeps_procedure) (by omega) fun after st₃ same => .note ?_
      have counted := total_approve s c st₃
      refine .common (by omega) fun _ => ?_
      generalize ((approve s c).run st₃).2 = st₄ at counted
      -- only now the limit is looked at
      refine .read ?_
      rw [if_pos (isUnder_none s _)]
      by_cases more : st₄.stats.total < limit
      · rw [if_pos ((isUnder_some s).mpr more)]
        exact ih true more
      · rw [if_neg fun under => more ((isUnder_some s).mp under)]
        exact (Idle.pure true).shadows (records_tryAll _ number l true).counts (by omega)

private theorem round_shadows (under : st.stats.total < limit) :
    Shadows limit (round (s.withLimit none) number) (round (s.withLimit (some limit)) number)
      st notes := by
  unfold round
  rw [analyze_withLimit, analyze_withLimit]
  refine .step (.of_keeps (keeps_analyze s)) under.le fun _ st₁ same => .read ?_
  refine .step (.of_keeps (Convert.keeps_report _)) (by omega) fun _ st₂ same => .read ?_
  refine (tryAll_shadows s number _ false (by omega)).bind (fun changed st notes le => ?_)
    (fun changed => ?_) fun changed => ?_
  · exact .step (fun _ => rfl) le fun _ st' same => .pure changed (by omega)
  · exact (Idle.silent fun _ => rfl).bind fun _ => .pure changed
  · exact ((Records.silent fun _ => rfl).bind fun _ => .pure changed).counts

private theorem rounds_idle (fuel : Nat) (changed : Bool) :
    Idle limit (rounds (s.withLimit (some limit)) number fuel changed) := by
  cases fuel with
  | zero => exact .throw _
  | succ fuel =>
    intro st notes full
    have read : (silent get : Noting Stop State State).run (st, notes) = (.ok st, st, notes) := rfl
    rw [rounds, run_bind, read]
    dsimp only
    rw [if_neg fun under => absurd ((isUnder_some s).mp under) (by omega)]
    exact ⟨rfl, rfl⟩

private theorem rounds_shadows (fuel : Nat) (changed : Bool) (le : st.stats.total ≤ limit) :
    Shadows limit (rounds (s.withLimit none) number fuel changed)
      (rounds (s.withLimit (some limit)) number fuel changed) st notes := by
  induction fuel generalizing changed st notes with
  | zero => exact .inl ⟨rfl, le⟩
  | succ fuel ih =>
    by_cases full : st.stats.total = limit
    · exact (rounds_idle s number _ changed).shadows (records_rounds _ number _ changed).counts full
    · have under : st.stats.total < limit := by omega
      rw [rounds, rounds]
      refine .read ?_
      rw [if_pos (isUnder_none s _), if_pos ((isUnder_some s).mpr under)]
      refine (round_shadows s number under).bind (fun again st notes le => ?_) (fun again => ?_)
        fun again => ?_
      · cases again with
        | false => exact .pure changed le
        | true => exact ih true le
      · cases again with
        | false => exact .pure changed
        | true => exact rounds_idle s number fuel true
      · exact ((records_rounds _ number fuel true).ite (.pure changed)).counts

variable (p : Pass) (source : Pass.LoopSource)

private theorem convertState_idle : Idle limit (convertState (p.withLimit (some limit)) source) := by
  refine (Idle.silent (untold_prepare _ source)).bind fun start => ?_
  refine Idle.bind ?_ fun made => .silent (untold_conclude _ _ made)
  exact rounds_idle ⟨p.config, p.target, start.2.1⟩ p.number start.2.2 false

private theorem convertState_shadows (le : st.stats.total ≤ limit) :
    Shadows limit (convertState (p.withLimit none) source)
      (convertState (p.withLimit (some limit)) source) st notes := by
  unfold convertState
  refine .step (untold_prepare p source) le fun start st₁ same => ?_
  refine (rounds_shadows ⟨p.config, p.target, start.2.1⟩ p.number start.2.2 false
    (same.trans_le le)).bind (fun made st notes le => ?_) (fun made => ?_) fun made => ?_
  · exact .inl ⟨rfl, (total_of_untold (untold_conclude p start.1 made) st).trans_le le⟩
  · exact .silent (untold_conclude _ _ made)
  · exact (Records.silent (untold_conclude _ _ made)).counts

end Limited

section Programs

variable {limit : Nat} {p : Pass} {log : Array Event} {notes : List Made}

/-- The notes on a procedure are the conversions that the converter counts for it, and without them its
run is the same. -/
private theorem runProcedure_counts (p : Pass) (source : Pass.LoopSource) (f : Procedure) (log : Array Event)
    (notes : List Made) : ∃ more, ((runProcedure p source f).run (log, notes)).2.2 = notes ++ more ∧
      (∀ out, ((runProcedure p source f).run (log, notes)).1 = .ok out →
        out.pass.config = p.config ∧
          out.pass.stats.made = (more.map Made.kind).reverse ++ p.stats.made) ∧
      (p.runProcedure source f).run log = (((runProcedure p source f).run (log, notes)).1,
        ((runProcedure p source f).run (log, notes)).2.1) := by
  by_cases covered : p.config.covers p.number = true
  · obtain ⟨more, run, made⟩ := records_convertState p source (start p f log) notes
    rw [runProcedure_covered source f covered, outcome_notes, run,
      run_covered source f covered log (notes ++ more)]
    refine ⟨more, rfl, fun out ended => ?_, rfl⟩
    rw [outcome_pass ended]
    exact ⟨rfl, made⟩
  · unfold Pass.runProcedure
    rw [runProcedure_skipped source f covered, if_neg covered]
    refine ⟨[], (List.append_nil notes).symm, fun out ended => ?_, rfl⟩
    cases ended
    exact ⟨rfl, rfl⟩

private theorem total_of_made {stats stats' : Stats} {more : List Made}
    (h : stats.made = (more.map Made.kind).reverse ++ stats'.made) :
    stats.total = stats'.total + more.length := by
  unfold Stats.total
  rw [h, List.length_append, List.length_reverse, List.length_map, Nat.add_comm]

def relimit (limit : Option Nat) (out : Pass.Outcome) : Pass.Outcome :=
  { out with pass := out.pass.withLimit limit }

private theorem outcome_withLimit (p : Pass) (limit : Option Nat)
    (r : Except Stop Bool × State × List Made) :
    outcome (p.withLimit limit) r = ((outcome p r).1.map (relimit limit), (outcome p r).2) := by
  rcases r with ⟨(e | e) | changed, st, notes⟩ <;> rfl

/-- A limited run on a procedure has the same outcome and the same notes, or it has come to the limit
and has noted a first part. -/
private theorem runProcedure_shadows (unlimited : p.config.limit = none) (source : Pass.LoopSource)
    (f : Procedure) (le : p.stats.total ≤ limit)
    {u l : Except Fault Pass.Outcome × Array Event × List Made}
    (runU : (runProcedure p source f).run (log, notes) = u)
    (runL : (runProcedure (p.withLimit (some limit)) source f).run (log, notes) = l) :
    (l = (u.1.map (relimit (some limit)), u.2) ∧ u.2.2.length + p.stats.total ≤ notes.length + limit ∧
        ∀ out, u.1 = .ok out → out.pass.stats.total ≤ limit) ∨
      (∃ more, u.2.2 = l.2.2 ++ more) ∧ l.2.2.length + p.stats.total = notes.length + limit ∧
        ∀ out, l.1 = .ok out → out.pass.stats.total = limit := by
  by_cases covered : p.config.covers p.number = true
  · have shadows : Shadows limit (convertState p source)
        (convertState (p.withLimit (some limit)) source) (start p f log) notes := by
      have shadows : Shadows limit _ _ (start p f log) notes := convertState_shadows p source le
      rwa [Pass.withLimit_self unlimited] at shadows
    have ended := runProcedure_covered (p := p.withLimit (some limit)) source f covered log notes
    rw [runProcedure_covered source f covered] at runU
    rw [ended] at runL
    subst runU runL
    rw [outcome_notes]
    rcases shadows with ⟨same, within⟩ | ⟨full, more, noted⟩
    · have length : _ + p.stats.total = _ :=
        (records_convertState p source).counts.length (start p f log) notes
      refine .inl ⟨?_, by omega, fun out ended => ?_⟩
      · rw [← outcome_withLimit, ← same]
        rfl
      · rw [outcome_pass ended]
        exact within
    · have length : _ + p.stats.total = _ :=
        (records_convertState (p.withLimit (some limit)) source).counts.length (start p f log) notes
      refine .inr ⟨⟨more, ?_⟩, ?_, fun out ended => ?_⟩
      · rw [outcome_notes]
        exact noted
      · rw [outcome_notes]
        change List.length (ExceptT.run (convertState _ source) (start p f log, notes)).2.2 + _ = _
        omega
      · rw [outcome_pass ended]
        exact full
  · have ended := runProcedure_skipped (p := p.withLimit (some limit)) source f covered log notes
    rw [runProcedure_skipped source f covered] at runU
    rw [ended] at runL
    subst runU runL
    refine .inl ⟨rfl, Nat.add_le_add_left le _, fun out ended => ?_⟩
    cases ended
    exact le

/-- What follows on the conversion of one procedure. -/
def follow (changed : Bool) (done : List Procedure) (f : Procedure) (rest : List Procedure)
    (out : Pass.Outcome) : Noting Fault (Array Event) Pass.ProgramOutcome :=
  match out.failure with
  | none => runFrom out.pass (changed || out.changed) (out.procedure :: done) rest
  | some e =>
    return { pass := out.pass, program := done.reverse ++ out.procedure :: rest, changed
             failure := some (f.name, e) }

private theorem runFrom_cons (p : Pass) (changed : Bool) (done : List Procedure) (f : Procedure)
    (rest : List Procedure) : runFrom p changed done (f :: rest) =
      runProcedure p .found f >>= follow changed done f rest := rfl

private theorem runFrom_counts (p : Pass) (changed : Bool) (done rest : List Procedure) (log : Array Event)
    (notes : List Made) :
    ∃ more, ((runFrom p changed done rest).run (log, notes)).2.2 = notes ++ more ∧
      (∀ out, ((runFrom p changed done rest).run (log, notes)).1 = .ok out →
        out.pass.stats.made = (more.map Made.kind).reverse ++ p.stats.made) ∧
      (p.runFrom changed done rest).run log = (((runFrom p changed done rest).run (log, notes)).1,
        ((runFrom p changed done rest).run (log, notes)).2.1) := by
  induction rest generalizing p changed done log notes with
  | nil =>
    refine ⟨[], (List.append_nil notes).symm, fun out ended => ?_, rfl⟩
    cases ended
    rfl
  | cons f rest ih =>
    obtain ⟨more, noted, counted, same⟩ := runProcedure_counts p .found f log notes
    rw [Pass.runFrom, runFrom_cons, run_bind, run_bind, same]
    rcases run : (runProcedure p .found f).run (log, notes) with ⟨e | out, log', notes'⟩
    · rw [run] at noted
      exact ⟨more, noted, fun out ended => (nomatch ended), rfl⟩
    · simp only [run] at noted counted
      dsimp only [follow]
      cases out.failure with
      | some e =>
        refine ⟨more, noted, fun out' ended => ?_, rfl⟩
        cases ended
        exact (counted out rfl).2
      | none =>
        obtain ⟨more', noted', counted', same'⟩ :=
          ih out.pass (changed || out.changed) (out.procedure :: done) log' notes'
        refine ⟨more ++ more', ?_, fun out' ended => ?_, same'⟩
        · rw [noted', noted, List.append_assoc]
        · rw [counted' out' ended, (counted out rfl).2, List.map_append, List.reverse_append,
            List.append_assoc]

private theorem follow_adds (changed : Bool) (done : List Procedure) (f : Procedure) (rest : List Procedure)
    (out : Pass.Outcome) (log : Array Event) (notes : List Made) :
    ∃ more, ((follow changed done f rest out).run (log, notes)).2.2 = notes ++ more := by
  unfold follow
  cases out.failure with
  | some e => exact ⟨[], (List.append_nil notes).symm⟩
  | none =>
    obtain ⟨more, noted, -⟩ := runFrom_counts out.pass (changed || out.changed)
      (out.procedure :: done) rest log notes
    exact ⟨more, noted⟩

private theorem runFrom_idle (limited : p.config.limit = some limit) (full : limit ≤ p.stats.total)
    (changed : Bool) (done rest : List Procedure) (log : Array Event) (notes : List Made) :
    ((runFrom p changed done rest).run (log, notes)).2.2 = notes := by
  induction rest generalizing p changed done log notes with
  | nil => rfl
  | cons f rest ih =>
    have still : ((runProcedure p .found f).run (log, notes)).2.2 = notes := by
      by_cases covered : p.config.covers p.number = true
      · rw [runProcedure_covered .found f covered, outcome_notes]
        have idle : Idle limit _ := convertState_idle p .found
        rw [Pass.withLimit_self limited] at idle
        exact (idle (start p f log) notes full).1
      · rw [runProcedure_skipped .found f covered]
    obtain ⟨more, noted, counted, -⟩ := runProcedure_counts p .found f log notes
    rw [runFrom_cons, run_bind]
    rcases run : (runProcedure p .found f).run (log, notes) with ⟨e | out, log', notes'⟩
    · rw [run] at still
      exact still
    · simp only [run] at still noted counted
      subst still
      dsimp only [follow]
      cases out.failure with
      | some e => rfl
      | none =>
        obtain ⟨config, made⟩ := counted out rfl
        have none : more = [] := by simpa using noted
        refine ih (by rw [config, limited]) ?_ _ _ log' notes'
        unfold Stats.total at full ⊢
        rw [made, none]
        exact full

private theorem follow_idle {out : Pass.Outcome} (limited : out.pass.config.limit = some limit)
    (full : limit ≤ out.pass.stats.total) (changed : Bool) (done : List Procedure) (f : Procedure)
    (rest : List Procedure) (log : Array Event) (notes : List Made) :
    ((follow changed done f rest out).run (log, notes)).2.2 = notes := by
  unfold follow
  cases out.failure with
  | some e => rfl
  | none => exact runFrom_idle limited full _ _ rest log notes

private theorem runFrom_limited (unlimited : p.config.limit = none) (le : p.stats.total ≤ limit)
    (changed : Bool) (done rest : List Procedure) (log : Array Event) (notes : List Made) :
    ∃ more, ((runFrom p changed done rest).run (log, notes)).2.2 = notes ++ more ∧
      ((runFrom (p.withLimit (some limit)) changed done rest).run (log, notes)).2.2 =
        notes ++ more.take (limit - p.stats.total) := by
  induction rest generalizing p changed done log notes with
  | nil => exact ⟨[], (List.append_nil notes).symm, by rw [List.take_nil, List.append_nil]; rfl⟩
  | cons f rest ih =>
    obtain ⟨more, noted, counted, -⟩ := runProcedure_counts p .found f log notes
    obtain ⟨more', noted', counted', -⟩ :=
      runProcedure_counts (p.withLimit (some limit)) .found f log notes
    rcases runU : (runProcedure p .found f).run (log, notes) with ⟨resultU, logU, notesU⟩
    rcases runL : (runProcedure (p.withLimit (some limit)) .found f).run (log, notes)
      with ⟨resultL, logL, notesL⟩
    simp only [runU] at noted counted
    simp only [runL] at noted' counted'
    rw [runFrom_cons, runFrom_cons]
    rcases runProcedure_shadows unlimited .found f le runU runL with
      ⟨same, short, within⟩ | ⟨⟨extra, longer⟩, length, full⟩
    · -- both are still in the same state
      obtain ⟨rfl, rfl, rfl⟩ : resultL = resultU.map (relimit (some limit)) ∧ logL = logU ∧
          notesL = notesU := by simpa using same
      rw [run_bind, run_bind, runU, runL]
      have fits : more.length ≤ limit - p.stats.total := by
        rw [noted, List.length_append] at short
        omega
      cases resultU with
      | error e => exact ⟨more, noted, by rw [List.take_of_length_le fits]; exact noted⟩
      | ok out =>
        obtain ⟨config, made⟩ := counted out rfl
        change ∃ more, ((follow changed done f rest out).run (logL, notesL)).2.2 = _ ∧
          ((follow changed done f rest (relimit (some limit) out)).run (logL, notesL)).2.2 = _
        dsimp only [follow, relimit]
        cases out.failure with
        | some e => exact ⟨more, noted, by rw [List.take_of_length_le fits]; exact noted⟩
        | none =>
          obtain ⟨later, noted₁, noted₂⟩ := ih (by rw [config, unlimited]) (within out rfl)
            (changed || out.changed) (out.procedure :: done) logL notesL
          refine ⟨more ++ later, ?_, noted₂.trans ?_⟩
          · rw [noted₁, noted, List.append_assoc]
          · rw [List.take_append, List.take_of_length_le fits, total_of_made made, noted,
              List.append_assoc, Nat.sub_add_eq, Nat.sub_right_comm]
    · -- the limit is reached, and nothing is added to the notes of the limited run
      dsimp only at longer length full
      have exhausted : more'.length = limit - p.stats.total := by
        rw [noted', List.length_append] at length
        omega
      have still : ((runProcedure (p.withLimit (some limit)) .found f >>=
          follow changed done f rest).run (log, notes)).2.2 = notesL := by
        rw [run_bind, runL]
        cases resultL with
        | error e => rfl
        | ok out =>
          exact follow_idle (by rw [(counted' out rfl).1]; rfl) (full out rfl).ge _ _ _ _ _ _
      obtain ⟨later, adds⟩ : ∃ later, ((runProcedure p .found f >>=
          follow changed done f rest).run (log, notes)).2.2 = notesU ++ later := by
        rw [run_bind, runU]
        cases resultU with
        | error e => exact ⟨[], (List.append_nil notesU).symm⟩
        | ok out => exact follow_adds _ _ _ _ out logU notesU
      refine ⟨more' ++ (extra ++ later), ?_, ?_⟩
      · rw [adds, longer, noted', List.append_assoc, List.append_assoc]
      · rw [still, noted', ← exhausted, List.take_left]

end Programs

end Noting

namespace Pass

open Noting

/-- The run of the converter on a program, with notes. -/
def noted (p : Pass) (program : Program) : Noting Fault (Array Event) ProgramOutcome :=
  Noting.runFrom p false [] program

/-- The conversions that a run makes, in order and across all the procedures of the program. -/
def conversions (p : Pass) (program : Program) (log : Array Event) : List Made :=
  ((p.noted program).run (log, [])).2.2

private theorem made_of_run {p : Pass} {program : Program} {log log' : Array Event} {out : ProgramOutcome}
    (run : (p.run program).run log = (.ok out, log')) :
    out.pass.stats.made = ((p.conversions program log).map Made.kind).reverse ++ p.stats.made := by
  obtain ⟨more, noted, counted, same⟩ := runFrom_counts p false [] program log []
  have made := counted out (congrArg Prod.fst (same.symm.trans run))
  unfold conversions Pass.noted
  rw [made, noted, List.nil_append]

private theorem erases_noted (p : Pass) (program : Program) : Erases (p.noted program) (p.run program) := by
  intro log notes
  obtain ⟨more, -, -, same⟩ := runFrom_counts p false [] program log notes
  unfold Pass.run
  rw [same]
  exact ⟨_, rfl⟩

/-- A limited run makes the first conversions of the run without a limit, up to the limit, each of them
on the same procedure with the same result. The notes are those of the run itself: without them it is
the same run, and they are what it counts. -/
theorem conversions_limited (p : Pass) (program : Program) (limit : Nat) (log : Array Event) :
    (p.withLimit (some limit)).conversions program log =
        ((p.withLimit none).conversions program log).take (limit - p.stats.total) ∧
      ∀ bound : Option Nat,
        Erases ((p.withLimit bound).noted program) ((p.withLimit bound).run program) ∧
          ∀ out log', ((p.withLimit bound).run program).run log = (.ok out, log') →
            out.pass.stats.made =
              (((p.withLimit bound).conversions program log).map Made.kind).reverse ++
                p.stats.made := by
  refine ⟨?_, fun bound => ⟨erases_noted _ program, fun out log' => made_of_run⟩⟩
  unfold conversions Pass.noted
  rcases Nat.le_total p.stats.total limit with le | full
  · obtain ⟨more, all, first⟩ :=
      runFrom_limited (p := p.withLimit none) rfl le false [] program log []
    rw [all]
    exact first
  · have none : ((p.withLimit (some limit)).stats.total) = p.stats.total := rfl
    rw [runFrom_idle rfl (full.trans_eq none.symm), Nat.sub_eq_zero_of_le full, List.take_zero]

end Pass

end Predication
