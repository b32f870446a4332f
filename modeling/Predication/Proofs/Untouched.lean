import Predication.Proofs.Limits
import Predication.Proofs.RoundCounts
import Predication.Proofs.Standstill

/-!
Procedures that are left as they are. The analysis only reads a procedure, and a conversion that is
refused is refused before its first edit. So a run of the converter that tells of no change has made
no conversion and no step of a cleanup, and the procedure is what it was.
-/

set_option autoImplicit false
set_option relaxedAutoImplicit false

namespace Predication

namespace Conversion

namespace Convert

variable {α β : Type} {st mid st' : State} {b : BlockId}

structure Untouched (st st' : State) : Prop where
  procedure : st'.procedure = st.procedure
  made : st'.stats.made = st.stats.made

private theorem Untouched.refl (st : State) : Untouched st st := ⟨rfl, rfl⟩

private theorem Untouched.trans (h : Untouched st mid) (h' : Untouched mid st') : Untouched st st' :=
  ⟨h'.procedure.trans h.procedure, h'.made.trans h.made⟩

def Reads (m : Convert α) : Prop := ∀ st a st', Yields m st a st' → Untouched st st'

theorem reads_bind {m : Convert α} {k : α → Convert β} (h : Reads m) (h' : ∀ a, Reads (k a)) :
    Reads (m >>= k) := by
  intro st b st' run
  obtain ⟨a, mid, first, rest⟩ := yields_bind.mp run
  exact (h st a mid first).trans (h' a mid b st' rest)

theorem reads_pure (a : α) : Reads (pure a : Convert α) := by
  intro st b st' run
  obtain ⟨-, rfl⟩ := yields_pure.mp run
  exact .refl st

theorem reads_throw (e : Stop) : Reads (throw e : Convert α) :=
  fun _ _ _ run => absurd run not_yields_throw

private theorem reads_get : Reads (get : Convert State) := by
  intro st a st' run
  obtain ⟨-, rfl⟩ := yields_get.mp run
  exact .refl st

private theorem reads_modify {u : State → State} (procedure : ∀ st, (u st).procedure = st.procedure)
    (made : ∀ st, (u st).stats.made = st.stats.made) : Reads (modify u : Convert Unit) := by
  intro st x st' run
  obtain rfl := yields_modify.mp run
  exact ⟨procedure st, made st⟩

private theorem reads_ofExcept (x : Except Fault α) : Reads (ofExcept x) := by
  intro st a st' run
  obtain ⟨-, rfl⟩ := yields_ofExcept.mp run
  exact .refl st

theorem reads_procedure : Reads procedure := reads_bind reads_get fun st => reads_pure st.procedure

theorem reads_query (g : Procedure → Except Fault α) : Reads (query g) :=
  reads_bind reads_get fun st => reads_ofExcept (g st.procedure)

theorem reads_report (e : Event) : Reads (report e) := reads_modify (fun _ => rfl) fun _ => rfl

theorem reads_info (b : BlockId) : Reads (info b) :=
  reads_bind reads_get fun st => reads_ofExcept (Arena.get st.infos b)

theorem reads_setInfo (b : BlockId) (u : Summary → Summary) : Reads (setInfo b u) :=
  reads_bind reads_get fun _ => reads_bind (reads_ofExcept _) fun _ =>
    reads_modify (fun _ => rfl) fun _ => rfl

private theorem reads_visit (b : BlockId) : Reads (visit b) :=
  reads_bind reads_get fun _ => reads_bind (reads_ofExcept _) fun _ =>
    reads_bind (reads_modify (fun _ => rfl) fun _ => rfl) fun _ => reads_pure _

theorem composes_reads : Composes Reads :=
  ⟨reads_bind, reads_pure, fun e _ => reads_throw e, reads_procedure, reads_query, reads_ofExcept, reads_info,
    reads_report⟩

def Refuses (m : Convert Bool) : Prop := ∀ st st', Yields m st false st' → Untouched st st'

private theorem Refuses.of_reads {m : Convert Bool} (h : Reads m) : Refuses m :=
  fun st st' => h st false st'

theorem Refuses.after {m : Convert α} {k : α → Convert Bool} (h : Reads m)
    (h' : ∀ a, Refuses (k a)) : Refuses (m >>= k) := by
  intro st st' run
  obtain ⟨a, mid, first, rest⟩ := yields_bind.mp run
  exact (h st a mid first).trans (h' a mid st' rest)

def Agrees (m : Convert Bool) : Prop := ∀ st st', ¬ Yields m st false st'

private theorem Agrees.refuses {m : Convert Bool} (h : Agrees m) : Refuses m :=
  fun st st' run => absurd run (h st st')

private theorem agrees_pure : Agrees (pure true) := by
  intro st st' run
  cases (yields_pure.mp run).1

theorem Agrees.after {m : Convert α} {k : α → Convert Bool} (h : ∀ a, Agrees (k a)) :
    Agrees (m >>= k) := by
  intro st st' run
  obtain ⟨a, mid, -, rest⟩ := yields_bind.mp run
  exact h a mid st' rest

end Convert

open Predication.Conversion.Convert

variable (t : Target) (s : Setting) (b : BlockId)

section Arms

private theorem converting_refuses : Converting t Reads (fun _ => True) (fun _ _ => Agrees)
    (fun _ _ => Refuses)
    (fun _ => Refuses) where
  bind _ _ := trivial
  pure _ := trivial
  throw _ _ := trivial
  procedure := trivial
  query _ := trivial
  ofExcept _ := trivial
  info _ := trivial
  report _ := trivial
  edit _ := trivial
  editWith _ := trivial
  setInfo _ _ _ _ := trivial
  made := agrees_pure
  step _ := .after
  guarded := .after
  copied := .after
  retired h := .after fun _ => h
  looks := composes_reads
  revisits b := reads_setInfo b _
  look := .after
  agreed h := h.refuses
  refused := .of_reads (reads_pure false)
  arm {b which _ _} h := by
    refine .after (reads_info b) fun head => .after (composes_reads.armsOf head which) fun r => ?_
    obtain ⟨k, same, yes, no⟩ := h head r.1 r.2
    rw [same]
    refine .after (composes_reads.isUsable r.1) fun usable => ?_
    cases usable with
    | false => exact no
    | true => exact yes
  arms {b _ _} h := by
    refine .after (reads_info b) fun head => .after (reads_info _) fun taken => ?_
    exact .after (reads_info _) fun other => h head taken other (some taken.block) fun _ => rfl

private theorem refuses_convert (c : Candidate) : Refuses (convert t c) := (converting_refuses t).convert c

end Arms

section Analysis

private theorem reads_enqueue (c : Candidate) : Reads (enqueue s c) := by
  unfold enqueue
  split
  · exact reads_pure ()
  · exact reads_bind (reads_modify (fun _ => rfl) fun _ => rfl) fun _ => reads_setInfo _ _

private theorem reads_look : Reads (look s b) := by
  refine reads_bind (reads_info b) fun i => ?_
  split
  · exact reads_pure none
  · exact reads_bind (reads_query _) fun i => reads_bind (reads_setInfo b _) fun _ => reads_pure _

private theorem reads_analyze : Reads (analyze s) :=
  Analyzing.analyze (P := Reads) { composes_reads with
    queued := fun _ => reads_bind reads_get fun _ => reads_report _
    enqueue := reads_enqueue s
    look := reads_look s
    finished := fun b => reads_setInfo b _
    visit := reads_visit
    sized := fun h => reads_bind reads_get fun _ => h _
    unsettled := reads_throw _
    start := reads_modify (fun _ => rfl) fun _ => rfl }

end Analysis

section Rounds

variable {st st' : State}

private theorem refuses_offer (c : Candidate) : Refuses (offer s c) := by
  have dequeued : Reads (dequeue c) :=
    reads_bind (reads_info _) fun _ => reads_bind (reads_setInfo _ _) fun _ => reads_pure _
  unfold offer
  refine .after dequeued fun wanted => ?_
  split
  · intro st st' run
    obtain ⟨ok, mid, first, rest⟩ := yields_bind.mp run
    -- the answer of the conversion is passed on
    have told : Reads (do
        let i ← info c.block
        let f ← procedure
        report (.tried c.kind (f.blockName c.block) (f.blockName? i.taken) (f.blockName? i.other) ok)
        return ok) :=
      reads_bind (reads_info _) fun i => reads_bind reads_procedure fun f =>
        reads_bind (reads_report _) fun _ => reads_pure ok
    have no : ok = false := by
      obtain ⟨i, _, -, rest⟩ := yields_bind.mp rest
      obtain ⟨f, _, -, rest⟩ := yields_bind.mp rest
      obtain ⟨u, _, -, rest⟩ := yields_bind.mp rest
      exact (yields_pure.mp rest).1
    rw [no] at first
    exact (refuses_convert s.target c st mid first).trans (told mid false st' rest)
  · exact .of_reads (reads_pure false)

private theorem tryAll_refuses {l : List Candidate} {changed : Bool}
    (run : Yields (tryAll s l changed) st false st') : changed = false ∧ Untouched st st' := by
  induction l generalizing st changed with
  | nil =>
    obtain ⟨same, rfl⟩ := yields_pure.mp run
    exact ⟨same, .refl st⟩
  | cons c l ih =>
    rw [tryAll_cons] at run
    obtain ⟨ok, mid, first, rest⟩ := yields_bind.mp run
    cases ok with
    | false =>
      obtain ⟨before, untouched⟩ := ih rest
      exact ⟨before, (refuses_offer s c st mid first).trans untouched⟩
    | true =>
      obtain ⟨u, mid, -, rest⟩ := yields_bind.mp rest
      obtain ⟨_, mid, -, rest⟩ := yields_bind.mp rest
      rcases yields_ite.mp rest with ⟨-, rest⟩ | ⟨-, rest⟩
      · cases (ih rest).1
      · cases (yields_pure.mp rest).1

private theorem refuses_round : Refuses (round s) := by
  unfold round
  refine .after (reads_analyze s) fun _ => .after reads_get fun _ => .after (reads_report _) fun _ => ?_
  refine .after reads_get fun st₀ st st' run => ?_
  obtain ⟨changed, mid, first, rest⟩ := yields_bind.mp run
  obtain ⟨u, mid', second, rest⟩ := yields_bind.mp rest
  obtain ⟨rfl, rfl⟩ := yields_pure.mp rest
  obtain rfl := yields_modify.mp second
  exact (tryAll_refuses s first).2.trans ⟨rfl, rfl⟩

private theorem rounds_refuses {fuel : Nat} {changed : Bool}
    (run : Yields (rounds s fuel changed) st false st') : changed = false ∧ Untouched st st' := by
  induction fuel generalizing st changed with
  | zero => exact absurd run not_yields_throw
  | succ fuel ih =>
    unfold rounds at run
    obtain ⟨_, mid, first, rest⟩ := yields_bind.mp run
    obtain ⟨rfl, rfl⟩ := yields_get.mp first
    rcases yields_ite.mp rest with ⟨-, rest⟩ | ⟨-, rest⟩
    · obtain ⟨again, mid, second, rest⟩ := yields_bind.mp rest
      cases again with
      | false =>
        obtain ⟨same, rfl⟩ := yields_pure.mp rest
        exact ⟨same, refuses_round s _ _ second⟩
      | true => cases (ih rest).1
    · obtain ⟨same, rfl⟩ := yields_pure.mp rest
      exact ⟨same, .refl _⟩

private theorem refuses_cleanUp : Refuses cleanUp := by
  intro st st' run
  obtain ⟨g, log, log', ran, rfl⟩ := yields_cleanUp run
  exact ⟨Cleanup.run_silent #[] _ _ ran rfl, rfl⟩

end Rounds

end Conversion

namespace Pass

open Conversion Conversion.Convert

variable {p : Pass} {source : LoopSource} {st st' : State}

private theorem prepare_refuses {r : Option LoopTable × Nat}
    (run : Yields (p.prepare source) st (false, r) st') : Untouched st st' := by
  obtain ⟨taken, mid, same, stats, cleans, listed⟩ := yields_prepare run
  have kept : Untouched taken mid := by
    rcases cleans with cleans | ⟨-, rfl⟩
    · exact refuses_cleanUp _ _ cleans
    · exact .refl _
  have last := composes_reads.reportListing _ _ _ () st' listed
  exact ⟨last.procedure.trans (kept.procedure.trans same), last.made.trans (kept.made.trans (stats ▸ rfl))⟩

private theorem conclude_refuses {cleaned made : Bool}
    (run : Yields (p.conclude cleaned made) st false st') :
    cleaned = false ∧ made = false ∧ Untouched st st' := by
  have told : ∀ {mid : State}, Yields (do
      reportListing p.listings .listingAfter
      if p.config.verify then
        ensureValid .invalid
      return cleaned || made) mid false st' → cleaned = false ∧ made = false ∧ Untouched mid st' := by
    intro mid run
    obtain ⟨x, listed, reported, run⟩ := yields_bind.mp run
    have same := composes_reads.reportListing _ _ _ x listed reported
    rcases yields_ite.mp run with ⟨-, run⟩ | ⟨-, run⟩
    · obtain ⟨x, checked, valid, run⟩ := yields_bind.mp run
      obtain ⟨answer, rfl⟩ := yields_pure.mp run
      obtain ⟨clean, unmade⟩ := Bool.or_eq_false_iff.mp answer
      exact ⟨clean, unmade, same.trans (composes_reads.ensureValid _ _ x _ valid)⟩
    · obtain ⟨answer, rfl⟩ := yields_pure.mp run
      obtain ⟨clean, unmade⟩ := Bool.or_eq_false_iff.mp answer
      exact ⟨clean, unmade, same⟩
  unfold conclude at run
  rcases yields_ite.mp run with ⟨both, run⟩ | ⟨-, run⟩
  · obtain ⟨x, mid, -, run⟩ := yields_bind.mp run
    obtain ⟨-, unmade, -⟩ := told run
    rw [unmade] at both
    cases both
  · exact told run

private theorem refuses_convertState : Refuses (p.convertState source) := by
  rw [convertState_eq]
  intro st st' run
  obtain ⟨⟨cleaned, loops, fuel⟩, mid, first, run⟩ := yields_bind.mp run
  obtain ⟨made, mid', second, run⟩ := yields_bind.mp run
  obtain ⟨rfl, rfl, last⟩ := conclude_refuses run
  exact (prepare_refuses first).trans ((rounds_refuses _ second).2.trans last)

/-- A procedure that is reported as unchanged is what it was, whatever candidates were found and
refused on the way; and where a conversion was made, a change is reported. -/
theorem unchanged_of_runProcedure (p : Pass) (source : LoopSource) (f : Procedure)
    {log log' : Array Event} {out : Outcome}
    (run : (p.runProcedure source f).run log = (.ok out, log')) :
    (out.changed = false → out.procedure = f) ∧
      (out.pass.stats.made ≠ p.stats.made → out.changed = true) := by
  have kept : out.changed = false → out.procedure = f ∧ out.pass.stats.made = p.stats.made := by
    intro same
    by_cases covered : p.config.covers p.number = true
    · rw [Noting.run_covered source f covered log []] at run
      rcases ended : (p.convertState source).run (Noting.start p f log) with ⟨(e | e | _) | changed, st⟩
      · rw [ended] at run
        cases run
      · rw [ended] at run
        cases run
        cases same
      · rw [ended] at run
        cases run
      · rw [ended] at run
        cases run
        change changed = false at same
        rw [same] at ended
        have untouched := refuses_convertState (Noting.start p f log) st ended
        exact ⟨untouched.procedure, untouched.made⟩
    · unfold runProcedure at run
      rw [if_neg covered] at run
      cases run
      exact ⟨rfl, rfl⟩
  refine ⟨fun same => (kept same).1, fun made => ?_⟩
  by_contra same
  exact made (kept (by simpa using same)).2

/-- A converter that finds all candidates worth their cost, or none. -/
def headstrong (eager : Bool) : Pass where
  config := {}
  target :=
    { Datapath.standard.target with
      paysToGuard := fun _ _ _ _ => eager
      paysToGuardPair := fun _ _ _ _ _ _ => eager }

private theorem runProcedure_of_isTrue (p : Pass) (source : LoopSource) (f : Procedure)
    (good : Outcome → Bool)
    (h : (match ((p.runProcedure source f).run #[]).1 with
      | .ok out => good out
      | .error _ => false) = true) :
    ∃ out log, (p.runProcedure source f).run #[] = (.ok out, log) ∧ good out = true := by
  rcases run : (p.runProcedure source f).run #[] with ⟨e | out, log⟩
  · rw [run] at h
    cases h
  · rw [run] at h
    exact ⟨out, log, rfl, h⟩

theorem unchanged_of_runProcedure_fork :
    (∃ out log, ((headstrong false).runProcedure .found fork).run #[] = (.ok out, log) ∧
      out.changed = false ∧ out.procedure = fork) ∧
    ∃ out log, ((headstrong true).runProcedure .found fork).run #[] = (.ok out, log) ∧
      out.pass.stats.made = [.diamond] ∧ out.changed = true := by
  have spared := runProcedure_of_isTrue (headstrong false) .found fork (fun out => !out.changed)
    (by decide +kernel)
  have made := runProcedure_of_isTrue (headstrong true) .found fork
    (fun out => decide (out.pass.stats.made = [.diamond])) (by decide +kernel)
  obtain ⟨out, log, run, same⟩ := spared
  obtain ⟨out', log', run', one⟩ := made
  have same : out.changed = false := by simpa using same
  have one : out'.pass.stats.made = [.diamond] := by simpa using one
  refine ⟨⟨out, log, run, same, (unchanged_of_runProcedure _ _ _ run).1 same⟩,
    out', log', run', one, (unchanged_of_runProcedure _ _ _ run').2 ?_⟩
  rw [one]
  decide

end Pass

end Predication
