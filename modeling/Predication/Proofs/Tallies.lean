import Predication.Proofs.Heaps
import Predication.Proofs.Independence

/-!
The tally of a converter. Only the guarding and the copying of a block and a conversion that was made
are counted, and only candidates of kinds that are allowed are queued. So after any runs that succeed the
conversions are within the limit and of allowed kinds, and there is one guarded or copied block for each of
them, and one more for each diamond.
-/

set_option autoImplicit false
set_option relaxedAutoImplicit false

namespace Predication

def Stats.treated (s : Stats) : Nat := s.guardedBlocks + s.copiedBlocks

private theorem Kind.code_ne_zero (k : Kind) : k.code ≠ 0 := by
  cases k with
  | simple arm => cases arm <;> decide
  | triangle arm reversed => cases arm <;> cases reversed <;> decide
  | diamond => decide

namespace Conversion

namespace Convert

variable {α β : Type} {n i j : Nat} {P : α → Prop} {Q : β → Prop} {st mid st' : State}

def Quiet (m : Convert α) : Prop := ∀ {u : State → State}, Aside u → Commutes u m

def rebook (stats : Stats) (queue : Heap Candidate) (st : State) : State :=
  { st with stats := stats, queue := queue }

private theorem aside_rebook (stats : Stats) (queue : Heap Candidate) : Aside (rebook stats queue) :=
  ⟨fun _ => rfl, fun _ => rfl, fun _ _ => rfl, fun _ _ => rfl, fun _ _ => rfl⟩

private theorem Quiet.books {m : Convert α} (h : Quiet m) (st : State) :
    (m.run st).2.stats = st.stats ∧ (m.run st).2.queue = st.queue := by
  have same : m.run st = ((m.run st).1, rebook st.stats st.queue (m.run st).2) :=
    h (aside_rebook st.stats st.queue) st
  rw [same]
  exact ⟨rfl, rfl⟩

private theorem Quiet.yields {m : Convert α} {a : α} (h : Quiet m) (run : Yields m st a st') :
    st'.stats = st.stats ∧ st'.queue = st.queue := by
  have books := h.books st
  rw [run] at books
  exact books

/-- From one state to the other `n` blocks were guarded or copied. No conversion was counted, and the
queue is as it was. -/
structure Treated (n : Nat) (st st' : State) : Prop where
  queue : st'.queue = st.queue
  made : st'.stats.made = st.stats.made
  blocks : st'.stats.treated = st.stats.treated + n

private theorem Treated.trans (h : Treated i st mid) (h' : Treated j mid st') : Treated (i + j) st st' where
  queue := h'.queue.trans h.queue
  made := h'.made.trans h.made
  blocks := by
    rw [h'.blocks, h.blocks]
    omega

def Handles (n : Nat) (P : α → Prop) (m : Convert α) : Prop :=
  ∀ st a st', Yields m st a st' → P a ∧ Treated n st st'

private theorem Handles.bind {m : Convert α} {k : α → Convert β} (h : Handles i P m)
    (h' : ∀ a, P a → Handles j Q (k a)) : Handles (i + j) Q (m >>= k) := by
  intro st b st' run
  obtain ⟨a, mid, first, rest⟩ := yields_bind.mp run
  obtain ⟨found, treated⟩ := h st a mid first
  obtain ⟨holds, treated'⟩ := h' a found mid b st' rest
  exact ⟨holds, treated.trans treated'⟩

private theorem Handles.pure {a : α} (h : P a) : Handles 0 P (pure a) := by
  intro st b st' run
  obtain ⟨rfl, rfl⟩ := yields_pure.mp run
  exact ⟨h, rfl, rfl, rfl⟩

private theorem Quiet.handles {m : Convert α} (h : Quiet m) : Handles 0 (fun _ => True) m := by
  intro st a st' run
  obtain ⟨stats, queue⟩ := h.yields run
  exact ⟨trivial, queue, congrArg Stats.made stats, congrArg Stats.treated stats⟩

theorem Handles.after {m : Convert α} {k : α → Convert β} (h : Quiet m)
    (h' : ∀ a, Handles n Q (k a)) : Handles n Q (m >>= k) := by
  have both := h.handles.bind fun a _ => h' a
  rwa [Nat.zero_add] at both

private theorem Handles.then {m : Convert α} {k : α → Convert β} (h : Handles n P m)
    (h' : ∀ a, Handles 0 Q (k a)) : Handles n Q (m >>= k) :=
  h.bind fun a _ => h' a

private theorem handles_tally {g : Stats → Stats} (made : ∀ s, (g s).made = s.made)
    (blocks : ∀ s, (g s).treated = s.treated + n) : Handles n (fun _ => True) (tally g) := by
  intro st u st' run
  cases yields_tally.mp run
  exact ⟨trivial, rfl, made st.stats, blocks st.stats⟩

def Tries (n : Nat) (m : Convert Bool) : Prop :=
  ∀ st ok st', Yields m st ok st' → Treated (if ok then n else 0) st st'

theorem Tries.after {m : Convert α} {k : α → Convert Bool} (h : Quiet m)
    (h' : ∀ a, Tries n (k a)) : Tries n (m >>= k) := by
  intro st ok st' run
  obtain ⟨a, mid, first, rest⟩ := yields_bind.mp run
  have both := (h.handles st a mid first).2.trans (h' a mid ok st' rest)
  rwa [Nat.zero_add] at both

private theorem Handles.made {m : Convert Bool} (h : Handles n (· = true) m) : Tries n m := by
  intro st ok st' run
  obtain ⟨rfl, treated⟩ := h st ok st' run
  exact treated

private theorem Handles.refused {m : Convert Bool} (h : Handles 0 (· = false) m) : Tries n m := by
  intro st ok st' run
  obtain ⟨rfl, treated⟩ := h st ok st' run
  exact treated

end Convert

open Predication.Conversion.Convert

variable (t : Target)

section Conversions

variable (b : BlockId)

private theorem composes_quiet : Composes Quiet where
  bind h h' _ aside := commutes_bind (h aside) fun a => h' a aside
  pure a _ _ := commutes_pure a
  throw e _ _ _ := commutes_throw e
  procedure := commutes_procedure
  query g _ aside := commutes_query aside g
  ofExcept x _ _ := commutes_ofExcept x
  info b _ aside := commutes_info aside b
  report e _ aside := commutes_report aside e

private theorem pervasive_quiet : Pervasive Quiet :=
  { composes_quiet with
    edit := fun g _ aside => commutes_edit aside g
    editWith := fun g _ aside => commutes_editWith aside g
    setInfo := fun b g _ _ _ aside => commutes_setInfo aside b g }

private theorem handles_guardBlock (stop : Int) (c : Condition) (valued : BitSet) :
    Handles 1 (fun _ => True) (guardBlock t b stop c valued) := by
  refine .after (pervasive_quiet.query _) fun code => ?_
  refine .after (pervasive_quiet.guardCode t b c valued code) fun valued => ?_
  refine .after (commutes_setInfo · b _) fun _ => ?_
  exact .then (handles_tally (fun _ => rfl) fun s => Nat.add_right_comm _ _ _) fun _ => .pure trivial

private theorem handles_copyBlock (source : BlockId) (c : Condition) (valued : BitSet) (branches : Bool) :
    Handles 1 (fun _ => True) (copyBlock t b source c valued branches) := by
  refine .after (pervasive_quiet.query _) fun code => ?_
  refine .after (pervasive_quiet.copyCode t b c valued branches code) fun _ => ?_
  have charged : Handles 1 (fun _ => True) (do
      let src ← info source
      setInfo b fun i =>
        { i with
          guard := (i.guard.conj src.guard).conj c
          clobbers := i.clobbers || src.clobbers
          visit := .unvisited }
      tally fun s => { s with copiedBlocks := s.copiedBlocks + 1 }) := by
    refine .after (commutes_info · source) fun src => .after (commutes_setInfo · b _) fun _ => ?_
    exact handles_tally (fun _ => rfl) fun _ => rfl
  split
  · refine .after (composes_quiet.branchSuccs source) fun succs => .after ?_ fun _ => charged
    exact composes_quiet.forM succs fun s =>
      pervasive_quiet.bind (pervasive_quiet.edit _) fun _ => pervasive_quiet.extendPhis s b source c
  · exact charged

private theorem handles_more {α : Type} {n : Nat} {m : Convert α} {k : α → Convert Bool}
    (h : Handles 1 (fun _ => True) m) (h' : ∀ a, Handles n (· = true) (k a)) :
    Handles (n + 1) (· = true) (m >>= k) := by
  rw [Nat.add_comm]
  exact h.bind fun a _ => h' a

private theorem converting_tallies : Converting t Quiet Quiet (fun _ n => Handles n (· = true))
    (fun _ => Tries) Tries where
  toPervasive := pervasive_quiet
  made := .pure rfl
  step := .after
  guarded := handles_more (handles_guardBlock t _ _ _ _)
  copied := handles_more (handles_copyBlock t _ _ _ _ _)
  retired h := .after (pervasive_quiet.retire _) fun _ => h
  looks := composes_quiet
  revisits := pervasive_quiet.revisit
  look := .after
  agreed h := h.made
  refused := Handles.refused (.pure rfl)
  arm {b which _ _} h := by
    refine .after (commutes_info · b) fun head => .after (composes_quiet.armsOf head which) fun r => ?_
    obtain ⟨k, same, yes, no⟩ := h head r.1 r.2
    rw [same]
    refine .after (composes_quiet.isUsable r.1) fun usable => ?_
    cases usable with
    | false => exact no
    | true => exact yes
  arms {b _ _} h := by
    refine .after (commutes_info · b) fun head => .after (commutes_infoOf · _) fun taken => ?_
    exact .after (commutes_infoOf · _) fun other => h head taken other (some taken.block) fun _ => rfl

private theorem tries_convert (c : Candidate) : Tries c.kind.arms (convert t c) :=
    (converting_tallies t).convert c

end Conversions

section Analysis

variable (s : Setting)

def State.Allowed (st : State) : Prop :=
  ∀ c ∈ st.queue.entries, s.config.disabled.contains c.kind = false

def Lists {α : Type} (m : Convert α) : Prop :=
  ∀ st, (m.run st).2.stats = st.stats ∧ (st.Allowed s → (m.run st).2.Allowed s)

variable {s} {α β : Type}

private theorem lists_of_quiet {m : Convert α} (h : Quiet m) : Lists s m := by
  intro st
  obtain ⟨stats, queue⟩ := h.books st
  refine ⟨stats, fun allowed => ?_⟩
  unfold State.Allowed
  rw [queue]
  exact allowed

private theorem lists_bind {m : Convert α} {k : α → Convert β} (h : Lists s m) (h' : ∀ a, Lists s (k a)) :
    Lists s (m >>= k) := by
  intro st
  obtain ⟨stats, allowed⟩ := h st
  refine state_bind (P := fun st' : State => st'.stats = st.stats ∧ (st.Allowed s → st'.Allowed s))
    ⟨stats, allowed⟩ fun a => ?_
  obtain ⟨stats', allowed'⟩ := h' a (m.run st).2
  exact ⟨stats'.trans stats, fun start => allowed' (allowed start)⟩

private theorem lists_pure (a : α) : Lists s (pure a : Convert α) := fun _ => ⟨rfl, id⟩

private theorem lists_throw (e : Stop) : Lists s (throw e : Convert α) := fun _ => ⟨rfl, id⟩

private theorem lists_get : Lists s (get : Convert State) := fun _ => ⟨rfl, id⟩

private theorem lists_visit (b : BlockId) : Lists s (visit b) := by
  refine lists_bind lists_get fun st => lists_bind (lists_of_quiet fun _ => commutes_ofExcept _) ?_
  exact fun r => lists_bind (fun _ => ⟨rfl, id⟩) fun _ => lists_pure r.2

variable (s)

private theorem lists_enqueue (c : Candidate) : Lists s (enqueue s c) := by
  unfold enqueue
  split
  · exact lists_pure ()
  · rename_i allowed
    refine lists_bind (fun st => ⟨rfl, fun start d mem => ?_⟩) fun _ =>
      lists_of_quiet (commutes_setInfo · c.block _)
    rcases Heap.mem_push.mp mem with old | rfl
    · exact start d old
    · simpa using allowed

private theorem analyzing_lists : Analyzing s (Lists s) where
  bind := lists_bind
  pure := lists_pure
  throw e _ := lists_throw e
  procedure := lists_of_quiet commutes_procedure
  query g := lists_of_quiet (commutes_query · g)
  ofExcept x := lists_of_quiet fun _ => commutes_ofExcept x
  info b := lists_of_quiet (commutes_info · b)
  report e := lists_of_quiet (commutes_report · e)
  queued _ := lists_bind lists_get fun _ => lists_of_quiet (commutes_report · _)
  enqueue := lists_enqueue s
  look b := lists_of_quiet fun aside => by
    unfold look
    grind
  finished b := lists_of_quiet (commutes_setInfo · b _)
  visit := lists_visit
  sized h := lists_bind lists_get fun _ => h _
  unsettled := lists_throw _
  start _ := ⟨rfl, id⟩

private theorem lists_analyze : Lists s (analyze s) := (analyzing_lists s).analyze

end Analysis

end Conversion

/-- The tally keeps to the settings: the conversions are within the limit and of allowed kinds, and their
arms are the blocks that were treated. -/
structure Stats.Within (c : Config) (s : Stats) : Prop where
  limit : ∀ n, c.limit = some n → s.total ≤ n
  allowed : ∀ k ∈ s.made, c.disabled.contains k = false
  blocks : s.treated = s.total + s.count .diamond

private theorem Stats.isUnder_congr {s s' : Stats} (made : s'.made = s.made) (limit : Option Nat) :
    s'.isUnder limit = s.isUnder limit := by
  unfold Stats.isUnder Stats.total
  rw [made]

private theorem Stats.Within.congr {c : Config} {s s' : Stats} (h : s.Within c) (made : s'.made = s.made)
    (blocks : s'.treated = s.treated) : s'.Within c := by
  obtain ⟨limit, allowed, count⟩ := h
  refine ⟨?_, ?_, ?_⟩
  · unfold Stats.total at *
    rwa [made]
  · rwa [made]
  · rw [blocks, count]
    unfold Stats.total Stats.count
    rw [made]

private theorem Stats.Within.add {c : Config} {s s' : Stats} {k : Kind} (h : s.Within c)
    (under : s.isUnder c.limit = true) (allowed : c.disabled.contains k = false)
    (made : s'.made = k :: s.made) (blocks : s'.treated = s.treated + k.arms) : s'.Within c where
  limit n limited := by
    rw [limited] at under
    have room : s.total < n := of_decide_eq_true under
    unfold Stats.total at *
    rw [made, List.length_cons]
    exact room
  allowed := by
    intro j mem
    rw [made] at mem
    rcases List.mem_cons.mp mem with rfl | mem
    · exact allowed
    · exact h.allowed j mem
  blocks := by
    rw [blocks, h.blocks]
    unfold Stats.total Stats.count
    rw [made, List.length_cons, List.count_cons]
    cases k with
    | diamond => simp [Kind.arms]; omega
    | simple arm => simp [Kind.arms]; omega
    | triangle arm reversed => simp [Kind.arms]; omega

namespace Conversion

open Predication.Conversion.Convert

section Rounds

variable {s : Setting} {st st' : State}

private theorem tries_offer (c : Candidate) : Tries c.kind.arms (offer s c) := by
  unfold offer
  have taken : Quiet (dequeue c) := by
    intro u aside
    unfold dequeue
    grind
  refine .after taken fun wanted => ?_
  split
  · intro st ok st' run
    obtain ⟨made, mid, converted, rest⟩ := yields_bind.mp run
    have told : Handles 0 (· = made) (do
        let i ← info c.block
        let f ← procedure
        report (.tried c.kind (f.blockName c.block) (f.blockName? i.taken) (f.blockName? i.other) made)
        return made) := by
      refine .after (commutes_info · _) fun i => .after commutes_procedure fun f => ?_
      exact .after (commutes_report · _) fun _ => .pure rfl
    obtain ⟨rfl, treated⟩ := told mid ok st' rest
    exact (tries_convert s.target c st ok mid converted).trans treated
  · exact Handles.refused (.pure rfl)

private theorem approve_yields {c : Candidate} {x : Unit} (run : Yields (approve s c) st x st') :
    st'.stats = { st.stats with made := c.kind :: st.stats.made } := by
  unfold approve at run
  obtain ⟨y, mid, counted, rest⟩ := yields_bind.mp run
  obtain rfl := yields_tally.mp counted
  have checked : Quiet (if s.config.verify then
      procedure >>= fun f => ensureValid (.invalidAfter c.kind (f.blockName c.block)) else pure ()) := by
    intro u aside
    have checks := (composes_commutes aside).ensureValid
    grind
  exact (checked.yields rest).1

private theorem tryAll_within {l : List Candidate} {changed r : Bool}
    (allowed : ∀ c ∈ l, s.config.disabled.contains c.kind = false)
    (within : st.stats.Within s.config) (under : st.stats.isUnder s.config.limit = true)
    (run : Yields (tryAll s l changed) st r st') : st'.stats.Within s.config := by
  induction l generalizing st changed with
  | nil =>
    obtain ⟨-, rfl⟩ := yields_pure.mp run
    exact within
  | cons c l ih =>
    rw [tryAll_cons] at run
    obtain ⟨ok, mid, offered, run⟩ := yields_bind.mp run
    obtain ⟨-, made, blocks⟩ := tries_offer c st ok mid offered
    have others : ∀ c ∈ l, s.config.disabled.contains c.kind = false := fun c mem =>
      allowed c (List.mem_cons_of_mem _ mem)
    cases ok with
    | false =>
      refine ih others (within.congr made blocks) ?_ run
      rwa [Stats.isUnder_congr made]
    | true =>
      obtain ⟨x, told, approved, run⟩ := yields_bind.mp run
      have counted := approve_yields approved
      have added : told.stats.Within s.config := by
        refine within.add under (allowed c List.mem_cons_self) ?_ ?_
        · rw [counted, made]
        · rw [counted]
          exact blocks
      obtain ⟨now, seen, looked, run⟩ := yields_bind.mp run
      obtain ⟨rfl, rfl⟩ := yields_get.mp looked
      rcases yields_ite.mp run with ⟨under, run⟩ | ⟨-, run⟩
      · exact ih others added under run
      · obtain ⟨-, rfl⟩ := yields_pure.mp run
        exact added

private theorem round_within {r : Bool} (empty : st.queue = {}) (within : st.stats.Within s.config)
    (under : st.stats.isUnder s.config.limit = true) (run : Yields (round s) st r st') :
    st'.queue = {} ∧ st'.stats.Within s.config := by
  unfold round at run
  obtain ⟨x, mid, analyzed, run⟩ := yields_bind.mp run
  obtain ⟨stats, allowed⟩ := lists_analyze s st
  rw [analyzed] at stats allowed
  obtain ⟨now, seen, looked, run⟩ := yields_bind.mp run
  obtain ⟨rfl, rfl⟩ := yields_get.mp looked
  obtain ⟨y, told, reported, run⟩ := yields_bind.mp run
  obtain ⟨stats', queue⟩ := Quiet.yields (commutes_report · _) reported
  obtain ⟨now, seen, looked, run⟩ := yields_bind.mp run
  obtain ⟨rfl, rfl⟩ := yields_get.mp looked
  obtain ⟨changed, tried, conversions, run⟩ := yields_bind.mp run
  obtain ⟨z, ended, cleared, run⟩ := yields_bind.mp run
  obtain rfl := yields_modify.mp cleared
  obtain ⟨-, rfl⟩ := yields_pure.mp run
  have kept : tried.stats.Within s.config := by
    refine tryAll_within (fun c mem => ?_) ?_ ?_ conversions
    · have start : st.Allowed s := by
        intro c mem
        rw [empty] at mem
        exact absurd mem (Array.not_mem_empty c)
      refine allowed start c ?_
      rw [← queue]
      exact Heap.mem_drain mem
    · rw [stats', stats]
      exact within
    · rw [stats', stats]
      exact under
  exact ⟨rfl, kept⟩

private theorem rounds_within {fuel : Nat} {changed r : Bool} (empty : st.queue = {})
    (within : st.stats.Within s.config) (run : Yields (rounds s fuel changed) st r st') :
    st'.stats.Within s.config := by
  induction fuel generalizing st changed with
  | zero => exact absurd run not_yields_throw
  | succ fuel ih =>
    unfold rounds at run
    obtain ⟨now, seen, looked, run⟩ := yields_bind.mp run
    obtain ⟨rfl, rfl⟩ := yields_get.mp looked
    rcases yields_ite.mp run with ⟨under, run⟩ | ⟨-, run⟩
    · obtain ⟨again, mid, round, run⟩ := yields_bind.mp run
      obtain ⟨empty', within'⟩ := round_within empty within under round
      rcases yields_ite.mp run with ⟨-, run⟩ | ⟨-, run⟩
      · exact ih empty' within' run
      · obtain ⟨-, rfl⟩ := yields_pure.mp run
        exact within'
    · obtain ⟨-, rfl⟩ := yields_pure.mp run
      exact within

end Rounds

end Conversion

/-- The number lies before the first procedure that may be changed, or after the last one. -/
def Config.Excludes (c : Config) (number : Nat) : Prop :=
  (∃ first, c.first = some first ∧ (number : Int) < first) ∨
    ∃ last, c.last = some last ∧ last < (number : Int)

private theorem Config.covers_of_excludes {c : Config} {number : Nat} (h : c.Excludes number) :
    ¬ c.covers number = true := by
  unfold Config.covers
  rcases h with ⟨first, bound, out⟩ | ⟨last, bound, out⟩
  · rw [bound]
    simp only [Option.all_some, Bool.and_eq_true, decide_eq_true_eq]
    omega
  · rw [bound]
    simp only [Option.all_some, Bool.and_eq_true, decide_eq_true_eq]
    omega

namespace Pass

open Conversion Predication.Conversion.Convert

variable {p : Pass} {source : LoopSource} {f : Procedure} {log log' : Array Event}

private theorem prepare_yields {st st' : State} {r : Bool × Option LoopTable × Nat}
    (run : Yields (p.prepare source) st r st') : st'.stats = st.stats ∧ st'.queue = {} := by
  obtain ⟨taken, mid, -, stats, cleans, listed⟩ := yields_prepare run
  have kept : mid.stats = taken.stats := by
    rcases cleans with cleans | ⟨-, rfl⟩
    · exact (Quiet.yields commutes_cleanUp cleans).1
    · rfl
  obtain ⟨last, queue⟩ := Quiet.yields (fun u => (composes_commutes u).reportListing _ _) listed
  exact ⟨last.trans (kept.trans stats), queue⟩

private theorem convertState_within {st st' : State} {r : Bool} (within : st.stats.Within p.config)
    (run : Yields (p.convertState source) st r st') : st'.stats.Within p.config := by
  rw [convertState_eq] at run
  obtain ⟨⟨cleaned, loops, fuel⟩, ready, prepared, run⟩ := yields_bind.mp run
  obtain ⟨stats, empty⟩ := prepare_yields prepared
  obtain ⟨made, ended, rounds, run⟩ := yields_bind.mp run
  have kept : ended.stats.Within p.config := rounds_within empty (stats ▸ within) rounds
  rw [(Quiet.yields (commutes_conclude p · cleaned made) run).1]
  exact kept

private theorem runProcedure_within {out : Outcome} (within : p.stats.Within p.config)
    (run : (p.runProcedure source f).run log = (.ok out, log')) (ok : out.failure = none) :
    out.pass.stats.Within p.config := by
  by_cases covered : p.config.covers p.number = true
  · rw [Noting.run_covered source f covered log []] at run
    rcases ended : (p.convertState source).run (Noting.start p f log) with ⟨(e | e | _) | changed, st⟩
    · rw [ended] at run
      cases run
    · rw [ended] at run
      cases run
      cases ok
    · rw [ended] at run
      cases run
    · rw [ended] at run
      cases run
      have start : (Noting.start p f log).stats.Within p.config := within
      exact convertState_within start ended
  · unfold runProcedure at run
    rw [if_neg covered] at run
    cases run
    exact within

private theorem runProcedure_excluded (out : p.config.Excludes p.number) (source : LoopSource)
    (f : Procedure) (log : Array Event) :
    (p.runProcedure source f).run log =
      (.ok { pass := { p with number := p.number + 1 }, procedure := f, changed := false },
        log.push .skipped) := by
  unfold runProcedure
  rw [if_neg (Config.covers_of_excludes out)]
  rfl

inductive Chain : Pass → List Procedure → List Outcome → Pass → Prop
  | nil (p : Pass) : Chain p [] [] p
  | cons {p q : Pass} {f : Procedure} {fs : List Procedure} {out : Outcome} {outs : List Outcome}
      {log log' : Array Event} (run : (p.runProcedure .found f).run log = (.ok out, log'))
      (ok : out.failure = none) (rest : Chain out.pass fs outs q) : Chain p (f :: fs) (out :: outs) q

private theorem runFrom_chain {changed : Bool} {done fs : List Procedure} {out : ProgramOutcome}
    (run : (p.runFrom changed done fs).run log = (.ok out, log')) (ok : out.failure = none) :
    ∃ outs, Chain p fs outs out.pass ∧ out.program = done.reverse ++ outs.map Outcome.procedure ∧
      out.changed = (changed || outs.any Outcome.changed) := by
  induction fs generalizing p changed done log with
  | nil =>
    cases run
    exact ⟨[], .nil p, by simp, by simp⟩
  | cons f fs ih =>
    unfold runFrom at run
    obtain ⟨o, mid, first, run⟩ := run_bind_ok.mp run
    cases failed : o.failure with
    | none =>
      simp only [failed] at run
      obtain ⟨outs, chain, program, told⟩ := ih run
      refine ⟨o :: outs, .cons first failed chain, ?_, ?_⟩
      · rw [program]
        simp
      · rw [told]
        simp [Bool.or_assoc]
    | some e =>
      simp only [failed] at run
      cases run
      cases ok

/-- The converters that a new one becomes by runs that succeed, with the number of procedures that it
was given so far. -/
inductive Serves (new : Pass) : Nat → Pass → Prop
  | new : Serves new 0 new
  | procedure {n : Nat} {p : Pass} {source : LoopSource} {f : Procedure} {log log' : Array Event}
      {out : Outcome} (before : Serves new n p)
      (run : (p.runProcedure source f).run log = (.ok out, log')) (ok : out.failure = none) :
      Serves new (n + 1) out.pass
  | program {n : Nat} {p : Pass} {fs : Program} {log log' : Array Event} {out : ProgramOutcome}
      (before : Serves new n p) (run : (p.run fs).run log = (.ok out, log'))
      (ok : out.failure = none) : Serves new (n + fs.length) out.pass

structure Keeps (config : Config) (n : Nat) (p : Pass) : Prop where
  settings : p.config = config
  number : p.number = n
  within : p.stats.Within config

private theorem Keeps.procedure {config : Config} {n : Nat} {out : Outcome} (h : p.Keeps config n)
    (run : (p.runProcedure source f).run log = (.ok out, log')) (ok : out.failure = none) :
    out.pass.Keeps config (n + 1) := by
  obtain ⟨rfl, rfl, within⟩ := h
  obtain ⟨settings, -, -, number⟩ := runProcedure_settings run
  exact ⟨settings, number, runProcedure_within within run ok⟩

private theorem Keeps.chain {config : Config} {n : Nat} {q : Pass} {fs : List Procedure}
    {outs : List Outcome} (h : p.Keeps config n) (chain : Chain p fs outs q) :
    q.Keeps config (n + fs.length) := by
  induction chain generalizing n with
  | nil p => exact h
  | cons run ok rest ih =>
    have kept := ih (h.procedure run ok)
    rwa [Nat.add_assoc, Nat.add_comm 1] at kept

private theorem Serves.keeps {config : Config} {target : Target} {listings : Bool} {n : Nat}
    (h : Serves { config, target, listings } n p) : p.Keeps config n := by
  induction h with
  | new => exact ⟨rfl, rfl, fun _ _ => Nat.zero_le _, by simp, rfl⟩
  | procedure before run ok ih => exact ih.procedure run ok
  | program before run ok ih =>
    obtain ⟨outs, chain, -, -⟩ := runFrom_chain run ok
    exact ih.chain chain

private theorem Serves.outcome {new q : Pass} {n i : Nat} {fs : List Procedure} {outs : List Outcome}
    {o : Outcome} (h : Serves new n p) (chain : Chain p fs outs q) (hf : fs[i]? = some f)
    (ho : outs[i]? = some o) :
    ∃ (r : Pass) (log log' : Array Event), Serves new (n + i) r ∧
      (r.runProcedure .found f).run log = (.ok o, log') := by
  induction chain generalizing n i with
  | nil p => cases hf
  | @cons p q g fs out outs log log' run ok rest ih =>
    cases i with
    | zero =>
      cases hf
      cases ho
      exact ⟨p, log, log', h, run⟩
    | succ i =>
      obtain ⟨r, log, log', served, run⟩ := ih (h.procedure run ok) hf ho
      exact ⟨r, log, log', by rwa [Nat.add_right_comm, Nat.add_assoc] at served, run⟩

private theorem Chain.length {q : Pass} {fs : List Procedure} {outs : List Outcome}
    (h : Chain p fs outs q) : outs.length = fs.length := by
  induction h with
  | nil p => rfl
  | cons run ok rest ih => simp [ih]

/-- After any runs that succeed, the conversions are within the limit and of allowed kinds, with one
treated block for each of them and one more for each diamond. A procedure whose number is out of the
range is given back as it is, alone or in a program. -/
theorem tally_of_serves (config : Config) (target : Target) (listings : Bool) {n : Nat}
    (h : Serves { config, target, listings } n p) :
    p.number = n ∧
      (∀ limit, config.limit = some limit → p.stats.total ≤ limit) ∧
      (∀ code, config.disabled.containsCode code = true ∨ code = 0 →
        (p.stats.made.map Kind.code).count code = 0) ∧
      p.stats.guardedBlocks + p.stats.copiedBlocks = p.stats.total + p.stats.count .diamond ∧
      (∀ source f log, config.Excludes n → (p.runProcedure source f).run log =
        (.ok { pass := { p with number := n + 1 }, procedure := f, changed := false },
          log.push .skipped)) ∧
      ∀ fs log log' out, (p.run fs).run log = (.ok out, log') → out.failure = none →
        ∃ outs : List Outcome, outs.length = fs.length ∧
          out.program = outs.map Outcome.procedure ∧ out.changed = outs.any Outcome.changed ∧
          ∀ i f o, fs[i]? = some f → outs[i]? = some o →
            (∃ (q : Pass) (log log' : Array Event), Serves { config, target, listings } (n + i) q ∧
              (q.runProcedure .found f).run log = (.ok o, log')) ∧
            (config.Excludes (n + i) → o.procedure = f ∧ o.changed = false) := by
  obtain ⟨settings, number, limit, allowed, blocks⟩ := h.keeps
  refine ⟨number, limit, fun code refused => ?_, blocks, fun source f log out => ?_, ?_⟩
  · rw [List.count_eq_zero]
    intro mem
    obtain ⟨k, made, rfl⟩ := List.mem_map.mp mem
    rcases refused with disabled | none
    · have := allowed k made
      unfold KindSet.contains at this
      rw [this] at disabled
      cases disabled
    · exact k.code_ne_zero none
  · rw [← settings, ← number] at out
    rw [← number]
    exact runProcedure_excluded out source f log
  · intro fs log log' out run ok
    obtain ⟨outs, chain, program, changed⟩ := runFrom_chain run ok
    refine ⟨outs, chain.length, by simpa using program, by simpa using changed, ?_⟩
    intro i f o hf ho
    obtain ⟨q, log, log', served, run⟩ := h.outcome chain hf ho
    refine ⟨⟨q, log, log', served, run⟩, fun excluded => ?_⟩
    obtain ⟨settings, number, -⟩ := served.keeps
    rw [← settings, ← number] at excluded
    rw [runProcedure_excluded excluded] at run
    cases run
    exact ⟨rfl, rfl⟩

/-- A converter that may make one conversion, in its second and third procedure. -/
def cautious : Pass where
  config :=
    { limit := some 1, first := some 1, last := some 2
      disabled := ({} : KindSet).insert (.simple .taken) }
  target := checking.target

/-- Of four procedures the first one is left alone, the second one is converted, the third one comes
after the limit, and the last one is left alone again. -/
theorem tally_of_serves_cautious : ∃ p : Pass, Serves cautious 4 p ∧ p.number = 4 ∧
    p.stats.made = [.diamond] ∧ p.stats.total ≤ 1 ∧ (p.stats.made.map Kind.code).count 1 = 0 ∧
    p.stats.guardedBlocks + p.stats.copiedBlocks = p.stats.total + p.stats.count .diamond ∧
    (p.runProcedure .found fork).run #[] =
      (.ok { pass := { p with number := 5 }, procedure := fork, changed := false },
        #[Event.skipped]) := by
  obtain ⟨out, log, run, ends⟩ := exists_of_endsIn
    (P := fun out : ProgramOutcome => out.failure.isNone && decide (out.pass.stats.made = [.diamond]))
    (r := (cautious.run [fork, fork, fork, fork]).run #[]) (by decide +kernel)
  obtain ⟨ok, made⟩ := Bool.and_eq_true_iff.mp ends
  have served : Serves cautious 4 out.pass := Serves.new.program run (Option.isNone_iff_eq_none.mp ok)
  obtain ⟨number, limit, refused, blocks, skips, -⟩ := tally_of_serves _ _ false served
  exact ⟨out.pass, served, number, of_decide_eq_true made, limit 1 rfl, refused 1 (.inl (by decide)),
    blocks, skips .found fork #[] (.inr ⟨2, rfl, by decide⟩)⟩

end Pass

end Predication
