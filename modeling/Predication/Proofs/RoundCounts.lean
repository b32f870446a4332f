import Predication.Machine.Datapath
import Predication.Proofs.Settling
import Predication.Proofs.Walks

/-!
How many conversions are made and how many rounds it takes. Each conversion that is made uses up a
block that was not done with, so the number of conversions and of blocks that are left never grows;
a round that makes a conversion leaves fewer blocks to the next round.
-/

set_option autoImplicit false
set_option relaxedAutoImplicit false

namespace Predication.Conversion

open Predication.Conversion.Convert

variable {α β : Type} {st mid st' : State}

private theorem Convert.Keeps.ages {m : Convert α} {a : α} (h : Keeps m) (run : Yields m st a st') :
    Ages st st' := by
  have ages := h st
  rwa [run] at ages

def State.pending (st : State) : Finset Nat :=
  (Finset.range st.infos.size).filter fun k => (st.at k).done = false

private theorem State.mem_pending {k : Nat} :
    k ∈ st.pending ↔ k < st.infos.size ∧ (st.at k).done = false := by
  simp [State.pending]

private theorem State.card_pending_le (st : State) : st.pending.card ≤ st.infos.size := by
  calc st.pending.card ≤ (Finset.range st.infos.size).card := Finset.card_filter_le _ _
    _ = st.infos.size := Finset.card_range _

private theorem State.Done.range {x : BlockId} (h : st.Done x) : ∃ k : Nat, k < st.infos.size ∧ x = k := by
  unfold State.Done State.at infoAt at h
  cases found : Arena.get st.infos x with
  | error e =>
    rw [found] at h
    cases h
  | ok i =>
    obtain ⟨low, high⟩ := Arena.get_range.mp ⟨i, found⟩
    exact ⟨x.toNat, by omega, (Int.toNat_of_nonneg low).symm⟩

private theorem Convert.Ages.pending_subset (h : Ages st st') : st'.pending ⊆ st.pending := by
  intro k mem
  obtain ⟨range, fresh⟩ := State.mem_pending.mp mem
  refine State.mem_pending.mpr ⟨h.size ▸ range, Bool.eq_false_iff.mpr fun done => ?_⟩
  have after := h.done k done
  rw [State.Done, fresh] at after
  cases after

private theorem Convert.Ages.card_pending_lt {x : BlockId} (h : Ages st st') (fresh : ¬ st.Done x)
    (done : st'.Done x) : st'.pending.card < st.pending.card := by
  obtain ⟨k, range, rfl⟩ := done.range
  refine Finset.card_lt_card (Finset.ssubset_iff_of_subset h.pending_subset |>.mpr ⟨k, ?_, ?_⟩)
  · exact State.mem_pending.mpr ⟨h.size ▸ range, Bool.eq_false_iff.mpr fresh⟩
  · intro mem
    rw [State.Done, (State.mem_pending.mp mem).2] at done
    cases done

/-- What steps that may make conversions leave as it was, and what the conversions cost. -/
structure Spends (st st' : State) : Prop where
  size : st'.infos.size = st.infos.size
  block : ∀ b, (st'.at b).block = (st.at b).block
  done : ∀ b, st.Done b → st'.Done b
  grows : st.stats.made.length ≤ st'.stats.made.length
  spent : st'.stats.made.length + st'.pending.card ≤ st.stats.made.length + st.pending.card

private theorem Convert.Ages.spends (h : Ages st st') : Spends st st' where
  size := h.size
  block := h.block
  done := h.done
  grows := by rw [h.made]
  spent := by
    rw [h.made]
    exact Nat.add_le_add_left (Finset.card_le_card h.pending_subset) _

private theorem Spends.trans (h : Spends st mid) (h' : Spends mid st') : Spends st st' where
  size := h'.size.trans h.size
  block b := (h'.block b).trans (h.block b)
  done b d := h'.done b (h.done b d)
  grows := h.grows.trans h'.grows
  spent := h'.spent.trans h.spent

private theorem Spends.numbered (h : Spends st st') (start : st.Numbered) : st'.Numbered := fun b =>
  (h.block b).trans (start b)

def Pays (m : Convert α) : Prop := ∀ st : State, st.Numbered → Spends st (m.run st).2

private theorem Pays.of_keeps {m : Convert α} (h : Keeps m) : Pays m := fun st _ => (h st).spends

private theorem Pays.spends {m : Convert α} {a : α} (h : Pays m) (start : st.Numbered)
    (run : Yields m st a st') : Spends st st' := by
  have spends := h st start
  rwa [run] at spends

theorem Pays.bind {m : Convert α} {k : α → Convert β} (h : Pays m) (h' : ∀ a, Pays (k a)) :
    Pays (m >>= k) := by
  intro st start
  have first := h st start
  exact state_bind first fun a => first.trans (h' a _ (first.numbered start))

private theorem Keeps.pays {m : Convert α} {k : α → Convert β} (h : Keeps m) (h' : ∀ a, Pays (k a)) :
    Pays (m >>= k) :=
  (Pays.of_keeps h).bind h'

/-- From a state that has a block less to go than `st` the step leads to one that has paid. -/
def Settles (st : State) (m : Convert α) : Prop :=
  ∀ mid, Ages st mid → mid.pending.card < st.pending.card → Spends st (m.run mid).2

theorem Settles.bind {m : Convert α} {k : α → Convert β} (h : Keeps m)
    (h' : ∀ a, Settles st (k a)) : Settles st (m >>= k) := by
  intro mid ages less
  have first := ages.trans (h mid)
  have less' : (m.run mid).2.pending.card < st.pending.card :=
    (Finset.card_le_card (h mid).pending_subset).trans_lt less
  exact state_bind first.spends fun a => h' a _ first less'

private theorem Settles.tally {kind : Kind} {k : Unit → Convert α} (start : st.Numbered)
    (h : ∀ u, Pays (k u)) :
    Settles st (Convert.tally (fun s => { s with made := kind :: s.made }) >>= k) := by
  intro mid ages less
  rw [run_bind]
  have paid : Spends st ({ mid with stats := { mid.stats with made := kind :: mid.stats.made } }) :=
    { size := ages.size
      block := ages.block
      done := ages.done
      grows := by
        show st.stats.made.length ≤ (kind :: mid.stats.made).length
        rw [ages.made]
        exact Nat.le_succ _
      spent := by
        show (kind :: mid.stats.made).length + mid.pending.card ≤ _
        rw [ages.made, List.length_cons]
        omega }
  exact paid.trans (h () _ (paid.numbered start))

variable (s : Setting)

private theorem pays_goOn {l : List Candidate} (c : Candidate) (h : Pays (tryAll s l true)) : Pays (do
    if s.config.verify then
      ensureValid (.invalidAfter c.kind ((← procedure).blockName c.block))
    if (← get).stats.isUnder s.config.limit then tryAll s l true else return true) := by
  have rest : Pays (do
      if (← get).stats.isUnder s.config.limit then tryAll s l true else return true) := by
    refine Keeps.pays keeps_get fun st => ?_
    split
    · exact h
    · exact .of_keeps (keeps_pure true)
  split
  · refine Keeps.pays keeps_procedure fun f => ?_
    exact Keeps.pays (keeps_ensureValid _) fun _ => rest
  · exact rest

private theorem pays_tryAll (l : List Candidate) (changed : Bool) : Pays (tryAll s l changed) := by
  induction l generalizing changed with
  | nil => exact .of_keeps (keeps_pure changed)
  | cons c l ih =>
    unfold tryAll
    refine Keeps.pays (keeps_dequeue c) fun wanted => ?_
    split
    · intro st start
      have ages := (advances_convert s.target c).1 st
      rw [run_bind]
      cases run : (convert s.target c).run st with
      | mk result mid =>
        rw [run] at ages
        cases result with
        | error e => exact ages.spends
        | ok made =>
          cases made with
          | false =>
            refine ages.spends.trans (Keeps.pays (keeps_info _) (fun i => ?_) mid
              (ages.spends.numbered start))
            refine Keeps.pays keeps_procedure fun f => Keeps.pays (keeps_report _) fun _ => ?_
            exact ih changed
          | true =>
            obtain ⟨x, fresh, done⟩ := (advances_convert s.target c).2 st mid start run
            refine Settles.bind (keeps_info _) (fun i => ?_) mid ages
              (ages.card_pending_lt fresh done)
            refine Settles.bind keeps_procedure fun f => Settles.bind (keeps_report _) fun _ => ?_
            exact Settles.tally start fun _ => pays_goOn s c (ih true)
    · exact ih changed

private theorem made_of_tryAll {l : List Candidate} {changed : Bool} (start : st.Numbered)
    (h : Yields (tryAll s l changed) st true st') :
    changed = true ∨ st.stats.made.length < st'.stats.made.length := by
  induction l generalizing st changed with
  | nil => exact .inl (yields_pure.mp h).1
  | cons c l ih =>
    unfold tryAll at h
    obtain ⟨wanted, mid, first, h⟩ := yields_bind.mp h
    have ages := (keeps_dequeue c).ages first
    rcases yields_ite.mp h with ⟨-, h⟩ | ⟨-, h⟩
    · obtain ⟨made, mid', second, h⟩ := yields_bind.mp h
      obtain ⟨i, mid₁, third, h⟩ := yields_bind.mp h
      obtain ⟨f, mid₂, fourth, h⟩ := yields_bind.mp h
      obtain ⟨u, mid₃, fifth, h⟩ := yields_bind.mp h
      have upTo : Ages st mid₃ :=
        ages.trans (((advances_convert s.target c).1.ages second).trans
          (((keeps_info _).ages third).trans
            ((keeps_procedure.ages fourth).trans ((keeps_report _).ages fifth))))
      rcases yields_ite.mp h with ⟨-, h⟩ | ⟨-, h⟩
      · obtain ⟨u, mid₄, counted, h⟩ := yields_bind.mp h
        have counted := yields_tally.mp counted
        have numbered : mid₄.Numbered := by
          rw [counted]
          exact upTo.spends.numbered start
        have grown := ((pays_goOn s c (pays_tryAll s l true)).spends numbered h).grows
        rw [counted, List.length_cons, upTo.made] at grown
        exact .inr grown
      · rcases ih (upTo.spends.numbered start) h with already | more
        · exact .inl already
        · exact .inr (upTo.made ▸ more)
    · rcases ih (ages.spends.numbered start) h with already | more
      · exact .inl already
      · exact .inr (ages.made ▸ more)

private theorem pays_round : Pays (round s) := by
  unfold round
  refine Keeps.pays (keeps_analyze s) fun _ => Keeps.pays keeps_get fun _ => ?_
  refine Keeps.pays (keeps_report _) fun _ => Keeps.pays keeps_get fun st => ?_
  refine (pays_tryAll s _ false).bind fun changed => ?_
  exact Keeps.pays (fun _ => .of_infos rfl rfl) fun _ => .of_keeps (keeps_pure changed)

private theorem made_of_round (start : st.Numbered) (h : Yields (round s) st true st') :
    st.stats.made.length < st'.stats.made.length := by
  unfold round at h
  obtain ⟨u, mid₁, first, h⟩ := yields_bind.mp h
  obtain ⟨u, mid₂, second, h⟩ := yields_bind.mp h
  obtain ⟨u, mid₃, third, h⟩ := yields_bind.mp h
  obtain ⟨u, mid₄, fourth, h⟩ := yields_bind.mp h
  obtain ⟨changed, mid₅, fifth, h⟩ := yields_bind.mp h
  obtain ⟨u, mid₆, sixth, h⟩ := yields_bind.mp h
  obtain ⟨rfl, rfl⟩ := yields_pure.mp h
  obtain rfl := yields_modify.mp sixth
  have ages : Ages st mid₄ :=
    ((keeps_analyze s).ages first).trans ((keeps_get.ages second).trans
      (((keeps_report _).ages third).trans (keeps_get.ages fourth)))
  rcases made_of_tryAll s (ages.spends.numbered start) fifth with already | more
  · cases already
  · exact ages.made ▸ more

private theorem pays_rounds (fuel : Nat) (changed : Bool) : Pays (rounds s fuel changed) := by
  induction fuel generalizing changed with
  | zero => exact .of_keeps (keeps_throw _)
  | succ fuel ih =>
    unfold rounds
    refine Keeps.pays keeps_get fun st => ?_
    split
    · refine (pays_round s).bind fun again => ?_
      split
      · exact ih true
      · exact .of_keeps (keeps_pure changed)
    · exact .of_keeps (keeps_pure changed)

private theorem card_pending_round (start : st.Numbered) (h : Yields (round s) st true st') :
    st'.pending.card < st.pending.card := by
  have spent := ((pays_round s).spends start h).spent
  have more := made_of_round s start h
  omega

/-- The rounds come to an end after `n` of them: because the limit is reached, by a round that fails, or
by one that makes no conversion. The last argument is the result with the state that is left. -/
inductive Ends (s : Setting) : (n : Nat) → (changed : Bool) → State → Except Stop Bool × State → Prop
  | limited {changed : Bool} {st : State} (limit : st.stats.isUnder s.config.limit = false) :
      Ends s 0 changed st (.ok changed, st)
  | stopped {changed : Bool} {st st' : State} {e : Stop}
      (under : st.stats.isUnder s.config.limit = true) (known : e ≠ .unsettled)
      (last : (round s).run st = (.error e, st')) : Ends s 1 changed st (.error e, st')
  | settled {changed : Bool} {st st' : State} (under : st.stats.isUnder s.config.limit = true)
      (last : (round s).run st = (.ok false, st')) : Ends s 1 changed st (.ok changed, st')
  | again {n : Nat} {changed : Bool} {st mid : State} {r : Except Stop Bool × State}
      (under : st.stats.isUnder s.config.limit = true)
      (first : (round s).run st = (.ok true, mid)) (rest : Ends s n true mid r) :
      Ends s (n + 1) changed st r

/-- The rounds end before the blocks run out, so it does not matter how many are granted beyond
that. -/
private theorem rounds_end {fuel : Nat} {changed : Bool} (start : st.Numbered)
    (enough : st.pending.card < fuel) :
    ∃ n ≤ st.pending.card + 1, Ends s n changed st ((rounds s fuel changed).run st) := by
  induction fuel generalizing st changed with
  | zero => omega
  | succ fuel ih =>
    have run : (rounds s (fuel + 1) changed).run st =
        if st.stats.isUnder s.config.limit then
          (round s >>= fun again => if again then rounds s fuel true else return changed).run st
        else (.ok changed, st) := by
      show ((if st.stats.isUnder s.config.limit then _ else _ : Convert Bool)).run st = _
      split <;> rfl
    rw [run]
    cases limit : st.stats.isUnder s.config.limit with
    | false => exact ⟨0, Nat.zero_le _, .limited limit⟩
    | true =>
      rw [if_pos rfl, run_bind]
      cases once : (round s).run st with
      | mk result mid =>
        cases result with
        | error e =>
          have known : e ≠ .unsettled := by
            rintro rfl
            have bounded : Bounded (round s) st := round_bounded s
            exact bounded (by rw [once])
          exact ⟨1, by omega, .stopped limit known once⟩
        | ok again =>
          cases again with
          | false => exact ⟨1, by omega, .settled limit once⟩
          | true =>
            have fewer := card_pending_round s start once
            have numbered := ((pays_round s).spends start once).numbered start
            obtain ⟨n, le, ends⟩ : ∃ n ≤ mid.pending.card + 1,
              Ends s n true mid ((rounds s fuel true).run mid) := ih numbered (by omega)
            exact ⟨n + 1, by omega, .again limit once ends⟩

private theorem Ends.bounded {n : Nat} {changed : Bool} {r : Except Stop Bool × State}
    (h : Ends s n changed st r) : r.1 ≠ .error .unsettled := by
  induction h with
  | limited => exact nofun
  | stopped _ known =>
    rintro ⟨⟩
    exact known rfl
  | settled => exact nofun
  | again _ _ _ ih => exact ih

private theorem State.numbered_of_entries (h : ∀ k : Fin st.infos.size, (st.infos[k]).block = (k : Nat)) :
    st.Numbered := by
  intro b
  unfold State.at infoAt
  cases found : Arena.get st.infos b with
  | error e => rfl
  | ok i =>
    obtain ⟨k, rfl, entry⟩ := Arena.get_eq_ok.mp found
    obtain ⟨range, rfl⟩ := Array.getElem?_eq_some_iff.mp entry
    exact h ⟨k, range⟩

private theorem numbered_blankInfos (h : st.infos = blankInfos st.procedure) : st.Numbered :=
  State.numbered_of_entries fun k => by simp [h, blankInfos]

private theorem size_blankInfos (f : Procedure) : (blankInfos f).size = f.blocks.size := by
  simp [blankInfos]

private theorem cleanUp_size {changed : Bool} (h : Yields cleanUp st changed st') :
    st'.procedure.blocks.size = st.procedure.blocks.size := by
  obtain ⟨g, log, log', ran, rfl⟩ := yields_cleanUp h
  exact Cleanup.size_run #[] _ _ ran

end Predication.Conversion

namespace Predication.Pass

open Conversion Conversion.Convert

variable {st : State}

def Makes {α : Type} (n : Nat) (m : Convert α) : Prop :=
  ∀ st : State, st.procedure.blocks.size = n →
    (m.run st).2.stats.made.length ≤ st.stats.made.length + n

theorem Makes.bind {α β : Type} {n : Nat} {m : Convert α} {k : α → Convert β} (keeps : Keeps m)
    (size : ∀ st a st', Yields m st a st' → st'.procedure.blocks.size = st.procedure.blocks.size)
    (h : ∀ a, Makes n (k a)) : Makes n (m >>= k) := by
  intro st blocks
  have made := (keeps st).made
  rw [run_bind]
  cases run : m.run st with
  | mk result mid =>
    rw [run] at made
    cases result with
    | error e =>
      show mid.stats.made.length ≤ _
      rw [made]
      exact Nat.le_add_right _ _
    | ok a =>
      have bound := h a mid ((size st a mid run).trans blocks)
      rw [made] at bound
      exact bound

private theorem Makes.blank {α : Type} {n : Nat} {k : Unit → Convert α} (h : ∀ u, Pays (k u)) :
    Makes n (reset >>= k) := by
  intro st blocks
  rw [run_bind]
  have spent := (h () { st with infos := blankInfos st.procedure, queue := {} }
    (numbered_blankInfos rfl)).spent
  have left := State.card_pending_le { st with infos := blankInfos st.procedure, queue := {} }
  rw [size_blankInfos, blocks] at left
  exact (Nat.le_add_right _ _).trans (spent.trans (Nat.add_le_add_left left _))

private theorem Makes.takeUp {α : Type} {n : Nat} {k : Unit → Convert α} (tables : Tables)
    (h : ∀ u, Makes n (k u)) : Makes n (takeUp tables >>= k) := by
  intro st blocks
  rw [run_bind]
  exact h () _ blocks

private theorem makes_convertState (p : Pass) (source : LoopSource) (n : Nat) :
    Makes n (p.convertState source) := by
  unfold convertState
  extract_lets start
  have started : ∀ cleaned, Makes n (start cleaned) := by
    intro cleaned
    refine Makes.bind (keeps_query _) (fun st loops st' h => ?_) fun loops => Makes.blank fun _ => ?_
    · obtain ⟨-, rfl⟩ := yields_query.mp h
      rfl
    refine Keeps.pays (keeps_reportListing _ _) fun _ => Keeps.pays keeps_procedure fun f => ?_
    refine (pays_rounds _ _ _).bind fun made => .of_keeps ?_
    extract_lets told finish
    have finished : ∀ u, Keeps (finish u) := by
      refine fun u => keeps_bind (keeps_reportListing _ _) fun _ => ?_
      split
      · exact keeps_bind (keeps_ensureValid _) fun _ => keeps_pure _
      · exact keeps_pure _
    split
    · exact keeps_bind keeps_cleanUp fun _ => finished ()
    · exact finished ()
  refine Makes.takeUp p.tables fun _ => ?_
  split
  · exact Makes.bind keeps_cleanUp (fun st a st' h => cleanUp_size h) started
  · exact started false

private theorem procedure_reportListing {wanted : Bool}
    {event : String → Except Listing.WriteError String → Event}
    {u : Unit} {st' : State} (h : Yields (reportListing wanted event) st u st') :
    st'.procedure = st.procedure := by
  rcases yields_ite.mp h with ⟨-, h⟩ | ⟨-, h⟩
  · obtain ⟨f, mid, first, h⟩ := yields_bind.mp h
    obtain ⟨rfl, rfl⟩ := yields_procedure.mp first
    obtain ⟨text, mid, second, h⟩ := yields_bind.mp h
    obtain ⟨-, rfl⟩ := yields_query.mp second
    obtain rfl := yields_modify.mp h
    rfl
  · obtain ⟨-, rfl⟩ := yields_pure.mp h
    rfl

private theorem bounded_convertState (p : Pass) (source : LoopSource) : Bounded
    (p.convertState source) st := by
  unfold convertState
  extract_lets start
  have started : ∀ cleaned st, Bounded (start cleaned) st := by
    intro cleaned st
    refine ((finishes_query _).bounded st).bind fun loops st _ => ?_
    refine Bounded.bind (fun stop => nomatch stop) fun _ mid blank => ?_
    obtain rfl := yields_modify.mp blank
    refine ((composes_finishes.reportListing _ _).bounded _).bind fun _ mid listed => ?_
    refine (composes_finishes.procedure.bounded mid).bind fun f mid' asked => ?_
    obtain ⟨rfl, rfl⟩ := yields_procedure.mp asked
    have ages := (keeps_reportListing _ _).ages listed
    have left := mid.card_pending_le
    rw [ages.size, size_blankInfos, ← procedure_reportListing listed] at left
    obtain ⟨n, -, ends⟩ := @rounds_end mid ⟨p.config, p.target, loops⟩ _ false
      (ages.spends.numbered (numbered_blankInfos rfl)) (Nat.lt_add_of_pos_right Nat.two_pos |>.trans_le' left)
    refine Bounded.bind ends.bounded fun made mid _ => ?_
    extract_lets told finish
    have finished : ∀ u st, Bounded (finish u) st := by
      intro u st
      refine ((composes_finishes.reportListing _ _).bounded st).bind fun _ st _ => ?_
      split
      · exact ((composes_finishes.ensureValid _).bounded st).bind fun _ st _ => (finishes_pure _).bounded st
      · exact (finishes_pure _).bounded st
    split
    · exact (finishes_cleanUp.bounded mid).bind fun _ st _ => finished () st
    · exact finished () mid
  refine Bounded.bind (fun stop => nomatch stop) fun _ st _ => ?_
  split
  · exact (finishes_cleanUp.bounded st).bind fun cleaned st _ => started cleaned st
  · exact started false st

/-- The summaries stay those of their blocks, and what is done with stays so. -/
structure Retains (st st' : State) : Prop where
  numbered : st'.Numbered
  done : ∀ b, st.Done b → st'.Done b

private theorem retains_of_spends {st st' : State} (start : st.Numbered) (h : Spends st st') :
    Retains st st' :=
  ⟨h.numbered start, h.done⟩

/-- No step brings a block back that is done with, every conversion that is made is done with one
block more, and so a procedure sees at most as many conversions as it has blocks, in at most one
round more. The conversion itself does not go past a bound; a cleanup or the search for loops may go past
its own. -/
theorem conversions_bounded (p : Pass) (source : LoopSource) (f : Procedure) (log : Array Event) :
    (∀ (s : Setting) (st : State), st.Numbered →
      Retains st ((analyze s).run st).2 ∧ Retains st ((round s).run st).2 ∧
        ∀ c : Candidate, Retains st ((dequeue c).run st).2 ∧
          Retains st ((convert s.target c).run st).2 ∧
          ∀ st', Yields (convert s.target c) st true st' → ∃ b, ¬ st.Done b ∧ st'.Done b) ∧
    ((p.convertState source).run
        { procedure := f, infos := #[], stats := p.stats, log := log }).1 ≠ .error .unsettled ∧
    ((p.convertState source).run
        { procedure := f, infos := #[], stats := p.stats, log := log }).2.stats.total ≤
      p.stats.total + f.blocks.size ∧
    ∀ (s : Setting) (st : State), st.infos = blankInfos st.procedure →
      st.Numbered ∧ ∀ fuel, st.procedure.blocks.size < fuel →
        ∃ n ≤ st.procedure.blocks.size + 1,
          Ends s n false st ((rounds s fuel false).run st) := by
  refine ⟨fun s st start => ⟨?_, ?_, fun c => ⟨?_, ?_, fun st' made => ?_⟩⟩, ?_, ?_,
    fun s st blank => ⟨numbered_blankInfos blank, fun fuel enough => ?_⟩⟩
  · exact retains_of_spends start (keeps_analyze s st).spends
  · exact retains_of_spends start (pays_round s st start)
  · exact retains_of_spends start (keeps_dequeue c st).spends
  · exact retains_of_spends start ((advances_convert s.target c).1 st).spends
  · exact (advances_convert s.target c).2 st st' start made
  · exact bounded_convertState p source
  · exact makes_convertState p source f.blocks.size _ rfl
  · have left : st.pending.card ≤ st.procedure.blocks.size := by
      rw [← size_blankInfos, ← blank]
      exact st.card_pending_le
    obtain ⟨n, le, ends⟩ := rounds_end s (numbered_blankInfos blank) (left.trans_lt enough)
    exact ⟨n, by omega, ends⟩

/-- A branch to `B` that runs on to `C`; both return. -/
def fork : Procedure :=
  { name := "f"
    blocks := #[
      { id := 0, name := "A", code := [0], succs := [1, 2], liveIn := [0] },
      { id := 1, name := "B", code := [1], preds := [0] },
      { id := 2, name := "C", code := [2], preds := [0] }]
    insts := #[
      { op := .brc, uses := [.block 1], cond := [{ reg := 0 }] },
      { op := .ret, uses := [.imm 1] },
      { op := .ret, uses := [.imm 2] }]
    layout := [0, 2, 1]
    regs := #["a"] }

/-- The state in which the branch of `fork` was looked at. -/
def forkState : State :=
  { procedure := fork
    infos := #[
      { block := 0, taken := some 1, other := some 2, cond := [{ reg := 0 }] },
      { block := 1 }, { block := 2 }]
    stats := {}
    log := #[] }

theorem conversions_bounded_fork :
    forkState.Numbered ∧
    (∃ st', Yields (convert Datapath.standard.target { block := 0, kind := .simple .taken })
      forkState true st' ∧ ∃ b, ¬ forkState.Done b ∧ st'.Done b) ∧
    ∃ n ≤ 4, Ends ⟨{}, Datapath.standard.target, none⟩ n false
      { forkState with infos := blankInfos fork }
      ((rounds ⟨{}, Datapath.standard.target, none⟩ 5 false).run
        { forkState with infos := blankInfos fork }) := by
  have bounded := conversions_bounded ⟨{}, Datapath.standard.target, {}, 0, false, {}⟩ .found fork #[]
  have start : forkState.Numbered := State.numbered_of_entries (by decide)
  obtain ⟨st', made, -⟩ := yields_of_check
    (convert Datapath.standard.target { block := 0, kind := .simple .taken }) forkState (fun _ => true)
    (by decide +kernel)
  exact ⟨start, ⟨st', made, ((bounded.1 ⟨{}, _, none⟩ _ start).2.2 _).2.2 st' made⟩,
    (bounded.2.2.2 _ { forkState with infos := blankInfos fork } rfl).2 5 (by decide)⟩

private theorem cleanUp_of_circles {k : Nat} (st : State) (h : Cleanup.circles k st.procedure = true) :
    (cleanUp.run st).1 = .error (.fault .unsettled) := by
  have out : (Cleanup.run st.procedure).events.1 = .error .unsettled :=
    Cleanup.roundsFrom_of_circles h _ 0 false #[]
  have asked : procedure.run st = (.ok st.procedure, st) := rfl
  unfold cleanUp
  rw [run_bind, asked]
  dsimp only
  rcases ran : (Cleanup.run st.procedure).events with ⟨r, events⟩
  rw [ran] at out
  cases out
  rfl

private theorem convertState_of_circles {k : Nat} {p : Pass} (source : LoopSource) (st : State)
    (h : Cleanup.circles k st.procedure = true) (before : p.config.cleanBefore = true) :
    ((p.convertState source).run st).1 = .error (.fault .unsettled) := by
  let begun : State :=
    { st with infos := p.tables.infos, queue := p.tables.queue, visited := p.tables.visited }
  have start : (takeUp p.tables).run st = (.ok (), begun) := rfl
  have cleaned := cleanUp_of_circles begun h
  unfold convertState
  rw [run_bind, start]
  dsimp only
  rw [if_pos before, run_bind]
  rcases ran : cleanUp.run begun with ⟨r, mid⟩
  rw [ran] at cleaned
  cases cleaned
  rfl

/-- A procedure that passes the check and whose cleanup goes past every bound, so that a conversion with a
cleanup before it does not get to its rounds. -/
theorem endless_astray :
    Listing.read Cleanup.wayward = .ok [Cleanup.astray] ∧ Cleanup.astray.verify = .ok (.ok ()) ∧
    (∀ fuel number changed log,
      ((Cleanup.roundsFrom fuel number (Cleanup.astray, changed)).run log).1 = .error .unsettled) ∧
    ((convertState { config := {}, target := Datapath.standard.target } (.given none)).run
      (blank Cleanup.astray)).1 = .error (.fault .unsettled) :=
  ⟨Cleanup.read_wayward, Cleanup.verify_astray,
    Cleanup.roundsFrom_of_circles Cleanup.circles_astray,
    convertState_of_circles _ (blank Cleanup.astray) Cleanup.circles_astray rfl⟩

end Predication.Pass
