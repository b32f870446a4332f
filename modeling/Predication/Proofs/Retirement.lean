import Mathlib.Data.Finset.Card
import Predication.Proofs.Anatomy
import Predication.Proofs.Scanning

/-!
Blocks that are done with. No step of a conversion brings such a block back, whether the step
succeeds or not, and each conversion that is made is done with one block more. So there are no more
conversions than blocks, and rounds that each make one come to an end.
-/

set_option autoImplicit false
set_option relaxedAutoImplicit false

namespace Predication.Conversion

namespace Convert

variable {α β : Type} {st mid st' : State} {b : BlockId}

/-- What steps that make no conversion leave as it was: the summaries are those of the same blocks,
what is done with stays so, and no conversion is counted. -/
structure Ages (st st' : State) : Prop where
  size : st'.infos.size = st.infos.size
  block : ∀ b, (st'.at b).block = (st.at b).block
  done : ∀ b, st.Done b → st'.Done b
  made : st'.stats.made = st.stats.made

private theorem Ages.refl (st : State) : Ages st st := ⟨rfl, fun _ => rfl, fun _ h => h, rfl⟩

theorem Ages.trans (h : Ages st mid) (h' : Ages mid st') : Ages st st' where
  size := h'.size.trans h.size
  block b := (h'.block b).trans (h.block b)
  done b d := h'.done b (h.done b d)
  made := h'.made.trans h.made

theorem Ages.of_infos (infos : st'.infos = st.infos) (made : st'.stats.made = st.stats.made) :
    Ages st st' := by
  refine ⟨by rw [infos], fun b => ?_, fun b done => ?_, made⟩
  · unfold State.at
    rw [infos]
  · unfold State.Done State.at at *
    rwa [infos]

def Keeps (m : Convert α) : Prop := ∀ st, Ages st (m.run st).2

@[grind .] theorem keeps_bind {m : Convert α} {k : α → Convert β} (h : Keeps m)
    (h' : ∀ a, Keeps (k a)) : Keeps (m >>= k) :=
  fun st => state_bind (h st) fun a => (h st).trans (h' a _)

@[grind .] theorem keeps_pure (a : α) : Keeps (pure a : Convert α) := fun st => .refl st

@[grind .] theorem keeps_throw (e : Stop) : Keeps (throw e : Convert α) := fun st => .refl st

@[grind .] theorem keeps_get : Keeps (get : Convert State) := fun st => .refl st

@[grind .] theorem keeps_ofExcept (x : Except Fault α) : Keeps (ofExcept x) := by
  intro st
  cases x <;> exact .refl st

@[grind .] theorem keeps_report (e : Event) : Keeps (report e) := fun _ => .of_infos rfl rfl

@[grind .] theorem keeps_procedure : Keeps procedure := fun st => .refl st

@[grind .] theorem keeps_query (g : Procedure → Except Fault α) : Keeps (query g) :=
  keeps_bind keeps_get fun st => keeps_ofExcept (g st.procedure)

private theorem keeps_visit (b : BlockId) : Keeps (visit b) := by
  refine keeps_bind keeps_get fun st => keeps_bind (keeps_ofExcept _) fun r => ?_
  exact keeps_bind (fun _ => .of_infos rfl rfl) fun _ => keeps_pure r.2

private theorem keeps_setProcedure (f : Procedure) :
    Keeps (modify fun st => { st with procedure := f } : Convert Unit) := fun _ => .of_infos rfl rfl

@[grind .] theorem keeps_edit (g : Procedure → Except Fault Procedure) : Keeps (edit g) :=
  keeps_bind (keeps_query g) keeps_setProcedure

@[grind .] theorem keeps_editWith (g : Procedure → Except Fault (Procedure × α)) :
    Keeps (editWith g) :=
  keeps_bind (keeps_query g) fun r => keeps_bind (keeps_setProcedure r.1) fun _ => keeps_pure r.2

@[grind .] theorem keeps_info (b : BlockId) : Keeps (info b) :=
  keeps_bind keeps_get fun st => keeps_ofExcept (Arena.get st.infos b)

@[grind .] theorem keeps_infoOf (b : Option BlockId) : Keeps (infoOf b) := keeps_info _

private theorem ages_update {u : Summary → Summary} {infos : Array Summary}
    (h : Arena.update st.infos b u = .ok infos) (block : (u (st.at b)).block = (st.at b).block)
    (done : st.Done b → (u (st.at b)).done = true) : Ages st { st with infos := infos } := by
  have view : ∀ c, infoAt infos c = if c = b then u (st.at c) else st.at c := infoAt_update h
  refine ⟨Arena.size_update h, fun c => ?_, fun c before => ?_, rfl⟩
  · change (infoAt infos c).block = _
    rw [view]
    split
    · rename_i same
      rw [same, block]
    · rfl
  · change (infoAt infos c).done = true
    rw [view]
    split
    · rename_i same
      rw [same] at before ⊢
      exact done before
    · exact before

private theorem ages_setInfo {u : Summary → Summary} (block : (u (st.at b)).block = (st.at b).block)
    (done : st.Done b → (u (st.at b)).done = true) : Ages st ((setInfo b u).run st).2 := by
  rw [run_setInfo]
  cases updated : Arena.update st.infos b u with
  | error e => exact .refl st
  | ok infos => exact ages_update updated block done

/-- A change that keeps the block a summary is about and brings no block back. It is said by equations
between functions, so that they are seen to hold without looking at one summary. -/
@[grind .] theorem keeps_setInfo {u : Summary → Summary}
    (block : (fun i => (u i).block) = fun i => i.block)
    (done : (fun i => i.done || (u i).done) = fun i => (u i).done) : Keeps (setInfo b u) := by
  intro st
  refine ages_setInfo (congrFun block (st.at b)) fun before => ?_
  have stays := congrFun done (st.at b)
  rw [show (st.at b).done = true from before, Bool.true_or] at stays
  exact stays.symm

private theorem keeps_mark {u : Summary → Summary} (block : ∀ i, (u i).block = i.block)
    (done : ∀ i, (u i).done = i.done) : Keeps (setInfo b u) :=
  keeps_setInfo (funext block) (funext fun i => by rw [done, Bool.or_self])

private theorem ages_bind {m : Convert α} {k : α → Convert β} (h : Ages st (m.run st).2)
    (h' : ∀ a, Keeps (k a)) : Ages st ((m >>= k).run st).2 :=
  state_bind h fun a => h.trans (h' a _)

private theorem ages_bind_query {g : Procedure → Except Fault α} {k : α → Convert β}
    (h : ∀ a, g st.procedure = .ok a → Ages st ((k a).run st).2) :
    Ages st ((query g >>= k).run st).2 := by
  rw [run_bind, run_query]
  cases found : g st.procedure with
  | error e => exact .refl st
  | ok a => exact h a found

private theorem keeps_bind_info {k : Summary → Convert α}
    (h : ∀ st : State, Ages st ((k (st.at b)).run st).2) : Keeps (info b >>= k) := by
  intro st
  rw [run_bind, run_info]
  cases found : Arena.get st.infos b with
  | error e => exact .refl st
  | ok i => exact infoAt_eq found ▸ h st

@[grind .] theorem keeps_tally {u : Stats → Stats} (made : (fun s => (u s).made) = fun s => s.made) :
    Keeps (tally u) := fun st => .of_infos rfl (congrFun made st.stats)

/-- The step makes no conversion and brings no block back, and if it tells of a conversion, `b` is
done with. -/
def Closes (b : BlockId) (m : Convert Bool) : Prop :=
  Keeps m ∧ ∀ st st', Yields m st true st' → st'.Done b

private theorem closes_bind {m : Convert α} {k : α → Convert Bool} (h : Keeps m)
    (h' : ∀ a, Closes b (k a)) : Closes b (m >>= k) := by
  refine ⟨keeps_bind h fun a => (h' a).1, fun st st' made => ?_⟩
  obtain ⟨a, mid, -, rest⟩ := yields_bind.mp made
  exact (h' a).2 mid st' rest

private theorem closes_false (b : BlockId) : Closes b (pure false) := by
  refine ⟨keeps_pure false, fun st st' made => ?_⟩
  cases (yields_pure.mp made).1

/-- If the step tells of a conversion, a block is done with that was not before. `P` is what is known
at the start. -/
def Advances (P : State → Prop) (m : Convert Bool) : Prop :=
  Keeps m ∧ ∀ st st', P st → Yields m st true st' → ∃ x, ¬ st.Done x ∧ st'.Done x

private theorem advances_bind {P : State → Prop} {Q : α → State → Prop} {m : Convert α}
    {k : α → Convert Bool} (h : Keeps m) (finds : ∀ st a st', P st → Yields m st a st' → Q a st')
    (h' : ∀ a, Advances (Q a) (k a)) : Advances P (m >>= k) := by
  refine ⟨keeps_bind h fun a => (h' a).1, fun st st' start made => ?_⟩
  obtain ⟨a, mid, first, rest⟩ := yields_bind.mp made
  obtain ⟨x, fresh, done⟩ := (h' a).2 mid st' (finds st a mid start first) rest
  have ages := h st
  rw [first] at ages
  exact ⟨x, fun before => fresh (ages.done x before), done⟩

private theorem advances_of_closes {P : State → Prop} {m : Convert Bool} (fresh : ∀ st, P st → ¬ st.Done b)
    (h : Closes b m) : Advances P m :=
  ⟨h.1, fun st st' start made => ⟨b, fresh st start, h.2 st st' made⟩⟩

private theorem advances_false (P : State → Prop) : Advances P (pure false) := by
  refine ⟨keeps_pure false, fun st st' start made => ?_⟩
  cases (yields_pure.mp made).1

end Convert

open Predication.Conversion.Convert

private theorem composes_keeps : Composes Keeps :=
  ⟨keeps_bind, keeps_pure, fun e _ => keeps_throw e, keeps_procedure, keeps_query, keeps_ofExcept, keeps_info,
    keeps_report⟩

private theorem pervasive_keeps : Pervasive Keeps :=
  { composes_keeps with
    edit := keeps_edit
    editWith := keeps_editWith
    setInfo := fun _ _ => keeps_setInfo }

section Conversions

variable (t : Target) (b : BlockId)

private theorem closes_retire {m : Convert Bool} (h : Keeps m) : Closes b (retire b >>= fun _ => m) := by
  refine ⟨keeps_bind (pervasive_keeps.retire b) fun _ => h, fun st st' made => ?_⟩
  obtain ⟨u, mid, retired, rest⟩ := yields_bind.mp made
  have after : mid.Done b := by
    obtain ⟨-, -, view⟩ := yields_setInfo retired
    rw [State.Done, view, if_pos rfl]
  have ages := h mid
  rw [rest] at ages
  exact ages.done b after

/-- Every summary is that of the block it is found at. -/
def State.Numbered (st : State) : Prop := ∀ b, (st.at b).block = b

def State.Opens (st : State) (arm : Summary) : Prop := arm.done = false → ¬ st.Done arm.block

private theorem info_finds (b : BlockId) (st : State) (i : Summary) (st' : State) (start : st.Numbered)
    (h : Yields (info b) st i st') : st'.Numbered ∧ st'.Opens i := by
  obtain ⟨rfl, rfl⟩ := yields_info h
  refine ⟨start, fun fresh done => ?_⟩
  rw [start] at done
  rw [State.Done, fresh] at done
  cases done

private theorem armsOf_finds (head : Summary) (which : Arm) (st : State) (r : Summary × Summary)
    (st' : State) (start : st.Numbered) (h : Yields (armsOf head which) st r st') :
    st'.Opens r.1 := by
  unfold armsOf at h
  cases which with
  | taken =>
    obtain ⟨i, mid, first, h⟩ := yields_bind.mp h
    obtain ⟨j, mid', second, h⟩ := yields_bind.mp h
    obtain ⟨rfl, rfl⟩ := yields_pure.mp h
    obtain ⟨-, rfl⟩ := yields_info second
    exact (info_finds _ st i mid start first).2
  | other =>
    obtain ⟨i, mid, first, h⟩ := yields_bind.mp h
    obtain ⟨j, mid', second, h⟩ := yields_bind.mp h
    obtain ⟨rfl, rfl⟩ := yields_pure.mp h
    exact (info_finds _ mid j mid' (info_finds _ st i mid start first).1 second).2

private theorem isUsable_yields {arm : Summary} {st st' : State} {r : Bool}
    (h : Yields (isUsable arm) st r st') :
    st = st' ∧ (r = true → arm.done = false) := by
  unfold isUsable at h
  rcases yields_ite.mp h with ⟨-, h⟩ | ⟨fresh, h⟩
  · obtain ⟨rfl, rfl⟩ := yields_pure.mp h
    exact ⟨rfl, fun h => nomatch h⟩
  · have fresh : arm.done = false := by simpa using fresh
    rcases yields_ite.mp h with ⟨-, h⟩ | ⟨-, h⟩
    · obtain ⟨k, mid, first, h⟩ := yields_bind.mp h
      obtain ⟨-, -, rfl⟩ := yields_predCount first
      obtain ⟨-, rfl⟩ := yields_pure.mp h
      exact ⟨rfl, fun _ => fresh⟩
    · obtain ⟨-, rfl⟩ := yields_pure.mp h
      exact ⟨rfl, fun _ => fresh⟩

private theorem isUsable_finds (arm : Summary) (st : State) (usable : Bool) (st' : State)
    (opens : st.Opens arm) (h : Yields (isUsable arm) st usable st') :
    usable = true → ¬ st'.Done arm.block := by
  intro yes
  obtain ⟨rfl, fresh⟩ := isUsable_yields h
  exact opens (fresh yes)

private theorem closes_all_bind {α : Type} {o : Option BlockId} {m : Convert α} {k : α → Convert Bool}
    (h : Keeps m) (h' : ∀ a, Keeps (k a) ∧ ∀ b ∈ o, Closes b (k a)) :
    Keeps (m >>= k) ∧ ∀ b ∈ o, Closes b (m >>= k) :=
  ⟨keeps_bind h fun a => (h' a).1, fun b mem => closes_bind h fun a => (h' a).2 b mem⟩

private theorem advances_any {P : State → Prop} {m : Convert Bool} (h : Advances (fun _ => True) m) :
    Advances P m :=
  ⟨h.1, fun st st' _ => h.2 st st' trivial⟩

private theorem converting_keeps : Converting t Keeps Keeps (fun o _ m => Keeps m ∧ ∀ b ∈ o, Closes b m)
    (fun o _ m => match o with
      | some b => Closes b m
      | none => Advances (fun _ => True) m) (fun _ => Advances State.Numbered) where
  toPervasive := pervasive_keeps
  made := ⟨keeps_pure true, by simp⟩
  step := closes_all_bind
  guarded := closes_all_bind (pervasive_keeps.guardBlock t _ _ _ (keeps_tally rfl) _)
  copied := closes_all_bind (pervasive_keeps.copyBlock t _ _ _ _ (keeps_tally rfl) _)
  retired h :=
    ⟨keeps_bind (pervasive_keeps.retire _) fun _ => h.1, by simpa using closes_retire _ h.1⟩
  looks := composes_keeps
  revisits := pervasive_keeps.revisit
  look {_ o _ _ _} h h' := by
    cases o with
    | none => exact advances_bind h (fun _ _ _ _ _ => trivial) h'
    | some b => exact closes_bind h h'
  agreed h := h.2 _ rfl
  refused {o _} := by
    cases o with
    | none => exact advances_false _
    | some b => exact closes_false b
  arm {b which _ _} h := by
    refine advances_bind (keeps_info b) (info_finds b) fun head => ?_
    refine advances_bind (composes_keeps.armsOf head which)
      (fun st r st' start => armsOf_finds head which st r st' start.1) fun r => ?_
    obtain ⟨k, same, yes, no⟩ := h head r.1 r.2
    rw [same]
    refine advances_bind (composes_keeps.isUsable r.1) (isUsable_finds r.1) fun usable => ?_
    cases usable with
    | false => exact advances_any no
    | true => exact advances_of_closes (fun st fresh => fresh rfl) yes
  arms {b _ _} h := by
    refine advances_bind (keeps_info b) (info_finds b) fun head => ?_
    refine advances_bind (keeps_infoOf _) (fun st i st' start => info_finds _ st i st' start.1)
      fun taken => ?_
    refine advances_bind (Q := fun _ st => st.Opens taken) (keeps_infoOf _) ?_ fun other => ?_
    · intro st i st' start found
      obtain ⟨-, rfl⟩ := yields_info found
      exact start.2
    cases done : taken.done with
    | false =>
      exact advances_of_closes (fun st opens => opens done) (h head taken other (some _) fun _ => rfl)
    | true => exact advances_any (h head taken other none fun fresh => by simp [done] at fresh)

theorem advances_convert (c : Candidate) : Advances State.Numbered (convert t c) :=
  (converting_keeps t).convert c

end Conversions

section Analysis

variable (s : Setting)

private theorem keeps_enqueue (c : Candidate) : Keeps (enqueue s c) := by
  unfold enqueue
  split
  · exact keeps_pure ()
  · refine keeps_bind (fun _ => .of_infos rfl rfl) fun _ => ?_
    exact keeps_mark (fun _ => rfl) fun _ => rfl

private theorem keeps_look (b : BlockId) : Keeps (look s b) := by
  refine keeps_bind_info fun st => ?_
  split
  · exact .refl st
  · -- the summary is brought up to date and goes back to the place where it was found
    refine ages_bind_query fun i scanned => ?_
    obtain ⟨block, -, done, -⟩ := Summary.scan_tags scanned
    refine ages_bind (ages_setInfo ?_ fun before => ?_) fun _ => keeps_pure _
    · split <;> exact block
    · split <;> exact done.trans before

theorem analyzing_keeps : Analyzing s Keeps :=
  { composes_keeps with
    queued := fun _ => keeps_bind keeps_get fun _ => keeps_report _
    enqueue := keeps_enqueue s
    look := keeps_look s
    finished := fun _ => keeps_mark (fun _ => rfl) fun _ => rfl
    visit := keeps_visit
    sized := fun h => keeps_bind keeps_get fun _ => h _
    unsettled := keeps_throw _
    start := fun _ => .of_infos rfl rfl }

theorem keeps_analyze : Keeps (analyze s) := (analyzing_keeps s).analyze

theorem keeps_ensureValid (failure : Defect → Failure) : Keeps (ensureValid failure) :=
  composes_keeps.ensureValid failure

theorem keeps_dequeue (c : Candidate) : Keeps (dequeue c) := by
  unfold dequeue
  refine keeps_bind (keeps_info _) fun i => ?_
  exact keeps_bind (keeps_mark (fun _ => rfl) fun _ => rfl) fun _ => keeps_pure _

theorem keeps_cleanUp : Keeps cleanUp := by
  unfold cleanUp
  refine keeps_bind keeps_procedure fun f => keeps_bind (fun _ => .of_infos rfl rfl) fun _ => ?_
  refine keeps_bind (keeps_ofExcept _) fun r => ?_
  exact keeps_bind (fun _ => .of_infos rfl rfl) fun _ => keeps_pure _

theorem yields_cleanUp {changed : Bool} {st st' : State} (h : Yields cleanUp st changed st') :
    ∃ g log log', (Cleanup.run st.procedure).run #[] = (.ok (g, changed), log') ∧
      st' = { st with procedure := g, log := log } := by
  unfold cleanUp at h
  obtain ⟨f, mid, first, h⟩ := yields_bind.mp h
  obtain ⟨rfl, rfl⟩ := yields_procedure.mp first
  obtain ⟨u, mid, second, h⟩ := yields_bind.mp h
  obtain rfl := yields_modify.mp second
  obtain ⟨r, mid, third, h⟩ := yields_bind.mp h
  obtain ⟨done, rfl⟩ := yields_ofExcept.mp third
  obtain ⟨u, mid, fourth, h⟩ := yields_bind.mp h
  obtain rfl := yields_modify.mp fourth
  obtain ⟨rfl, rfl⟩ := yields_pure.mp h
  exact ⟨r.1, _, _, Prod.ext done rfl, rfl⟩

theorem keeps_reportListing (wanted : Bool)
    (event : String → Except Listing.WriteError String → Event) :
    Keeps (reportListing wanted event) :=
  composes_keeps.reportListing wanted event

end Analysis

end Predication.Conversion
