import Predication.Proofs.Finishing
import Predication.Proofs.Retirement

/-!
The order in which blocks are analyzed. A block that ends in a two way branch is classified behind both
of its arms, and an arm that leads back to a block on the way is not followed again. The stack that this
is done with unwinds a recursion; both are given here without a bound and with a record of what they do.
-/

set_option autoImplicit false
set_option relaxedAutoImplicit false

namespace Predication.Conversion

open Predication.Conversion.Convert

/-- What is done to a block: its code was gone through, or it is classified in a certain state. -/
inductive Act where
  | scan (b : BlockId)
  | classify (b : BlockId) (st : State)

/-- The blocks whose code was gone through. -/
def scans (acts : List Act) : List BlockId :=
  acts.filterMap fun
    | .scan b => some b
    | .classify _ _ => none

/-- The blocks that were classified. -/
def classified (acts : List Act) : List BlockId :=
  acts.filterMap fun
    | .scan _ => none
    | .classify b _ => some b

abbrev Recorded := ExceptT Stop (StateT (State × List Act) Option)

namespace Recorded

variable {α β : Type}

def of (m : Convert α) : Recorded α :=
  ExceptT.mk fun x => some ((m.run x.1).1, ((m.run x.1).2, x.2))

def note (a : State → Act) : Recorded Unit :=
  ExceptT.mk fun x => some (.ok (), (x.1, x.2 ++ [a x.1]))

private theorem run_bind (m : Recorded α) (k : α → Recorded β) (x : State × List Act) :
    (m >>= k).run.run x = match m.run.run x with
      | none => none
      | some (.ok a, y) => (k a).run.run y
      | some (.error e, y) => some (.error e, y) := by
  change (m.run.run x >>= fun y => (ExceptT.bindCont k y.1).run y.2) = _
  rcases m.run.run x with _ | ⟨e | a, y⟩ <;> rfl

private theorem run_of (m : Convert α) (x : State × List Act) :
    (of m).run.run x = some ((m.run x.1).1, ((m.run x.1).2, x.2)) := rfl

private theorem run_note (a : State → Act) (x : State × List Act) :
    (note a).run.run x = some (.ok (), (x.1, x.2 ++ [a x.1])) := rfl

end Recorded

/-- The analysis as a recursion: a block that was not visited is gone through, and if it is a head, both
of its arms are analyzed and then the block is classified. -/
def Setting.explore (s : Setting) (b : BlockId) : Recorded Unit := do
  match ← Recorded.of (look s b) with
  | none => return ()
  | some i =>
    Recorded.note fun _ => .scan b
    if i.isHead then
      s |>.explore (BlockId.ofOption i.taken)
      s |>.explore (BlockId.ofOption i.other)
      Recorded.note (.classify b)
      Recorded.of (finish s b)
    else
      return ()
partial_fixpoint

/-- The analysis with a stack, for as long as there is something on it. -/
def Setting.unwind (s : Setting) : List Pending → Recorded Unit
  | [] => return ()
  | p :: stack => do
    if p.armsDone then
      Recorded.note (.classify p.block)
      Recorded.of (finish s p.block)
      s |>.unwind stack
    else
      match ← Recorded.of (look s p.block) with
      | none => s |>.unwind stack
      | some i =>
        Recorded.note fun _ => .scan p.block
        if i.isHead then
          s |>.unwind ({ block := BlockId.ofOption i.taken } :: { block := BlockId.ofOption i.other } ::
            { block := p.block, armsDone := true } :: stack)
        else
          s |>.unwind stack
partial_fixpoint

def State.Seen (st : State) (b : BlockId) : Prop := (st.at b).visit ≠ .unvisited

def State.unseen (st : State) : Finset Nat :=
  (Finset.range st.infos.size).filter fun k => (st.at k).visit = .unvisited

/-- Blocks stay visited, with the arms that they have. -/
structure Onward (st st' : State) : Prop where
  size : st'.infos.size = st.infos.size
  seen : ∀ b, st.Seen b → st'.Seen b ∧ (st'.at b).taken = (st.at b).taken ∧
    (st'.at b).other = (st.at b).other

variable {s} {st mid st' : State} {b : BlockId}

theorem Onward.refl (st : State) : Onward st st := ⟨rfl, fun _ seen => ⟨seen, rfl, rfl⟩⟩

private theorem Onward.trans (h : Onward st mid) (h' : Onward mid st') : Onward st st' where
  size := h'.size.trans h.size
  seen b seen := by
    obtain ⟨there, taken, other⟩ := h.seen b seen
    obtain ⟨later, taken', other'⟩ := h'.seen b there
    exact ⟨later, taken'.trans taken, other'.trans other⟩

private theorem State.mem_unseen {k : Nat} : k ∈ st.unseen ↔ k < st.infos.size ∧ ¬ st.Seen k := by
  simp [State.unseen, State.Seen]

private theorem Onward.unseen_subset (h : Onward st st') : st'.unseen ⊆ st.unseen := by
  intro k mem
  obtain ⟨range, fresh⟩ := State.mem_unseen.mp mem
  exact State.mem_unseen.mpr ⟨h.size ▸ range, fun seen => fresh (h.seen k seen).1⟩

private theorem Onward.card_lt (h : Onward st st') (fresh : ¬ st.Seen b) (seen : st'.Seen b) :
    st'.unseen.card < st.unseen.card := by
  obtain ⟨k, range, rfl⟩ : ∃ k : Nat, k < st'.infos.size ∧ b = k := by
    by_contra out
    refine seen ?_
    have none : Arena.get st'.infos b = .error .outOfRange :=
      Arena.get_error.mpr ⟨rfl, fun range => out ⟨b.toNat, by omega, (Int.toNat_of_nonneg range.1).symm⟩⟩
    simp [State.at, infoAt, none]
  refine Finset.card_lt_card (Finset.ssubset_iff_of_subset h.unseen_subset |>.mpr ⟨k, ?_, ?_⟩)
  · exact State.mem_unseen.mpr ⟨h.size ▸ range, fresh⟩
  · exact fun mem => (State.mem_unseen.mp mem).2 seen

private theorem Onward.of_update {u : Summary → Summary} {infos : Array Summary}
    (h : Arena.update st.infos b u = .ok infos)
    (good : st.Seen b → (u (st.at b)).visit ≠ .unvisited ∧ (u (st.at b)).taken = (st.at b).taken ∧
      (u (st.at b)).other = (st.at b).other) : Onward st { st with infos := infos } := by
  have view : ∀ c, infoAt infos c = if c = b then u (st.at c) else st.at c := infoAt_update h
  refine ⟨Arena.size_update h, fun c seen => ?_⟩
  unfold State.Seen State.at
  simp only [view]
  split
  · rename_i same
    subst same
    exact good seen
  · exact ⟨seen, rfl, rfl⟩

def Marches {α : Type} (m : Convert α) : Prop := ∀ st, Onward st (m.run st).2

private theorem marches_bind {α β : Type} {m : Convert α} {k : α → Convert β} (h : Marches m)
    (h' : ∀ a, Marches (k a)) : Marches (m >>= k) :=
  fun st => state_bind (h st) fun a => (h st).trans (h' a _)

private theorem marches_ofExcept {α : Type} (x : Except Fault α) : Marches (ofExcept x) := by
  intro st
  cases x <;> exact .refl st

private theorem marches_query {α : Type} (g : Procedure → Except Fault α) : Marches (query g) :=
  marches_bind .refl fun st => marches_ofExcept (g st.procedure)

private theorem marches_report (e : Event) : Marches (report e) :=
  fun _ => ⟨rfl, fun _ seen => ⟨seen, rfl, rfl⟩⟩

private theorem marches_setInfo {u : Summary → Summary}
    (visit : ∀ i, i.visit ≠ .unvisited → (u i).visit ≠ .unvisited)
    (taken : ∀ i, (u i).taken = i.taken) (other : ∀ i, (u i).other = i.other) :
    Marches (setInfo b u) := by
  intro st
  rw [run_setInfo]
  cases updated : Arena.update st.infos b u with
  | error e => exact .refl st
  | ok infos => exact .of_update updated fun seen => ⟨visit _ seen, taken _, other _⟩

private theorem marches_classify (b : BlockId) : Marches (classify s b) := by
  refine Classifying.classify (P := Marches) ⟨⟨marches_bind, fun _ => .refl, fun _ _ => .refl, .refl,
    marches_query, marches_ofExcept, fun b => marches_bind .refl fun st => marches_ofExcept _,
    marches_report⟩, fun name => marches_bind .refl fun st => marches_report _, fun c => ?_⟩ b
  unfold enqueue
  split
  · exact .refl
  · refine marches_bind (fun _ => ⟨rfl, fun _ seen => ⟨seen, rfl, rfl⟩⟩) fun _ => ?_
    exact marches_setInfo (fun _ seen => seen) (fun _ => rfl) fun _ => rfl

private theorem marches_finish (b : BlockId) : Marches (finish s b) :=
  marches_bind (marches_classify b) fun _ =>
    marches_setInfo (fun _ _ => by simp) (fun _ => rfl) fun _ => rfl

private theorem look_cases (s : Setting) (st : State) (b : BlockId) :
    (∃ e, (look s b).run st = (.error e, st)) ∨ (st.Seen b ∧ (look s b).run st = (.ok none, st)) ∨
      ∃ i st', (look s b).run st = (.ok (some i), st') ∧ ¬ st.Seen b ∧ st'.Seen b ∧ Onward st st' ∧
        (st'.at b).taken = i.taken ∧ (st'.at b).other = i.other := by
  unfold look
  rw [run_bind, run_info]
  cases found : Arena.get st.infos b with
  | error e => exact .inl ⟨.fault e, rfl⟩
  | ok i =>
    have here : st.at b = i := infoAt_eq found
    dsimp only
    by_cases seen : i.visit ≠ .unvisited
    · rw [if_pos seen]
      exact .inr (.inl ⟨by rwa [State.Seen, here], rfl⟩)
    · have fresh : ¬ st.Seen b := by rwa [State.Seen, here]
      rw [if_neg seen, run_bind, run_query]
      cases scanned : ({ i with visit := .analyzing } : Summary).scan s.target st.procedure with
      | error e => exact .inl ⟨.fault e, rfl⟩
      | ok j =>
        have updated := Arena.update_eq_ok.mpr ⟨Arena.get_range.mp ⟨i, found⟩,
          (rfl : st.infos.modify b.toNat (fun _ => if j.isHead then j else { j with visit := .analyzed }) = _)⟩
        have view := infoAt_update updated b
        rw [if_pos rfl] at view
        dsimp only
        rw [run_bind, run_setInfo, updated]
        refine .inr (.inr ⟨j, _, rfl, fresh, ?_, .of_update updated fun seen => absurd seen fresh, ?_, ?_⟩)
        · change (infoAt _ b).visit ≠ .unvisited
          rw [view]
          split
          · simp [(Summary.scan_tags scanned).2.1]
          · simp
        · change (infoAt _ b).taken = _
          rw [view]
          split <;> rfl
        · change (infoAt _ b).other = _
          rw [view]
          split <;> rfl

/-- Both arms of the block were visited. -/
def State.ArmsSeen (st : State) (b : BlockId) : Prop :=
  st.Seen (BlockId.ofOption (st.at b).taken) ∧ st.Seen (BlockId.ofOption (st.at b).other)

/-- What is on record of an analysis between two states: the blocks that were gone through are those
visited in between, each once, and of these some are classified, each once and behind its arms. -/
structure Orderly (st st' : State) (acts : List Act) : Prop where
  onward : Onward st st'
  fresh : ∀ b ∈ scans acts, ¬ st.Seen b ∧ st'.Seen b
  scanned : (scans acts).Nodup
  within : classified acts ⊆ scans acts
  classified : (classified acts).Nodup
  arms : ∀ b mid, .classify b mid ∈ acts → mid.ArmsSeen b

private theorem scans_append (l l' : List Act) : scans
    (l ++ l') = scans l ++ scans l' := List.filterMap_append

private theorem classified_append (l l' : List Act) : classified (l ++ l') = classified l ++ classified l' :=
  List.filterMap_append

namespace Orderly

variable {l l' : List Act}

theorem refl (st : State) : Orderly st st [] :=
  ⟨.refl st, by simp [scans], .nil, by simp [Conversion.classified], .nil, by simp⟩

private theorem scan (onward : Onward st st') (fresh : ¬ st.Seen b) (seen : st'.Seen b) :
    Orderly st st' [.scan b] :=
  ⟨onward, by simp [scans, fresh, seen], by simp [scans], by simp [Conversion.classified],
    by simp [Conversion.classified], by simp⟩

private theorem disjoint (h : Orderly st mid l) (h' : Orderly mid st' l') : (scans l).Disjoint (scans l') :=
  fun b mem mem' => (h'.fresh b mem').1 (h.fresh b mem).2

private theorem append (h : Orderly st mid l) (h' : Orderly mid st' l') : Orderly st st' (l ++ l') where
  onward := h.onward.trans h'.onward
  fresh b mem := by
    rw [scans_append] at mem
    rcases List.mem_append.mp mem with mem | mem
    · obtain ⟨fresh, seen⟩ := h.fresh b mem
      exact ⟨fresh, (h'.onward.seen b seen).1⟩
    · obtain ⟨fresh, seen⟩ := h'.fresh b mem
      exact ⟨fun before => fresh (h.onward.seen b before).1, seen⟩
  scanned := by
    rw [scans_append]
    exact h.scanned.append h'.scanned (h.disjoint h')
  within := by
    rw [scans_append, classified_append]
    exact List.append_subset.mpr ⟨fun b mem => List.mem_append_left _ (h.within mem),
      fun b mem => List.mem_append_right _ (h'.within mem)⟩
  classified := by
    rw [classified_append]
    exact h.classified.append h'.classified fun b mem mem' =>
      h.disjoint h' (h.within mem) (h'.within mem')
  arms b st mem := (List.mem_append.mp mem).elim (h.arms b st) (h'.arms b st)

/-- A head that was gone through is classified at the end. -/
private theorem close {first : State} (head : Orderly st first [.scan b]) (inner : Orderly first mid l)
    (arms : mid.ArmsSeen b) (onward : Onward mid st') :
    Orderly st st' ([.scan b] ++ l ++ [.classify b mid]) where
  onward := (head.onward.trans inner.onward).trans onward
  fresh c mem := by
    rw [scans_append] at mem
    have both := (head.append inner).fresh c (by simpa [scans] using mem)
    exact ⟨both.1, (onward.seen c both.2).1⟩
  scanned := by
    rw [scans_append]
    simpa [scans] using (head.append inner).scanned
  within := by
    rw [scans_append, classified_append]
    refine List.append_subset.mpr ⟨fun c mem => ?_, by simp [Conversion.classified, scans]⟩
    exact List.mem_append_left _ ((head.append inner).within mem)
  classified := by
    rw [classified_append]
    refine (head.append inner).classified.append (List.nodup_singleton b) fun c mem mem' => ?_
    obtain rfl : c = b := by simpa [Conversion.classified] using mem'
    have mem : c ∈ Conversion.classified l := by simpa [Conversion.classified] using mem
    exact (inner.fresh c (inner.within mem)).1 (head.fresh c (by simp [scans])).2
  arms c st mem := by
    rcases List.mem_append.mp mem with mem | mem
    · exact (head.append inner).arms c st mem
    · cases List.mem_singleton.mp mem
      exact arms

end Orderly

private theorem explore_orderly (s : Setting) (st : State) (b : BlockId) (acts : List Act) :
    ∃ r st' new, (s.explore b).run.run (st, acts) = some (r, (st', acts ++ new)) ∧
      Orderly st st' new ∧ (r = .ok () → st'.Seen b) := by
  -- fewer and fewer blocks are left that were not visited
  induction left : st.unseen.card using Nat.strong_induction_on generalizing st b acts with
  | _ n ih =>
    subst left
    rw [Setting.explore, Recorded.run_bind, Recorded.run_of]
    rcases look_cases s st b with ⟨e, looked⟩ | ⟨seen, looked⟩ | ⟨i, st₁, looked, fresh, seen, onward, taken, other⟩
    · rw [looked]
      exact ⟨.error e, st, [], by simp, .refl st, by simp⟩
    · rw [looked]
      exact ⟨.ok (), st, [], by simp, .refl st, fun _ => seen⟩
    · rw [looked]
      have first := Orderly.scan onward fresh seen
      have fewer := onward.card_lt fresh seen
      dsimp only
      rw [Recorded.run_bind, Recorded.run_note]
      dsimp only
      split
      · obtain ⟨r, st₂, new, ran, second, there⟩ := ih _ fewer st₁ (BlockId.ofOption i.taken) _ rfl
        rw [Recorded.run_bind, ran]
        rcases r with e | u
        · exact ⟨.error e, st₂, [.scan b] ++ new, by simp, first.append second, by simp⟩
        have fewer' := (Finset.card_le_card second.onward.unseen_subset).trans_lt fewer
        obtain ⟨r, st₃, new', ran', third, there'⟩ := ih _ fewer' st₂ (BlockId.ofOption i.other) _ rfl
        dsimp only
        rw [Recorded.run_bind, ran']
        rcases r with e | u
        · exact ⟨.error e, st₃, [.scan b] ++ new ++ new', by simp, (first.append second).append third, by simp⟩
        have inner := second.append third
        obtain ⟨still, same, same'⟩ := inner.onward.seen b seen
        have arms : st₃.ArmsSeen b := by
          unfold State.ArmsSeen
          rw [same, same', taken, other]
          exact ⟨(third.onward.seen _ (there rfl)).1, there' rfl⟩
        have last := marches_finish (s := s) b st₃
        refine ⟨((finish s b).run st₃).1, ((finish s b).run st₃).2,
          [.scan b] ++ (new ++ new') ++ [.classify b st₃], ?_, first.close inner arms last, ?_⟩
        · dsimp only
          rw [Recorded.run_bind, Recorded.run_note]
          dsimp only
          rw [Recorded.run_of]
          simp
        · exact fun _ => (last.seen b still).1
      · exact ⟨.ok (), st₁, [.scan b], by simp, first, fun _ => seen⟩

private theorem unwind_cons (s : Setting) (st : State) (b : BlockId) (stack : List Pending)
    (acts : List Act) :
    (s.unwind ({ block := b } :: stack)).run.run (st, acts) =
      (s.explore b >>= fun _ => s.unwind stack).run.run (st, acts) := by
  induction left : st.unseen.card using Nat.strong_induction_on generalizing st b stack acts with
  | _ n ih =>
    subst left
    rw [Setting.unwind, Setting.explore, bind_assoc, if_neg (by simp), Recorded.run_bind,
      Recorded.run_bind, Recorded.run_of]
    rcases look_cases s st b with ⟨e, looked⟩ | ⟨seen, looked⟩ | ⟨i, st₁, looked, fresh, seen, onward, -, -⟩
    · rw [looked]
    · rw [looked]
      rfl
    · rw [looked]
      have fewer := onward.card_lt fresh seen
      dsimp only
      rw [bind_assoc, Recorded.run_bind, Recorded.run_bind, Recorded.run_note]
      dsimp only
      split
      · rw [ih _ fewer st₁ _ _ _ rfl, bind_assoc, Recorded.run_bind, Recorded.run_bind]
        obtain ⟨r, st₂, new, ran, second, -⟩ := explore_orderly s st₁ (BlockId.ofOption i.taken) (acts ++ [.scan b])
        rw [ran]
        rcases r with e | u
        · rfl
        have fewer' := (Finset.card_le_card second.onward.unseen_subset).trans_lt fewer
        have closing : s.unwind ({ block := b, armsDone := true } :: stack) =
            ((do Recorded.note (.classify b); Recorded.of (finish s b)) >>= fun _ => s.unwind stack) := by
          rw [Setting.unwind, if_pos rfl, bind_assoc]
        dsimp only
        rw [ih _ fewer' st₂ _ _ _ rfl, bind_assoc, closing]
      · rfl

private theorem unwind_eq (s : Setting) (fuel : Nat) (stack : List Pending) (st : State) (acts : List Act)
    (enough : 3 * st.unseen.card + stack.length ≤ fuel) :
    (∃ acts', (s.unwind stack).run.run (st, acts) =
      some (((analyzeStack s fuel stack).run st).1, (((analyzeStack s fuel stack).run st).2, acts'))) ∧
    ((analyzeStack s fuel stack).run st).1 ≠ .error .unsettled ∧
    ((analyzeStack s fuel stack).run st).2.visited = st.visited := by
  induction fuel generalizing stack st acts with
  | zero =>
    obtain rfl : stack = [] := List.length_eq_zero_iff.mp (by omega)
    exact ⟨⟨acts, by rw [Setting.unwind]; rfl⟩, nofun, rfl⟩
  | succ fuel ih =>
    rcases stack with _ | ⟨⟨b, armsDone⟩, stack⟩
    · exact ⟨⟨acts, by rw [Setting.unwind]; rfl⟩, nofun, rfl⟩
    rw [List.length_cons] at enough
    cases armsDone with
    | true =>
      rw [analyzeStack_head, Setting.unwind, if_pos rfl, Recorded.run_bind, Recorded.run_note]
      dsimp only
      rw [Recorded.run_bind, Recorded.run_of, run_bind, run_info]
      have last := marches_finish (s := s) b st
      obtain ⟨bounded, same⟩ := finishes_finish s b st
      cases found : Arena.get st.infos b with
      | error e =>
        have failed : (finish s b).run st = (.error (.fault e), st) := by
          unfold finish classify
          rw [bind_assoc, run_bind, run_info, found]
        rw [failed]
        exact ⟨⟨_, rfl⟩, nofun, rfl⟩
      | ok i =>
        dsimp only
        rw [run_bind]
        cases ran : (finish s b).run st with
        | mk result mid =>
          rw [ran] at last bounded same
          cases result with
          | error e => exact ⟨⟨_, rfl⟩, bounded, same⟩
          | ok u =>
            have fewer : mid.unseen.card ≤ st.unseen.card := Finset.card_le_card last.unseen_subset
            rw [← same]
            exact ih stack mid _ (by omega)
    | false =>
      obtain ⟨bounded, same⟩ := finishes_look s b st
      rw [analyzeStack_block, Setting.unwind, if_neg (by simp), Recorded.run_bind, Recorded.run_of, run_bind]
      rcases look_cases s st b with ⟨e, looked⟩ | ⟨seen, looked⟩ | ⟨i, st₁, looked, fresh, seen, onward, -, -⟩
      · rw [looked] at bounded same ⊢
        exact ⟨⟨acts, rfl⟩, fun unsettled => bounded (by cases unsettled; rfl), same⟩
      · rw [looked]
        exact ih stack st acts (by omega)
      · rw [looked] at same ⊢
        have fewer := onward.card_lt fresh seen
        dsimp only at same ⊢
        rw [← same, Recorded.run_bind, Recorded.run_note]
        dsimp only
        split
        · exact ih _ st₁ _ (by simp only [List.length_cons]; omega)
        · exact ih stack st₁ _ (by omega)

theorem run_analyzeBlock (s : Setting) (b : BlockId) (st : State) : (analyzeBlock s b).run st =
    (analyzeStack s (4 * st.infos.size + 4) [{ block := b }]).run st := by
  have asked : (get : Convert State).run st = (.ok st, st) := rfl
  unfold analyzeBlock
  rw [run_bind, asked]

private theorem unwind_block (s : Setting) (b : BlockId) (st : State) (acts : List Act) :
    (∃ acts', (s.unwind [{ block := b }]).run.run (st, acts) =
      some (((analyzeBlock s b).run st).1, (((analyzeBlock s b).run st).2, acts'))) ∧
    ((analyzeBlock s b).run st).1 ≠ .error .unsettled ∧
    ((analyzeBlock s b).run st).2.visited = st.visited := by
  have few : st.unseen.card ≤ st.infos.size :=
    (Finset.card_filter_le _ _).trans_eq (Finset.card_range _)
  rw [run_analyzeBlock]
  refine unwind_eq s _ _ st acts ?_
  rw [List.length_singleton]
  omega

theorem finishes_analyzeBlock (s : Setting) (b : BlockId) : Finishes (analyzeBlock s b) :=
  fun st => (unwind_block s b st []).2

/-- The analysis of a block with a stack ends, and it does what the recursion does: it comes to the same
result and the same state by the same looks at blocks and the same classifications, made in the same
states. No block is gone through or classified twice, and none is classified before both of its arms were
visited. -/
theorem analyzeBlock_recursive (s : Setting) (st : State) (b : BlockId) :
    ∃ r st' acts, (s.unwind [{ block := b }]).run.run (st, []) = some (r, (st', acts)) ∧
      (s.explore b).run.run (st, []) = some (r, (st', acts)) ∧
      (analyzeBlock s b).run st = (r, st') ∧
      (scans acts).Nodup ∧ (classified acts).Nodup ∧
      ∀ c mid, .classify c mid ∈ acts → mid.ArmsSeen c := by
  obtain ⟨r, st', acts, ran, orderly, -⟩ := explore_orderly s st b []
  rw [List.nil_append] at ran
  have same : (s.unwind [{ block := b }]).run.run (st, []) = some (r, (st', acts)) := by
    rw [unwind_cons, Recorded.run_bind, ran, Setting.unwind]
    cases r <;> rfl
  refine ⟨r, st', acts, same, ran, ?_, orderly.scanned, orderly.classified, orderly.arms⟩
  obtain ⟨⟨acts', bounded⟩, -⟩ := unwind_block s b st []
  rw [same] at bounded
  have outcome := Option.some.inj bounded
  simp only [Prod.mk.injEq] at outcome
  exact Prod.ext outcome.1.symm outcome.2.1.symm

end Predication.Conversion
