import Predication.Proofs.ArmsFirst
import Predication.Proofs.BitSets

/-!
The walk of the analysis. From the blocks where control ends it goes back along the edges and comes to
each block once, so the number of blocks bounds its steps, and a round is never stopped for want of more.
-/

set_option autoImplicit false
set_option relaxedAutoImplicit false

namespace Predication.Conversion

open Predication.Conversion.Convert

variable {α β : Type} {st mid st' : State}

/-- From this state the step goes past no bound. -/
def Bounded (m : Convert α) (st : State) : Prop := (m.run st).1 ≠ .error .unsettled

theorem Finishes.bounded {m : Convert α} (h : Finishes m) (st : State) : Bounded m st := (h st).1

theorem Bounded.bind {m : Convert α} {k : α → Convert β} (h : Bounded m st)
    (h' : ∀ a st', Yields m st a st' → Bounded (k a) st') : Bounded (m >>= k) st := by
  unfold Bounded at h ⊢
  rw [run_bind]
  rcases run : m.run st with ⟨e | a, mid⟩
  · rw [run] at h
    rintro ⟨⟩
    exact h rfl
  · exact h' a mid run

private theorem bounded_visit (b : BlockId) : Bounded (visit b) st := by
  refine (finishes_get.bounded st).bind fun _ st _ => ?_
  refine ((finishes_ofExcept _).bounded st).bind fun r st _ => ?_
  exact Bounded.bind (fun stop => nomatch stop) fun _ st _ => (finishes_pure r.2).bounded st

/-- The number of blocks that a walk has before it: those on its stack, and those that were not visited.
An id that names no block does not count, since the walk stops there. -/
def State.ahead (st : State) (stack : List BlockId) : Nat :=
  st.visited.missing 1 st.infos.size + stack.countP fun b : BlockId => decide (0 ≤ b ∧ b < st.infos.size)

private theorem ahead_visit {b : BlockId} {new : Bool} (stack : List BlockId)
    (h : Yields (visit b) st new st') :
    st'.infos.size = st.infos.size ∧
      st'.ahead (if new then b :: stack else stack) ≤ st.ahead stack := by
  obtain ⟨_, _, first, h⟩ := yields_bind.mp h
  obtain ⟨rfl, rfl⟩ := yields_get.mp first
  obtain ⟨r, _, second, h⟩ := yields_bind.mp h
  obtain ⟨added, rfl⟩ := yields_ofExcept.mp second
  obtain ⟨_, _, third, h⟩ := yields_bind.mp h
  obtain rfl := yields_modify.mp third
  obtain ⟨rfl, rfl⟩ := yields_pure.mp h
  refine ⟨rfl, ?_⟩
  unfold State.ahead
  rcases BitSet.insertNew_cases added with ⟨-, same, old⟩ | ⟨fresh, new, mem⟩
  · rw [old, same]
    exact Nat.le_refl _
  · rw [new, if_pos rfl, List.countP_cons]
    dsimp only
    by_cases range : 0 ≤ b ∧ b < st.infos.size
    · have one : _ + 1 = _ := BitSet.missing_insert 1 range.1 range.2 fresh mem
      rw [if_pos (decide_eq_true range)]
      omega
    · have fewer : r.1.missing 1 st.infos.size ≤ st.visited.missing 1 st.infos.size :=
        Finset.sum_le_sum_of_subset (Finset.monotone_filter_right _ fun k _ out old =>
          out ((mem k).mpr (.inl old)))
      rw [if_neg (by simpa using range)]
      omega

private theorem ahead_pushNew {stack stack' : List BlockId} {b : BlockId}
    (h : Yields (pushNew stack b) st stack' st') :
    st'.infos.size = st.infos.size ∧ st'.ahead stack' ≤ st.ahead stack := by
  obtain ⟨new, mid, visited, h⟩ := yields_bind.mp h
  have step := ahead_visit stack visited
  cases new with
  | true =>
    obtain ⟨rfl, rfl⟩ := yields_pure.mp h
    exact step
  | false =>
    obtain ⟨rfl, rfl⟩ := yields_pure.mp h
    exact step

private theorem pushAll_bounded (l stack : List BlockId) : Bounded (l.foldlM pushNew stack) st := by
  induction l generalizing st stack with
  | nil => exact (finishes_pure stack).bounded st
  | cons b l ih =>
    refine Bounded.bind ((bounded_visit b).bind fun new mid _ => ?_) fun stack st _ => ih stack
    cases new <;> exact (finishes_pure _).bounded mid

private theorem ahead_pushAll {l stack stack' : List BlockId}
    (h : Yields (l.foldlM pushNew stack) st stack' st') :
    st'.infos.size = st.infos.size ∧ st'.ahead stack' ≤ st.ahead stack := by
  induction l generalizing st stack with
  | nil =>
    obtain ⟨rfl, rfl⟩ := yields_pure.mp h
    exact ⟨rfl, Nat.le_refl _⟩
  | cons b l ih =>
    obtain ⟨stack₁, mid, first, rest⟩ := yields_bind.mp h
    obtain ⟨size, le⟩ := ahead_pushNew first
    obtain ⟨size', le'⟩ := ih rest
    exact ⟨size'.trans size, le'.trans le⟩

variable (s : Setting)

private theorem range_of_analyzeBlock {b : BlockId} {u : Unit} (h : Yields (analyzeBlock s b) st u st') :
    0 ≤ b ∧ b < st.infos.size := by
  rw [Yields, run_analyzeBlock, analyzeStack_block] at h
  obtain ⟨i, mid, looked, -⟩ := yields_bind.mp h
  obtain ⟨j, _, found, -⟩ := yields_bind.mp looked
  rw [Yields, run_info] at found
  cases there : Arena.get st.infos b with
  | error e =>
    rw [there] at found
    cases found
  | ok k => exact Arena.get_range.mp ⟨k, there⟩

private theorem ahead_analyzeBlock {b : BlockId} {u : Unit} (stack : List BlockId)
    (h : Yields (analyzeBlock s b) st u st') : st'.ahead stack < st.ahead (b :: stack) := by
  have range := range_of_analyzeBlock s h
  have visited := (finishes_analyzeBlock s b st).2
  have size := ((analyzing_keeps s).analyzeBlock b st).size
  rw [h] at visited size
  unfold State.ahead
  rw [List.countP_cons, if_pos (decide_eq_true range), visited, size]
  omega

private theorem analyzeBack_bounded {fuel : Nat} {stack : List BlockId} (enough : st.ahead stack < fuel) :
    Bounded (analyzeBack s fuel stack) st := by
  induction fuel generalizing st stack with
  | zero => omega
  | succ fuel ih =>
    cases stack with
    | nil => exact (finishes_pure ()).bounded st
    | cons b stack =>
      refine ((finishes_analyzeBlock s b).bounded st).bind fun u mid analyzed => ?_
      have fewer := ahead_analyzeBlock s stack analyzed
      refine ((finishes_query _).bounded mid).bind fun preds mid' asked => ?_
      obtain ⟨-, rfl⟩ := yields_query.mp asked
      refine (pushAll_bounded _ stack).bind fun stack' mid' pushed => ih ?_
      have le := (ahead_pushAll pushed).2
      omega

private theorem analyzeRoots_bounded (l : List BlockId) : Bounded (analyzeRoots s l) st := by
  induction l generalizing st with
  | nil => exact (finishes_pure ()).bounded st
  | cons root l ih =>
    refine ((finishes_query _).bounded st).bind fun succs mid _ => ?_
    split
    · refine (bounded_visit root).bind fun new mid' visited => ?_
      split
      · rename_i fresh
        refine (finishes_get.bounded mid').bind fun st₁ mid₁ asked => ?_
        obtain ⟨rfl, rfl⟩ := yields_get.mp asked
        refine (analyzeBack_bounded s ?_).bind fun _ _ _ => ih
        obtain ⟨size, le⟩ := ahead_visit [] visited
        rw [fresh, if_pos rfl] at le
        have all := mid.visited.missing_le 1 mid.infos.size
        rw [show ∑ k ∈ Finset.range mid.infos.size, (1 : Nat → Nat) k = mid.infos.size by simp] at all
        have start : mid.ahead [] = mid.visited.missing 1 mid.infos.size := rfl
        omega
      · exact ih
    · exact ih

private theorem analyze_bounded : Bounded (analyze s) st := by
  refine Bounded.bind (fun stop => nomatch stop) fun _ mid _ => ?_
  exact (composes_finishes.procedure.bounded mid).bind fun f _ _ => analyzeRoots_bounded s _

private theorem finishes_dequeue (c : Candidate) : Finishes (dequeue c) :=
  finishes_bind (composes_finishes.info _) fun _ =>
    finishes_bind (finishes_setInfo _ _) fun _ => finishes_pure _

private theorem tryAll_bounded (l : List Candidate) (changed : Bool) : Bounded (tryAll s l changed) st := by
  induction l generalizing st changed with
  | nil => exact (finishes_pure changed).bounded st
  | cons c l ih =>
    unfold tryAll
    refine ((finishes_dequeue c).bounded st).bind fun wanted st _ => ?_
    split
    · refine ((finishes_convert s.target c).bounded st).bind fun made st _ => ?_
      refine ((composes_finishes.info _).bounded st).bind fun i st _ => ?_
      refine (composes_finishes.procedure.bounded st).bind fun f st _ => ?_
      refine ((composes_finishes.report _).bounded st).bind fun _ st _ => ?_
      split
      · refine ((finishes_tally _).bounded st).bind fun _ st _ => ?_
        extract_lets rest
        have goOn : ∀ (u : Unit) (st : State), Bounded (rest u) st := by
          intro u st
          refine (finishes_get.bounded st).bind fun _ st _ => ?_
          split
          · exact ih true
          · exact (finishes_pure true).bounded st
        split
        · refine (composes_finishes.procedure.bounded st).bind fun f st _ => ?_
          exact ((composes_finishes.ensureValid _).bounded st).bind fun u st _ => goOn u st
        · exact goOn () st
      · exact ih changed
    · exact ih changed

theorem round_bounded : Bounded (round s) st := by
  refine (analyze_bounded s).bind fun _ mid _ => (finishes_get.bounded mid).bind fun _ mid _ => ?_
  refine ((composes_finishes.report _).bounded mid).bind fun _ mid _ => ?_
  refine (finishes_get.bounded mid).bind fun _ mid _ => ?_
  refine (tryAll_bounded s _ false).bind fun changed mid _ => ?_
  exact Bounded.bind (fun stop => nomatch stop) fun _ mid _ => (finishes_pure changed).bounded mid

end Predication.Conversion
