import Predication.Conversion.Summary
import Predication.Proofs.BlockViews

/-!
What looking at a block finds out. Its end tells how control leaves it, and then its code is gone
through, up to the first instruction that cannot be guarded.
-/

set_option autoImplicit false
set_option relaxedAutoImplicit false

namespace Predication.Summary

variable {t : Target} {f : Procedure} {i j : Summary}

def frame (i : Summary) : (BlockId × Visit × Bool × Bool) × Bool × Bool × Branch :=
  ((i.block, i.visit, i.done, i.queued), i.analyzable, i.fallsThrough,
    { taken := i.taken, other := i.other, cond := i.cond })

/-- What looking at an instruction makes of a summary, where the instruction can be guarded. In a
block that nobody guarded, nothing but branches comes after the setting of a predicate. -/
structure Looks (t : Target) (x : Inst) (i j : Summary) : Prop where
  frame : j.frame = i.frame
  guard : j.guard = i.guard
  debug : x.op.isDebug = true → j = i
  able : x.op.isDebug = false → x.op.isTerminator = false →
    t.isGuardable x = true ∨ x.op = .copy ∨ x.op = .undef
  intact : x.op.isDebug = false → x.op.isTerminator = false → i.guard = [] → i.clobbers = false
  sets : x.op.isDebug = false → x.op.isTerminator = false → t.setsPredicate x = true →
    i.guard = [] ∧ j.clobbers = true
  stays : i.clobbers = true → j.clobbers = true

private theorem looks_debug {x : Inst} (debug : x.op.isDebug = true) : Looks t x i i := by
  refine ⟨rfl, rfl, fun _ => rfl, ?_, ?_, ?_, id⟩ <;> intro plain <;>
    exact absurd (debug.symm.trans plain) (by simp)

theorem scanCode_cases {id : InstId} {rest : List InstId} (h : scanCode t f (id :: rest) i = .ok j) :
    ∃ x, f.inst id = .ok x ∧ ((j.frame = i.frame ∧ j.unguardable = true) ∨
      ∃ i', Looks t x i i' ∧ scanCode t f rest i' = .ok j) := by
  rw [scanCode] at h
  obtain ⟨x, found, h⟩ := bind_ok_iff.mp h
  refine ⟨x, found, ?_⟩
  have stop : ∀ i' : Summary, i'.frame = i.frame →
      (Except.ok { i' with unguardable := true } : Except Fault Summary) = .ok j →
      j.frame = i.frame ∧ j.unguardable = true := by
    rintro i' frame h
    cases h
    exact ⟨frame, rfl⟩
  split at h
  · rename_i debug
    exact .inr ⟨i, looks_debug debug, h⟩
  rename_i plain
  extract_lets s₁ guarded already isCond s₂ s₃ at h
  have first : s₁.frame = i.frame ∧ s₁.guard = i.guard ∧ s₁.clobbers = i.clobbers := by
    simp only [s₁]
    split <;> exact ⟨rfl, rfl, rfl⟩
  have second : s₂.frame = i.frame ∧ s₂.guard = i.guard ∧ s₂.clobbers = i.clobbers := by
    rw [← first.1, ← first.2.1, ← first.2.2]
    simp only [s₂]
    split <;> exact ⟨rfl, rfl, rfl⟩
  have third : s₃.frame = i.frame ∧ s₃.guard = i.guard := by
    rw [← second.1, ← second.2.1]
    simp only [s₃]
    split <;> exact ⟨rfl, rfl⟩
  have empty : already = false ↔ i.guard = [] := by
    simp only [already, first.2.1, Bool.not_eq_false', List.isEmpty_iff]
  split at h
  · exact .inl (stop s₁ first.1 h)
  rename_i outside
  split at h
  · split at h
    · -- a branch behind the setting of a predicate
      rename_i branch
      have exit : x.op.isTerminator = true := by
        have branch := (Bool.and_eq_true _ _ ▸ branch).2
        revert branch
        cases x.op <;> simp [Op.isBranch, Op.isTerminator]
      refine .inr ⟨s₂, ⟨second.1, second.2.1, fun debug => absurd debug plain, ?_, ?_, ?_,
        second.2.2.trans⟩, h⟩ <;>
        intro _ inner <;> exact absurd (exit.symm.trans inner) (by simp)
    · exact .inl (stop s₂ second.1 h)
  rename_i closed
  split at h
  · exact .inl (stop s₂ second.1 h)
  rename_i sets
  split at h
  · exact .inl (stop s₃ third.1 h)
  rename_i able
  refine .inr ⟨s₃, ⟨third.1, third.2, fun debug => absurd debug plain, fun _ _ => ?_,
    fun _ inner none => ?_, fun _ _ sets' => ?_, fun clobbers => ?_⟩, h⟩
  · simp only [Bool.and_eq_true, Bool.not_eq_true', decide_eq_true_eq, ne_eq, not_and, not_not,
      and_imp] at able
    by_cases can : t.isGuardable x = true
    · exact .inl can
    · by_cases copy : x.op = .copy
      · exact .inr (.inl copy)
      · exact .inr (.inr (able (by simpa using can) copy))
  · have other : isCond = false := by
      simp only [isCond, Bool.and_eq_false_iff, decide_eq_false_iff_not]
      right
      intro op
      rw [op] at inner
      cases inner
    have free : guarded = false := by simpa [other, empty.mpr none] using outside
    rw [← second.2.2]
    simpa [free] using closed
  · refine ⟨empty.mp (by simpa [sets'] using sets), ?_⟩
    simp only [s₃, sets', if_true]
  · simp only [s₃]
    split
    · rfl
    · exact second.2.2.trans clobbers

private theorem scanCode_frame {code : List InstId} (h : scanCode t f code i = .ok j) :
    j.frame = i.frame := by
  induction code generalizing i with
  | nil =>
    cases h
    rfl
  | cons id code ih =>
    obtain ⟨x, -, ⟨same, -⟩ | ⟨i', looks, h⟩⟩ := scanCode_cases h
    · exact same
    · exact (ih h).trans looks.frame

theorem scanCode_calm {code : List InstId} (h : scanCode t f code i = .ok j)
    (free : j.unguardable = false) (calm : j.clobbers = false) :
    i.clobbers = false ∧ ∀ x ∈ code.filterMap f.inst?, x.op.isDebug = false →
      x.op.isTerminator = false → t.setsPredicate x = false := by
  induction code generalizing i with
  | nil =>
    cases h
    exact ⟨calm, by simp⟩
  | cons id code ih =>
    obtain ⟨x, found, ⟨-, stuck⟩ | ⟨i', looks, h⟩⟩ := scanCode_cases h
    · exact absurd (stuck.symm.trans free) (by simp)
    obtain ⟨before, later⟩ := ih h
    rw [List.filterMap_cons_some (Procedure.inst?_eq_some.mpr found)]
    refine ⟨?_, List.forall_mem_cons.mpr ⟨fun live inner => ?_, later⟩⟩
    · by_contra clobbers
      exact absurd (looks.stays (by simpa using clobbers)) (by simp [before])
    · by_contra sets
      exact absurd (looks.sets live inner (by simpa using sets)).2 (by simp [before])

/-- The summary of a block with the end that a branch makes. Where the block falls through behind a
conditional branch, the way on is found among the successors. -/
def ending (f : Procedure) (i : Summary) (br : Option Branch) : Summary :=
  let s := i.setBranch br
  { s with
    other := if !s.cond.isEmpty && s.other.isNone then otherOf? (f.blockAt i.block).succs s.taken
      else s.other }

theorem block_setBranch (i : Summary) (br : Option Branch) : (i.setBranch br).block = i.block := by
  cases br <;> rfl

theorem scan_done (done : i.done = true) (h : i.scan t f = .ok j) : j = i := by
  unfold scan at h
  rw [if_pos done] at h
  exact (Except.ok.inj h).symm

/-- Looking at a block tells how it ends, and it goes through the code unless there is no way on. -/
theorem scan_cases (fresh : i.done = false) (h : i.scan t f = .ok j) :
    ∃ br, t.analyzeBranch f i.block = .ok br ∧ j.frame = (ending f i br).frame ∧
      (j.unguardable = true ∨ ∃ i', scanCode t f (f.blockAt i.block).code i' = .ok j) := by
  unfold scan at h
  rw [fresh] at h
  obtain ⟨br, analyzed, h⟩ := bind_ok_iff.mp h
  refine ⟨br, analyzed, ?_⟩
  extract_lets s finish at h
  have tag : s.block = i.block := block_setBranch i br
  have finished : ∀ s' : Summary, s'.block = i.block → finish s' = .ok j → j.frame = s'.frame ∧
      (j.unguardable = true ∨ ∃ i', scanCode t f (f.blockAt i.block).code i' = .ok j) := by
    intro s' tag h
    simp only [finish] at h
    split at h
    · cases h
      exact ⟨rfl, .inl rfl⟩
    · obtain ⟨code, asked, h⟩ := bind_ok_iff.mp h
      obtain ⟨-, rfl⟩ := Procedure.code_ok.mp asked
      have frame := scanCode_frame h
      rw [tag] at h
      exact ⟨frame, .inr ⟨_, h⟩⟩
  have ends : ending f i br = { s with
      other := if !s.cond.isEmpty && s.other.isNone then otherOf? (f.blockAt i.block).succs s.taken
        else s.other } := rfl
  rw [ends]
  split at h
  · rename_i lacks
    obtain ⟨succs, asked, h⟩ := bind_ok_iff.mp h
    obtain ⟨blk, found, same⟩ := bind_ok_iff.mp asked
    cases same
    rw [tag] at found
    rw [← Procedure.blockAt_eq found] at h
    rw [if_pos lacks]
    exact finished { s with other := otherOf? (f.blockAt i.block).succs s.taken } tag h
  · rename_i has
    rw [if_neg has]
    exact finished s tag h

theorem scan_tags (h : i.scan t f = .ok j) :
    j.block = i.block ∧ j.visit = i.visit ∧ j.done = i.done ∧ j.queued = i.queued := by
  cases done : i.done with
  | true =>
    rw [scan_done done h]
    exact ⟨rfl, rfl, done, rfl⟩
  | false =>
    obtain ⟨br, -, frame, -⟩ := scan_cases done h
    have tags : (ending f i br).frame.1 = i.frame.1 := by cases br <;> rfl
    have same : j.frame.1 = i.frame.1 := by rw [frame, tags]
    simp only [Summary.frame, Prod.mk.injEq] at same
    exact ⟨same.1, same.2.1, same.2.2.1.trans done, same.2.2.2⟩

end Predication.Summary
