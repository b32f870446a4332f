import Predication.Flow.Loops
import Predication.Proofs.DominatorTrees

/-!
Natural loops as they are found, one header after the other. A loop is filled from its latches
against the edges, and the header stops the search, so the loop gets the blocks from which control
comes to a latch without passing the header.
-/

set_option autoImplicit false
set_option relaxedAutoImplicit false

namespace Predication

section Lists

variable {α β : Type}

private theorem filterAuxM_gives {k : α → Except Fault Bool} {P : α → Prop} (l acc : List α)
    (h : ∀ x ∈ l, Gives (k x) fun r => r = true ↔ P x) :
    Gives (l.filterAuxM k acc) fun r =>
      r.length ≤ l.length + acc.length ∧ ∀ x, x ∈ r ↔ x ∈ acc ∨ x ∈ l ∧ P x := by
  induction l generalizing acc with
  | nil => exact .of_ok ⟨by simp, by simp⟩
  | cons y l ih =>
    rw [List.filterAuxM]
    refine (h y List.mem_cons_self).bind fun keep answer => ?_
    refine (ih _ fun x hx => h x (List.mem_cons_of_mem _ hx)).imp fun r result => ?_
    obtain ⟨short, mem⟩ := result
    cases keep with
    | true =>
      have holds : P y := answer.mp rfl
      refine ⟨by simp only [cond_true, List.length_cons] at short ⊢; omega, fun x => ?_⟩
      rw [mem]
      simp only [cond_true, List.mem_cons]
      constructor
      · rintro ((rfl | old) | ⟨later, good⟩)
        · exact .inr ⟨.inl rfl, holds⟩
        · exact .inl old
        · exact .inr ⟨.inr later, good⟩
      · rintro (old | ⟨rfl | later, good⟩)
        · exact .inl (.inr old)
        · exact .inl (.inl rfl)
        · exact .inr ⟨later, good⟩
    | false =>
      have fails : ¬ P y := fun good => absurd (answer.mpr good) (by simp)
      refine ⟨by simp only [cond_false, List.length_cons] at short ⊢; omega, fun x => ?_⟩
      rw [mem]
      simp only [cond_false, List.mem_cons]
      constructor
      · rintro (old | ⟨later, good⟩)
        · exact .inl old
        · exact .inr ⟨.inr later, good⟩
      · rintro (old | ⟨rfl | later, good⟩)
        · exact .inl old
        · exact absurd good fails
        · exact .inr ⟨later, good⟩

private theorem filterM_gives {k : α → Except Fault Bool} {P : α → Prop} {l : List α}
    (h : ∀ x ∈ l, Gives (k x) fun r => r = true ↔ P x) :
    Gives (l.filterM k) fun r => r.length ≤ l.length ∧ ∀ x, x ∈ r ↔ x ∈ l ∧ P x := by
  refine (filterAuxM_gives l [] h).bind fun r result => .of_ok ?_
  refine ⟨by simpa using result.1, fun x => ?_⟩
  rw [List.mem_reverse, result.2]
  simp

theorem filterMapM_gives {k : α → Except Fault (Option β)} {P : α → Option β → Prop} {l : List α}
    (h : ∀ x ∈ l, Gives (k x) (P x)) :
    ∃ pick : α → Option β, l.filterMapM k = .ok (l.filterMap pick) ∧ ∀ x ∈ l, P x (pick x) := by
  refine ⟨fun x => (k x).toOption.join, ?_, fun x hx => ?_⟩
  · induction l with
    | nil => rfl
    | cons x l ih =>
      obtain ⟨r, run, -⟩ := h x List.mem_cons_self
      have rest := ih fun y hy => h y (List.mem_cons_of_mem _ hy)
      have picked : (k x).toOption.join = r := by rw [run]; rfl
      rw [List.filterMapM_cons, run, rest, List.filterMap_cons, picked]
      cases r with
      | none => rfl
      | some y => rfl
  · obtain ⟨r, run, holds⟩ := h x hx
    simp only [run]
    exact holds

end Lists

namespace LoopForest

open Predication.Flow Procedure

variable {f : Procedure} {entry h b p : BlockId} {order stack : List BlockId} {tree : DominatorTree}
  {blocks : BitSet}

private theorem numbered_gives (g : Surveyed f entry order) (there : f.Inside b) :
    Gives (Arena.get (finishNumbers f.blocks.size order) b) fun n => n.isSome = true ↔ b ∈ order := by
  refine ⟨_, g.number there, ?_⟩
  split <;> simp_all

private theorem latches_gives (g : Surveyed f entry order) (exact : Exact f entry order tree)
    (mem : h ∈ order) :
    Gives (latches f (finishNumbers f.blocks.size order) tree entry h) fun l =>
      ∀ p, p ∈ l ↔ Latch f.HasEdge entry h p := by
  unfold latches
  have test : ∀ p ∈ (f.blockAt h).preds, Gives (do
      if (← Arena.get (finishNumbers f.blocks.size order) p).isSome then
        dominates tree entry (tree.size + 1) h p
      else
        return false) fun r => r = true ↔ p ∈ order ∧ Dominates f.HasEdge entry h p := by
    intro p pred
    have there := (g.inside_of_edge ((g.ends p h).mpr pred)).1
    refine (numbered_gives g there).bind fun n reached => ?_
    by_cases in_order : p ∈ order
    · rw [if_pos (reached.mpr in_order)]
      have bound := g.length_le
      have size := exact.size
      refine (dominates_gives exact (tree.size + 1) in_order (by omega)).imp fun r answer => ?_
      rw [answer]
      exact (and_iff_right in_order).symm
    · rw [if_neg fun n => in_order (reached.mp n)]
      exact .of_ok (iff_of_false (by simp) fun good => in_order good.1)
  refine .of_run (g.inside mem).preds ((filterM_gives test).imp fun l result p => ?_)
  rw [result.2, ← g.ends, g.mem]
  exact ⟨fun ⟨edge, reached, dom⟩ => ⟨reached, edge, dom⟩,
    fun latch => ⟨latch.back, latch.reached, latch.dominated⟩⟩

/-- The state of a search for the blocks of a loop. -/
structure Filling (f : Procedure) (entry h : BlockId) (stack : List BlockId) (blocks : BitSet) :
    Prop where
  header : blocks.contains h = true
  sound : ∀ b, blocks.contains b = true ∨ b ∈ stack → InLoop f.HasEdge entry h b
  latched : ∀ p, Latch f.HasEdge entry h p → blocks.contains p = true ∨ p ∈ stack
  closed : ∀ b, blocks.contains b = true → b ≠ h → ∀ p, Reaches f.HasEdge entry p →
    f.HasEdge p b → blocks.contains p = true ∨ p ∈ stack

private theorem Filling.drop (s : Filling f entry h (b :: stack) blocks) (old : blocks.contains b = true) :
    Filling f entry h stack blocks := by
  have settle : ∀ p, blocks.contains p = true ∨ p ∈ b :: stack →
      blocks.contains p = true ∨ p ∈ stack := by
    rintro p (inside | waiting)
    · exact .inl inside
    · rcases List.mem_cons.mp waiting with rfl | waiting
      · exact .inl old
      · exact .inr waiting
  refine ⟨s.header, fun c mem => s.sound c (mem.imp_right (List.mem_cons_of_mem _)), ?_, ?_⟩
  · exact fun p latch => settle p (s.latched p latch)
  · exact fun c mem other p reached edge => settle p (s.closed c mem other p reached edge)

/-- A new block is added, and what leads to it has to wait. -/
private theorem Filling.add {blocks' : BitSet} {more : List BlockId}
    (s : Filling f entry h (b :: stack) blocks) (new : ¬ blocks.contains b = true)
    (added : ∀ j, blocks'.contains j = true ↔ blocks.contains j = true ∨ j = b)
    (leads : ∀ p, p ∈ more ↔ f.HasEdge p b ∧ Reaches f.HasEdge entry p ∧
      ¬ blocks'.contains p = true) :
    Filling f entry h (more.reverse ++ stack) blocks' := by
  have other : b ≠ h := by
    rintro rfl
    exact new s.header
  have settle : ∀ p, blocks.contains p = true ∨ p ∈ b :: stack →
      blocks'.contains p = true ∨ p ∈ more.reverse ++ stack := by
    rintro p (inside | waiting)
    · exact .inl ((added p).mpr (.inl inside))
    · rcases List.mem_cons.mp waiting with rfl | waiting
      · exact .inl ((added p).mpr (.inr rfl))
      · exact .inr (List.mem_append_right _ waiting)
  have here : InLoop f.HasEdge entry h b := s.sound b (.inr List.mem_cons_self)
  refine ⟨(added h).mpr (.inl s.header), fun c mem => ?_, ?_, fun c mem away p reached edge => ?_⟩
  · rcases mem with inside | waiting
    · rcases (added c).mp inside with old | rfl
      · exact s.sound c (.inl old)
      · exact here
    · rcases List.mem_append.mp waiting with lead | waiting
      · obtain ⟨edge, reached, out⟩ := (leads c).mp (List.mem_reverse.mp lead)
        refine here.of_way reached (Way.start.step edge) fun passed => ?_
        rcases List.mem_cons.mp passed with same | passed
        · exact other same.symm
        · -- the header is in the loop from the start, so it is never put on the stack
          rw [← List.mem_singleton.mp passed] at out
          exact out ((added h).mpr (.inl s.header))
      · exact s.sound c (.inr (List.mem_cons_of_mem _ waiting))
  · exact fun p latch => settle p (s.latched p latch)
  · rcases (added c).mp mem with old | rfl
    · exact settle p (s.closed c old away p reached edge)
    · by_cases inside : blocks'.contains p = true
      · exact .inl inside
      · exact .inr (List.mem_append_left _
          (List.mem_reverse.mpr ((leads p).mpr ⟨edge, reached, inside⟩)))

private theorem Filling.complete (s : Filling f entry h [] blocks) (b : BlockId) :
    blocks.contains b = true ↔ InLoop f.HasEdge entry h b := by
  have within : ∀ p, blocks.contains p = true ∨ p ∈ ([] : List BlockId) →
      blocks.contains p = true := fun p mem => mem.resolve_right List.not_mem_nil
  -- against the edges of a way that misses the header
  have along : ∀ {c p : BlockId} {l : List BlockId}, Flow.Way f.HasEdge c p l → h ∉ l →
      Reaches f.HasEdge entry c → blocks.contains p = true → blocks.contains c = true := by
    intro c p l way
    induction way with
    | start => exact fun _ _ inside => inside
    | @step d e l way last ih =>
      intro free reached inside
      have away : e ≠ h := fun same => free (same ▸ List.mem_cons_self)
      refine ih (fun passed => free (List.mem_cons_of_mem _ passed)) reached ?_
      exact within d (s.closed e inside away d (reached.along way way.last_mem) last)
  refine ⟨fun mem => s.sound b (.inl mem), ?_⟩
  rintro (rfl | ⟨reached, p, latch, l, way, free⟩)
  · exact s.header
  · exact along way free reached (within p (s.latched p latch))

private theorem fill_gives (g : Surveyed f entry order) (start : h ∈ order) (fuel : Nat)
    (s : Filling f entry h stack blocks)
    (enough : stack.length +
      blocks.missing (fun k => (f.blockAt k).preds.length) f.blocks.size ≤ fuel) :
    Gives (fill f (finishNumbers f.blocks.size order) fuel stack blocks) fun r =>
      ∀ b, r.contains b = true ↔ InLoop f.HasEdge entry h b := by
  induction fuel generalizing stack blocks with
  | zero =>
    cases stack with
    | nil =>
      rw [fill]
      exact .of_ok s.complete
    | cons b stack => simp at enough
  | succ fuel ih =>
    cases stack with
    | nil =>
      rw [fill]
      exact .of_ok s.complete
    | cons b stack =>
      rw [List.length_cons] at enough
      rw [fill]
      by_cases old : blocks.contains b = true
      · exact .of_run (BitSet.insertNew_old old) (ih (s.drop old) (by omega))
      · have reached := (s.sound b (.inr List.mem_cons_self)).reached ((g.mem h).mp start)
        have there := g.inside ((g.mem b).mpr reached)
        obtain ⟨blocks', run, added⟩ := BitSet.insertNew_new there.1 old
        refine .of_run run (.of_run there.preds ?_)
        have test : ∀ p ∈ (f.blockAt b).preds, Gives (do
            return (← Arena.get (finishNumbers f.blocks.size order) p).isSome &&
              !blocks'.contains p) fun r => r = true ↔
                Reaches f.HasEdge entry p ∧ ¬ blocks'.contains p = true := by
          intro p pred
          have inside := (g.inside_of_edge ((g.ends p b).mpr pred)).1
          refine (numbered_gives g inside).bind fun n answer => .of_ok ?_
          rw [Bool.and_eq_true, answer, g.mem, Bool.not_eq_true', Bool.not_eq_true]
        refine (filterM_gives test).bind fun more result => ?_
        obtain ⟨short, leads⟩ := result
        have spent := BitSet.missing_insert (fun k => (f.blockAt k).preds.length)
          there.1 there.2 old added
        simp only [Int.toNat_of_nonneg there.1] at spent
        refine ih (s.add old added fun p => ?_) ?_
        · rw [leads, ← g.ends]
        · rw [List.length_append, List.length_reverse]
          omega

/-- What the search at one header finds: its loop, if it has a latch. -/
def LoopAt (f : Procedure) (entry h : BlockId) : Option Loop → Prop
  | none => ¬ ∃ p, Latch f.HasEdge entry h p
  | some l => (∃ p, Latch f.HasEdge entry h p) ∧ l.header = h ∧
      ∀ b, l.blocks.contains b = true ↔ InLoop f.HasEdge entry h b

theorem loopAt?_gives (g : Surveyed f entry order) (exact : Exact f entry order tree)
    (mem : h ∈ order) :
    Gives (loopAt? f (finishNumbers f.blocks.size order) tree entry h) (LoopAt f entry h) := by
  unfold loopAt?
  refine (latches_gives g exact mem).bind fun l latched => ?_
  cases l with
  | nil =>
    refine .of_ok ?_
    rintro ⟨p, latch⟩
    exact List.not_mem_nil ((latched p).mpr latch)
  | cons q l =>
    have latch : ∃ p, Latch f.HasEdge entry h p := ⟨q, (latched q).mp List.mem_cons_self⟩
    rw [if_neg (by simp)]
    obtain ⟨blocks, run, added⟩ := BitSet.insert_gives (s := .empty) (g.inside mem).1
    have only : ∀ b, blocks.contains b = true ↔ b = h := fun b => by
      rw [added, BitSet.contains_empty]
      simp
    have filling : Filling f entry h (q :: l).reverse blocks := by
      refine ⟨(only h).mpr rfl, ?_, ?_, ?_⟩
      · rintro b (inside | waiting)
        · rw [(only b).mp inside]
          exact .header h
        · have latch := (latched b).mp (List.mem_reverse.mp waiting)
          by_cases same : b = h
          · rw [same]
            exact .header h
          · refine .inr ⟨latch.reached, b, latch, [b], .start, fun here => same ?_⟩
            exact (List.mem_singleton.mp here).symm
      · exact fun p latch => .inr (List.mem_reverse.mpr ((latched p).mpr latch))
      · exact fun b inside other => absurd ((only b).mp inside) other
    have bound := BitSet.missing_le (fun k => (f.blockAt k).preds.length) f.blocks.size blocks
    refine .of_run run ((fill_gives g mem _ filling ?_).bind fun found blocks => ?_)
    · rw [f.foldl_blocks, List.length_reverse]
      omega
    · exact .of_ok ⟨latch, rfl, blocks⟩

end LoopForest

end Predication
