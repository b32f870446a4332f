import Predication.Procedure.Verify
import Predication.Proofs.BlockViews

/-!
What the check of a procedure means: it passes just the procedures whose edges are known at both
ends, whose layout has every live block once, whose removed blocks are empty, and whose branches and
phis speak of edges that are there.
-/

set_option autoImplicit false
set_option relaxedAutoImplicit false

namespace Predication

/-- The blocks that a phi takes values from. -/
def Inst.sources (x : Inst) : List BlockId := x.phiInputs.map PhiInput.source

def Inst.PhiOrder (x y : Inst) : Prop := y.op = .phi → x.op = .phi

namespace Procedure

variable {f : Procedure}

/-- The layout has every live block once, removed blocks are unlinked, and the ends of every edge
know of each other. -/
structure Linked (f : Procedure) : Prop where
  laid : ∀ b, b ∈ f.layout ↔ (f.blockAt b).dead = false
  nodup : f.layout.Nodup
  numbered : ∀ b, (f.blockAt b).id = b
  removed : ∀ b, (f.blockAt b).dead = true →
    (f.blockAt b).succs = [] ∧ (f.blockAt b).preds = [] ∧ (f.blockAt b).code = []
  mutual_ends : ∀ b s, s ∈ (f.blockAt b).succs ↔ b ∈ (f.blockAt s).preds
  succs : ∀ b, (f.blockAt b).succs.Nodup
  preds : ∀ b, (f.blockAt b).preds.Nodup

/-- The code speaks of the edge from `b` to `s`: `b` has a branch to `s`, or `s` has a phi that takes
a value from `b`. -/
def Needs (f : Procedure) (b s : BlockId) : Prop :=
  (∃ x ∈ f.instsAt b, s ∈ x.targets) ∨ ∃ x ∈ f.instsAt s, x.op = .phi ∧ b ∈ x.sources

structure WellFormed (f : Procedure) : Prop extends Linked f where
  found : ∀ b, ∀ i ∈ (f.blockAt b).code, ∃ x, f.inst i = .ok x
  needs : ∀ b s, f.Needs b s → s ∈ (f.blockAt b).succs
  phisFirst : ∀ b, (f.instsAt b).Pairwise Inst.PhiOrder
  even : ∀ b, ∀ x ∈ f.instsAt b, x.op = .phi → x.uses.length % 2 = 0

namespace Check

def Passes (c : Check) : Prop := c = (.ok (.ok ()) : Except Fault (Except Defect Unit))

private theorem passes_pure : Passes (pure ()) := rfl

private theorem passes_bind {c d : Check} : Passes (do c; d) ↔ Passes c ∧ Passes d := by
  unfold Passes
  rcases c with e | (e | u)
  · constructor
    · intro h
      cases h
    · rintro ⟨h, -⟩
      cases h
  · constructor
    · intro h
      cases h
    · rintro ⟨h, -⟩
      cases h
  · exact (and_iff_right rfl).symm

private theorem passes_require {holds : Bool} {d : Defect} : Passes (require holds d) ↔ holds = true := by
  cases holds with
  | true => simpa [require] using passes_pure
  | false =>
    simp only [Bool.false_eq_true, iff_false]
    intro passes
    cases passes

private theorem passes_forM {α : Type} {g : α → Check} {l : List α} :
    Passes (l.forM g) ↔ ∀ x ∈ l, Passes (g x) := by
  induction l with
  | nil => simpa using passes_pure
  | cons a l ih =>
    change Passes (do g a; l.forM g) ↔ _
    rw [passes_bind, ih]
    simp

private theorem passes_query {α : Type} {x : Except Fault α} {k : α → Check} :
    Passes (liftM x >>= k) ↔ ∃ a, x = .ok a ∧ Passes (k a) := by
  rcases x with e | a
  · constructor
    · intro h
      cases h
    · rintro ⟨b, h, -⟩
      cases h
  · constructor
    · intro h
      exact ⟨a, rfl, h⟩
    · rintro ⟨b, h, passes⟩
      cases h
      exact passes

end Check

open Check

private theorem checkSuccs_iff (blk : Block) (earlier rest : List BlockId) :
    Passes (f.checkSuccs blk earlier rest) ↔ (∀ s ∈ rest, s ∉ earlier) ∧ rest.Nodup ∧
      ∀ s ∈ rest, (f.blockAt s).dead = false ∧ blk.id ∈ (f.blockAt s).preds := by
  induction rest generalizing earlier with
  | nil => simpa [checkSuccs] using passes_pure
  | cons s rest ih =>
    rw [checkSuccs, passes_bind, passes_require, passes_query]
    have inner : (∃ succ, f.block s = .ok succ ∧ Passes (do
        require (!succ.dead) (.deadSucc blk.name (f.blockName s))
        require (decide (blk.id ∈ succ.preds)) (.unansweredSucc blk.name (f.blockName s))
        f.checkSuccs blk (earlier ++ [s]) rest)) ↔
        ((f.blockAt s).dead = false ∧ blk.id ∈ (f.blockAt s).preds) ∧
          Passes (f.checkSuccs blk (earlier ++ [s]) rest) := by
      simp only [passes_bind, passes_require, Bool.not_eq_true', decide_eq_true_eq]
      constructor
      · rintro ⟨succ, found, live, answered, passes⟩
        rw [blockAt_eq found]
        exact ⟨⟨live, answered⟩, passes⟩
      · rintro ⟨⟨live, answered⟩, passes⟩
        exact ⟨_, block_of_live live, live, answered, passes⟩
    rw [inner, ih]
    simp only [decide_eq_true_eq, List.mem_append, List.mem_singleton, List.forall_mem_cons,
      List.nodup_cons]
    constructor
    · rintro ⟨new, here, others, nodup, answers⟩
      refine ⟨⟨new, fun t ht => fun old => others t ht (Or.inl old)⟩, ⟨?_, nodup⟩, here, answers⟩
      exact fun again => others s again (Or.inr rfl)
    · rintro ⟨⟨new, others⟩, ⟨once, nodup⟩, here, answers⟩
      refine ⟨new, here, fun t ht => ?_, nodup, answers⟩
      rintro (old | rfl)
      · exact others t ht old
      · exact once ht

theorem block_of_succ {p s : BlockId} (h : s ∈ (f.blockAt p).succs) :
    f.block p = .ok (f.blockAt p) := by
  unfold blockAt at h ⊢
  cases found : f.block p with
  | ok x => rfl
  | error e =>
    simp only [found] at h
    cases h

private theorem checkPreds_iff (blk : Block) (earlier rest : List BlockId) :
    Passes (f.checkPreds blk earlier rest) ↔ (∀ p ∈ rest, p ∉ earlier) ∧ rest.Nodup ∧
      ∀ p ∈ rest, blk.id ∈ (f.blockAt p).succs := by
  induction rest generalizing earlier with
  | nil => simpa [checkPreds] using passes_pure
  | cons p rest ih =>
    rw [checkPreds, passes_bind, passes_require, passes_query]
    simp only [passes_bind, passes_require, ih, decide_eq_true_eq, List.mem_append,
      List.mem_singleton, List.forall_mem_cons, List.nodup_cons]
    constructor
    · rintro ⟨new, pred, found, here, others, nodup, answers⟩
      refine ⟨⟨new, fun t ht => fun old => others t ht (Or.inl old)⟩, ⟨?_, nodup⟩,
        blockAt_eq found ▸ here, answers⟩
      exact fun again => others p again (Or.inr rfl)
    · rintro ⟨⟨new, others⟩, ⟨once, nodup⟩, here, answers⟩
      refine ⟨new, _, block_of_succ here, here, fun t ht => ?_, nodup, answers⟩
      rintro (old | rfl)
      · exact others t ht old
      · exact once ht

private theorem checkCode_iff (blk : Block) (index : Nat) (phisOnly : Bool) (code : List InstId) :
    Passes (f.checkCode blk index phisOnly code) ↔ (∀ i ∈ code, ∃ x, f.inst i = .ok x) ∧
      (∀ x ∈ code.filterMap f.inst?, x.op = .phi → phisOnly = true ∧ x.uses.length % 2 = 0 ∧
        ∀ p ∈ x.sources, p ∈ blk.preds) ∧
      (code.filterMap f.inst?).Pairwise Inst.PhiOrder ∧
      ∀ x ∈ code.filterMap f.inst?, ∀ t ∈ x.targets, t ∈ blk.succs := by
  induction code generalizing index phisOnly with
  | nil => simpa [checkCode] using passes_pure
  | cons i rest ih =>
    rw [checkCode]
    cases found : f.inst i with
    | error e =>
      simp only [List.forall_mem_cons, found]
      constructor
      · intro h
        cases h
      · rintro ⟨⟨⟨x, h⟩, -⟩, -⟩
        cases h
    | ok x =>
      have here : f.inst? i = some x := inst?_eq_some.mpr found
      simp only [List.filterMap_cons_some here, List.forall_mem_cons, List.pairwise_cons]
      by_cases phi : x.op = .phi
      · simp only [phi, if_true, passes_bind, passes_require, passes_forM, decide_eq_true_eq, ih]
        have inputs : (∀ y ∈ x.phiInputs, y.source ∈ blk.preds) ↔ ∀ p ∈ x.sources, p ∈ blk.preds := by
          simp [Inst.sources]
        have targets : ∀ t ∈ x.targets, t ∈ blk.succs := by simp [Inst.targets, phi]
        have order : ∀ y ∈ rest.filterMap f.inst?, x.PhiOrder y := fun y _ _ => phi
        rw [inputs]
        constructor
        · rintro ⟨only, even, sources, all, phis, pairs, leads⟩
          exact ⟨⟨⟨x, found⟩, all⟩, ⟨fun _ => ⟨only, even, sources⟩, phis⟩, ⟨order, pairs⟩, targets, leads⟩
        · rintro ⟨⟨-, all⟩, ⟨first, phis⟩, ⟨-, pairs⟩, -, leads⟩
          obtain ⟨only, even, sources⟩ := first trivial
          exact ⟨only, even, sources, all, phis, pairs, leads⟩
      · simp only [phi, if_false, passes_bind, passes_require, passes_forM, decide_eq_true_eq, ih]
        constructor
        · rintro ⟨targets, all, phis, pairs, leads⟩
          have none : ∀ y ∈ rest.filterMap f.inst?, y.op ≠ .phi := fun y hy op => by
            cases (phis y hy op).1
          refine ⟨⟨⟨x, found⟩, all⟩, ⟨fun h => h.elim, fun y hy op => (none y hy op).elim⟩,
            ⟨fun y hy op => (none y hy op).elim, pairs⟩, targets, leads⟩
        · rintro ⟨⟨-, all⟩, ⟨-, phis⟩, ⟨order, pairs⟩, targets, leads⟩
          exact ⟨targets, all, fun y hy op => (phi (order y hy op)).elim, pairs, leads⟩

private theorem checkBlock_iff (index : Nat) (blk : Block) :
    Passes (f.checkBlock index blk) ↔ blk.id = index ∧
      (blk.dead = true → (index : BlockId) ∉ f.layout ∧ blk.succs = [] ∧ blk.preds = [] ∧
        blk.code = []) ∧
      (blk.dead = false → f.layout.count (index : BlockId) = 1 ∧
        Passes (f.checkSuccs blk [] blk.succs) ∧ Passes (f.checkPreds blk [] blk.preds) ∧
        Passes (f.checkCode blk 0 true blk.code)) := by
  rw [checkBlock, passes_bind, passes_require]
  cases dead : blk.dead with
  | true =>
    simp [passes_require, List.count_eq_zero, and_assoc]
  | false =>
    simp [passes_bind, passes_require]

private theorem checkBlocks_iff (index : Nat) (blocks : List Block) :
    Passes (f.checkBlocks index blocks) ↔
      ∀ n blk, blocks[n]? = some blk → Passes (f.checkBlock (index + n) blk) := by
  induction blocks generalizing index with
  | nil => simpa [checkBlocks] using passes_pure
  | cons blk blocks ih =>
    rw [checkBlocks, passes_bind, ih]
    constructor
    · rintro ⟨first, rest⟩ n x hn
      cases n with
      | zero =>
        cases hn
        exact first
      | succ n =>
        have := rest n x (by simpa using hn)
        rwa [Nat.add_assoc, Nat.add_comm 1 n] at this
    · intro all
      refine ⟨all 0 blk rfl, fun n x hn => ?_⟩
      have := all (n + 1) x (by simpa using hn)
      rwa [Nat.add_comm n 1, ← Nat.add_assoc] at this

theorem verify_iff_checks : f.verify = .ok (.ok ()) ↔
    (∀ b ∈ f.layout, 0 ≤ b ∧ b < f.blocks.size) ∧
      ∀ b blk, f.block b = .ok blk → Passes (f.checkBlock b.toNat blk) := by
  change Passes (do f.checkLayout; f.checkBlocks 0 f.blocks.toList) ↔ _
  rw [passes_bind, checkBlocks_iff, checkLayout, passes_forM]
  simp only [passes_require, decide_eq_true_eq, Nat.zero_add]
  refine and_congr_right fun _ => ⟨fun all b blk found => ?_, fun all n blk hn => ?_⟩
  · obtain ⟨n, rfl, hn⟩ := Arena.get_eq_ok.mp found
    exact all n blk (by simpa using hn)
  · exact all n blk ((Arena.get_natCast _ n blk).mpr (by simpa using hn))

/-- What the check of one block comes to. -/
structure BlockSound (f : Procedure) (b : BlockId) : Prop where
  numbered : (f.blockAt b).id = b
  removed : (f.blockAt b).dead = true → b ∉ f.layout ∧ (f.blockAt b).succs = [] ∧
    (f.blockAt b).preds = [] ∧ (f.blockAt b).code = []
  placed : (f.blockAt b).dead = false → f.layout.count b = 1
  succs : (f.blockAt b).succs.Nodup
  preds : (f.blockAt b).preds.Nodup
  answered : ∀ s ∈ (f.blockAt b).succs, (f.blockAt s).dead = false ∧ b ∈ (f.blockAt s).preds
  entered : ∀ p ∈ (f.blockAt b).preds, b ∈ (f.blockAt p).succs
  found : ∀ i ∈ (f.blockAt b).code, ∃ x, f.inst i = .ok x
  phis : ∀ x ∈ f.instsAt b, x.op = .phi → x.uses.length % 2 = 0 ∧
    ∀ p ∈ x.sources, p ∈ (f.blockAt b).preds
  phisFirst : (f.instsAt b).Pairwise Inst.PhiOrder
  targets : ∀ x ∈ f.instsAt b, ∀ t ∈ x.targets, t ∈ (f.blockAt b).succs

theorem checkBlock_sound {b : BlockId} {blk : Block} (found : f.block b = .ok blk) :
    Passes (f.checkBlock b.toNat blk) ↔ f.BlockSound b := by
  have here := blockAt_eq found
  have index : (b.toNat : BlockId) = b := Int.toNat_of_nonneg (Arena.get_range.mp ⟨_, found⟩).1
  subst here
  rw [checkBlock_iff, index, checkSuccs_iff, checkPreds_iff, checkCode_iff]
  constructor
  · rintro ⟨numbered, removed, alive⟩
    rw [numbered] at alive
    cases dead : (f.blockAt b).dead with
    | true =>
      obtain ⟨unlaid, succs, preds, code⟩ := removed dead
      have none : f.instsAt b = [] := by simp [instsAt, code]
      refine ⟨numbered, removed, fun live => ?_, ?_, ?_, ?_, ?_, ?_, ?_, ?_, ?_⟩
      · rw [live] at dead
        cases dead
      all_goals simp [succs, preds, code, none]
    | false =>
      obtain ⟨count, ⟨-, succs, answered⟩, ⟨-, preds, entered⟩, found, phis, phisFirst, targets⟩ :=
        alive dead
      exact ⟨numbered, removed, fun _ => count, succs, preds, answered, entered, found,
        fun x hx op => (phis x hx op).2, phisFirst, targets⟩
  · intro h
    rw [h.numbered]
    exact ⟨rfl, h.removed, fun live => ⟨h.placed live, ⟨by simp, h.succs, h.answered⟩,
      ⟨by simp, h.preds, h.entered⟩, h.found, fun x hx op => ⟨rfl, h.phis x hx op⟩, h.phisFirst,
      h.targets⟩⟩

private theorem blockSound_none {b : BlockId} (out : ¬ (0 ≤ b ∧ b < f.blocks.size)) (unlaid : b ∉ f.layout) :
    f.BlockSound b := by
  have none := blockAt_none out
  refine ⟨?_, ?_, ?_, ?_, ?_, ?_, ?_, ?_, ?_, ?_, ?_⟩
  all_goals simp [none, unlaid, instsAt]

private theorem wellFormed_iff : f.WellFormed ↔ (∀ b, f.BlockSound b) := by
  constructor
  · intro h b
    refine ⟨h.numbered b, fun dead => ?_, fun live => ?_, h.succs b, h.preds b, fun s hs => ?_,
      fun p hp => (h.mutual_ends p b).mpr hp, h.found b, fun x hx op => ?_, h.phisFirst b, ?_⟩
    · refine ⟨fun laid => ?_, h.removed b dead⟩
      rw [(h.laid b).mp laid] at dead
      cases dead
    · exact List.count_eq_one_of_mem h.nodup ((h.laid b).mpr live)
    · have entered := (h.mutual_ends b s).mp hs
      refine ⟨?_, entered⟩
      by_contra dead
      rw [(h.removed s (by simpa using dead)).2.1] at entered
      cases entered
    · exact ⟨h.even b x hx op, fun p hp => (h.mutual_ends p b).mp (h.needs p b (Or.inr ⟨x, hx, op, hp⟩))⟩
    · exact fun x hx t ht => h.needs b t (Or.inl ⟨x, hx, ht⟩)
  · intro h
    have laid : ∀ b, b ∈ f.layout ↔ (f.blockAt b).dead = false := by
      intro b
      constructor
      · intro laid
        by_contra dead
        exact ((h b).removed (by simpa using dead)).1 laid
      · intro live
        exact List.count_pos_iff.mp (by rw [(h b).placed live]; exact Nat.one_pos)
    refine ⟨⟨laid, ?_, fun b => (h b).numbered, fun b dead => ((h b).removed dead).2, fun b s => ?_,
      fun b => (h b).succs, fun b => (h b).preds⟩, fun b => (h b).found, ?_,
      fun b => (h b).phisFirst, fun b x hx op => ((h b).phis x hx op).1⟩
    · refine List.nodup_iff_count_le_one.mpr fun b => ?_
      by_cases mem : b ∈ f.layout
      · exact Nat.le_of_eq ((h b).placed ((laid b).mp mem))
      · rw [List.count_eq_zero.mpr mem]
        exact Nat.zero_le 1
    · exact ⟨fun hs => ((h b).answered s hs).2, fun hb => (h s).entered b hb⟩
    · rintro b s (⟨x, hx, ht⟩ | ⟨x, hx, op, hp⟩)
      · exact (h b).targets x hx s ht
      · exact (h s).entered b (((h s).phis x hx op).2 b hp)

theorem verify_iff : f.verify = .ok (.ok ()) ↔ f.WellFormed := by
  rw [verify_iff_checks, wellFormed_iff]
  constructor
  · rintro ⟨inside, checks⟩ b
    by_cases range : 0 ≤ b ∧ b < f.blocks.size
    · obtain ⟨blk, found⟩ := Arena.get_range.mpr range
      exact (checkBlock_sound found).mp (checks b blk found)
    · exact blockSound_none range fun laid => range (inside b laid)
  · intro h
    refine ⟨fun b hb => ?_, fun b blk found => (checkBlock_sound found).mpr (h b)⟩
    by_contra range
    exact ((h b).removed (by rw [blockAt_none range])).1 hb

end Procedure

end Predication
