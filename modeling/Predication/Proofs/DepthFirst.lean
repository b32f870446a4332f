import Mathlib.Algebra.BigOperators.Fin
import Mathlib.Algebra.Order.BigOperators.Group.Finset
import Predication.Flow.Order
import Predication.Proofs.BitSets
import Predication.Proofs.Dominance

/-!
The depth first walk. It meets just the blocks that control can reach, each once, and every block but
the entry has a predecessor that is finished after it.
-/

set_option autoImplicit false
set_option relaxedAutoImplicit false

namespace Predication

theorem Arena.get_replicate {α : Type} {x : α} {n : Nat} {i : Int} (inside : 0 ≤ i ∧ i < n) :
    Arena.get (Array.replicate n x) i = .ok x := by
  have small : i.toNat < n := by omega
  rw [Arena.get_eq_ok]
  refine ⟨i.toNat, by omega, ?_⟩
  rw [Array.getElem?_replicate, if_pos small]

/-- There is an edge from `a` to `b`. -/
def Procedure.HasEdge (f : Procedure) (a b : BlockId) : Prop := b ∈ (f.blockAt a).succs

/-- The block is in the arena. -/
def Procedure.Inside (f : Procedure) (b : Int) : Prop := 0 ≤ b ∧ b < f.blocks.size

/-- Where both ends of all edges know of them, edges lead from and to blocks of the arena: an id that
names no block has no ends. -/
theorem Procedure.HasEdge.inside {f : Procedure} {a b : BlockId}
    (ends : ∀ a b, b ∈ (f.blockAt a).succs ↔ a ∈ (f.blockAt b).preds) (edge : f.HasEdge a b) :
    f.Inside a ∧ f.Inside b := by
  constructor
  · by_contra out
    unfold HasEdge at edge
    rw [blockAt_none out] at edge
    cases edge
  · by_contra out
    have back := (ends a b).mp edge
    rw [blockAt_none out] at back
    cases back

theorem Procedure.Inside.block {f : Procedure} {b : BlockId} (inside : f.Inside b) :
    f.block b = .ok (f.blockAt b) := by
  obtain ⟨blk, found⟩ := Arena.get_range.mpr inside
  rw [blockAt_eq found]
  exact found

private theorem Procedure.Inside.succs {f : Procedure} {b : BlockId} (inside : f.Inside b) :
    f.succs b = .ok (f.blockAt b).succs := by
  unfold Procedure.succs
  rw [inside.block]
  rfl

theorem Procedure.Inside.preds {f : Procedure} {b : BlockId} (inside : f.Inside b) :
    f.preds b = .ok (f.blockAt b).preds := by
  unfold Procedure.preds
  rw [inside.block]
  rfl

theorem Procedure.foldl_blocks (f : Procedure) (weight : Block → Nat) (n : Nat) :
    f.blocks.foldl (fun m b => m + weight b) n =
      n + ∑ k ∈ Finset.range f.blocks.size, weight (f.blockAt (k : Nat)) := by
  have list : ∀ (l : List Block) (m : Nat),
      l.foldl (fun m b => m + weight b) m = m + (l.map weight).sum := by
    intro l
    induction l with
    | nil => intro m; simp
    | cons b l ih =>
      intro m
      rw [List.foldl_cons, ih, List.map_cons, List.sum_cons]
      omega
  rw [← Array.foldl_toList, list, Finset.sum_range, ← Fin.sum_univ_getElem]
  congr 1
  refine Fintype.sum_equiv (finCongr (by simp)) _ _ fun k => ?_
  have small : k.1 < f.blocks.size := by simpa using k.2
  have found : f.block ((k : Nat) : BlockId) = .ok f.blocks[k.1] :=
    (Arena.get_natCast _ _ _).mpr (Array.getElem?_eq_getElem small)
  simp [blockAt_eq found]

namespace Flow

open Procedure

variable {f : Procedure} {entry b s : BlockId} {path : List Frame} {seen : BitSet}
  {finished order : List BlockId}

/-- The blocks that the walk has met: those on the path from the first one on, then the finished
ones. A block keeps its place in this list when it is finished. -/
def met (path : List Frame) (finished : List BlockId) : List BlockId :=
  path.reverse.map Frame.block ++ finished

def Rooted (f : Procedure) (entry : BlockId) (l : List BlockId) : Prop :=
  ∀ b ∈ l, b = entry ∨ ∃ p, [p, b].Sublist l ∧ f.HasEdge p b

/-- The state of a walk. -/
structure Walking (f : Procedure) (entry : BlockId) (path : List Frame) (seen : BitSet)
    (finished : List BlockId) : Prop where
  head : (met path finished).head? = some entry
  nodup : (met path finished).Nodup
  mem : ∀ b, seen.contains b = true ↔ b ∈ met path finished
  rooted : Rooted f entry (met path finished)
  closed : ∀ b ∈ finished, ∀ s, f.HasEdge b s → seen.contains s = true
  tried : ∀ fr ∈ path, ∃ l, (f.blockAt fr.block).succs = l ++ fr.pending ∧
    ∀ s ∈ l, seen.contains s = true

private theorem met_finish (b : BlockId) (l : List BlockId) (path : List Frame) (finished : List BlockId) :
    met path (b :: finished) = met (⟨b, l⟩ :: path) finished := by
  simp [met]

private theorem Walking.finish (h : Walking f entry (⟨b, []⟩ :: path) seen finished) :
    Walking f entry path seen (b :: finished) where
  head := by rw [met_finish]; exact h.head
  nodup := by rw [met_finish]; exact h.nodup
  mem c := by rw [met_finish]; exact h.mem c
  rooted := by rw [met_finish]; exact h.rooted
  closed c hc s edge := by
    rcases List.mem_cons.mp hc with rfl | hc
    · obtain ⟨l, succs, all⟩ := h.tried _ List.mem_cons_self
      refine all s ?_
      unfold HasEdge at edge
      rwa [succs, List.append_nil] at edge
    · exact h.closed c hc s edge
  tried fr hfr := h.tried fr (List.mem_cons_of_mem _ hfr)

private theorem Walking.skip {pending : List BlockId}
    (h : Walking f entry (⟨b, s :: pending⟩ :: path) seen finished) (old : seen.contains s = true) :
    Walking f entry (⟨b, pending⟩ :: path) seen finished where
  head := by simpa [met] using h.head
  nodup := by simpa [met] using h.nodup
  mem c := by simpa [met] using h.mem c
  rooted := by simpa [met] using h.rooted
  closed := h.closed
  tried fr hfr := by
    rcases List.mem_cons.mp hfr with rfl | hfr
    · obtain ⟨l, succs, all⟩ := h.tried _ List.mem_cons_self
      refine ⟨l ++ [s], by simpa using succs, fun t ht => ?_⟩
      rcases List.mem_append.mp ht with ht | ht
      · exact all t ht
      · rw [List.mem_singleton.mp ht]
        exact old
    · exact h.tried fr (List.mem_cons_of_mem _ hfr)

/-- A successor that is new is entered. -/
private theorem Walking.enter {pending : List BlockId} {seen' : BitSet}
    (h : Walking f entry (⟨b, s :: pending⟩ :: path) seen finished) (new : ¬ seen.contains s = true)
    (added : ∀ j, seen'.contains j = true ↔ seen.contains j = true ∨ j = s) :
    Walking f entry (⟨s, (f.blockAt s).succs⟩ :: ⟨b, pending⟩ :: path) seen' finished := by
  have old : met (⟨b, pending⟩ :: path) finished = met (⟨b, s :: pending⟩ :: path) finished := by
    simp [met]
  have front : (path.reverse.map Frame.block ++ [b]) ++ finished =
      met (⟨b, s :: pending⟩ :: path) finished := by
    simp [met]
  have now : met (⟨s, (f.blockAt s).succs⟩ :: ⟨b, pending⟩ :: path) finished =
      (path.reverse.map Frame.block ++ [b]) ++ s :: finished := by
    simp [met]
  have grown : (met (⟨b, s :: pending⟩ :: path) finished).Sublist
      (met (⟨s, (f.blockAt s).succs⟩ :: ⟨b, pending⟩ :: path) finished) := by
    rw [now, ← front]
    exact (List.sublist_cons_self s finished).append_left _
  have outside : s ∉ met (⟨b, s :: pending⟩ :: path) finished := fun here => new ((h.mem s).mpr here)
  obtain ⟨l, succs, all⟩ := h.tried _ List.mem_cons_self
  have edge : f.HasEdge b s := by
    unfold HasEdge
    rw [succs]
    simp
  constructor
  case head =>
    have first := h.head
    rw [← front] at first
    rw [now]
    cases top : path.reverse.map Frame.block with
    | nil => simpa [top] using first
    | cons c l => simpa [top] using first
  case nodup =>
    rw [now, List.nodup_middle, List.nodup_cons, front]
    exact ⟨outside, h.nodup⟩
  case mem =>
    intro c
    rw [added, h.mem, now, ← front]
    simp only [List.mem_append, List.mem_cons]
    tauto
  case rooted =>
    intro c hc
    by_cases here : c = s
    · subst here
      refine .inr ⟨b, ?_, edge⟩
      rw [now]
      have last : [b].Sublist (path.reverse.map Frame.block ++ [b]) :=
        List.sublist_append_right _ _
      exact last.append (List.singleton_sublist.mpr List.mem_cons_self)
    · have before : c ∈ met (⟨b, s :: pending⟩ :: path) finished := by
        rw [now] at hc
        rw [← front]
        simp only [List.mem_append, List.mem_cons] at hc ⊢
        tauto
      rcases h.rooted c before with first | ⟨p, sub, edge⟩
      · exact .inl first
      · exact .inr ⟨p, sub.trans grown, edge⟩
  case closed =>
    intro c hc t edge
    exact (added t).mpr (.inl (h.closed c hc t edge))
  case tried =>
    intro fr hfr
    rcases List.mem_cons.mp hfr with rfl | hfr
    · exact ⟨[], rfl, fun t ht => absurd ht List.not_mem_nil⟩
    · rcases List.mem_cons.mp hfr with rfl | hfr
      · refine ⟨l ++ [s], by simpa using succs, fun t ht => (added t).mpr ?_⟩
        rcases List.mem_append.mp ht with ht | ht
        · exact .inl (all t ht)
        · exact .inr (List.mem_singleton.mp ht)
      · obtain ⟨l, succs, all⟩ := h.tried fr (List.mem_cons_of_mem _ hfr)
        exact ⟨l, succs, fun t ht => (added t).mpr (.inl (all t ht))⟩

private theorem idxOf_lt_of_sublist {l : List BlockId} {p : BlockId} (nodup : l.Nodup)
    (sub : [p, b].Sublist l) : l.idxOf p < l.idxOf b := by
  obtain ⟨front, back, rfl, hp, hb⟩ :=
    List.append_sublist_iff.mp (show ([p] ++ [b]).Sublist l from sub)
  have inFront : p ∈ front := List.singleton_sublist.mp hp
  have inBack : b ∈ back := List.singleton_sublist.mp hb
  have notInFront : b ∉ front := fun here => (List.nodup_append.mp nodup).2.2 b here b inBack rfl
  rw [List.idxOf_append_of_mem inFront, List.idxOf_append_of_notMem notInFront]
  have := List.idxOf_lt_length_of_mem inFront
  omega

/-- The blocks that control can reach, each once, with the entry first and every other one behind one
of its predecessors. -/
structure Ordered (f : Procedure) (entry : BlockId) (order : List BlockId) : Prop where
  head : order.head? = some entry
  nodup : order.Nodup
  mem : ∀ b, b ∈ order ↔ Reaches f.HasEdge entry b
  rooted : Rooted f entry order

private theorem Walking.ordered (h : Walking f entry [] seen finished) : Ordered f entry finished := by
  have all : met [] finished = finished := rfl
  have first := h.head
  have once := h.nodup
  have rooted := h.rooted
  have seen := h.mem
  rw [all] at first once rooted
  rw [all] at seen
  refine ⟨first, once, fun b => ⟨fun mem => ?_, ?_⟩, rooted⟩
  · -- the predecessor stands further to the front
    induction n : finished.idxOf b using Nat.strongRecOn generalizing b with
    | _ n ih =>
      rcases rooted b mem with rfl | ⟨p, sub, edge⟩
      · exact .refl b
      · have there : p ∈ finished := sub.subset (by simp)
        exact (ih (finished.idxOf p) (n ▸ idxOf_lt_of_sublist once sub) p there rfl).step edge
  · rintro ⟨l, way⟩
    induction way with
    | start => exact List.mem_of_mem_head? first
    | step way edge ih => exact (seen _).mp (h.closed _ ih _ edge)

def stepsLeft (f : Procedure) (path : List Frame) (seen : BitSet) : Nat :=
  (path.map fun fr => fr.pending.length + 1).sum +
    seen.missing (fun k => (f.blockAt k).succs.length + 1) f.blocks.size

private theorem walk_gives (inside : ∀ a b, f.HasEdge a b → f.Inside b) (fuel : Nat)
    (h : Walking f entry path seen finished) (enough : stepsLeft f path seen ≤ fuel) :
    Gives (walk f fuel path seen finished) (Ordered f entry) := by
  induction fuel generalizing path seen finished with
  | zero =>
    cases path with
    | nil =>
      rw [walk]
      exact .of_ok h.ordered
    | cons fr path => simp [stepsLeft] at enough
  | succ fuel ih =>
    rcases path with _ | ⟨⟨b, _ | ⟨s, pending⟩⟩, path⟩
    · rw [walk]
      exact .of_ok h.ordered
    · rw [walk]
      refine ih h.finish ?_
      simp only [stepsLeft, List.map_cons, List.sum_cons, List.length_nil] at enough ⊢
      omega
    · rw [walk]
      by_cases old : seen.contains s = true
      · refine .of_run (BitSet.insertNew_old old) (ih (h.skip old) ?_)
        simp only [stepsLeft, List.map_cons, List.sum_cons, List.length_cons] at enough ⊢
        omega
      · obtain ⟨l, succs, -⟩ := h.tried _ List.mem_cons_self
        have there : f.Inside s := inside b s (by unfold HasEdge; rw [succs]; simp)
        obtain ⟨seen', run, mem⟩ := BitSet.insertNew_new there.1 old
        refine .of_run run (.of_run there.succs (ih (h.enter old mem) ?_))
        have spent := BitSet.missing_insert (fun k => (f.blockAt k).succs.length + 1)
          there.1 there.2 old mem
        simp only [Int.toNat_of_nonneg there.1] at spent
        simp only [stepsLeft, List.map_cons, List.sum_cons, List.length_cons] at enough ⊢
        omega

theorem reversePostorder_gives (inside : ∀ a b, f.HasEdge a b → f.Inside b)
    (there : f.Inside entry) : Gives (reversePostorder f entry) (Ordered f entry) := by
  unfold reversePostorder
  obtain ⟨seen, run, mem⟩ := BitSet.insert_gives (s := .empty) there.1
  have only : ∀ b, seen.contains b = true ↔ b = entry := fun b => by
    rw [mem, BitSet.contains_empty]
    simp
  refine .of_run run (.of_run there.succs (walk_gives inside _ ?_ ?_))
  · refine ⟨rfl, List.nodup_singleton entry, fun b => ?_, fun b hb => ?_, ?_, fun fr hfr => ?_⟩
    · rw [only]
      simp [met]
    · exact .inl (List.mem_singleton.mp hb)
    · intro b hb
      cases hb
    · obtain rfl := List.mem_singleton.mp hfr
      exact ⟨[], rfl, fun s hs => absurd hs List.not_mem_nil⟩
  · have spent := BitSet.missing_insert (fun k => (f.blockAt k).succs.length + 1) there.1
      there.2 (by simp [BitSet.contains_empty]) mem
    have all := BitSet.missing_le (fun k => (f.blockAt k).succs.length + 1) f.blocks.size .empty
    simp only [Int.toNat_of_nonneg there.1] at spent
    simp only [stepsLeft, walkBound, f.foldl_blocks, List.map_cons, List.map_nil, List.sum_cons,
      List.sum_nil]
    omega

/-- The place of a block in the order of finishing. -/
def rank (order : List BlockId) (b : BlockId) : Nat := order.reverse.idxOf b

theorem rank_lt (mem : b ∈ order) : rank order b < order.length := by
  have := List.idxOf_lt_length_of_mem (List.mem_reverse.mpr mem)
  rwa [List.length_reverse] at this

theorem rank_inj {c : BlockId} (mem : b ∈ order) (same : rank order b = rank order c) : b = c :=
  (List.idxOf_inj (List.mem_reverse.mpr mem)).mp same

theorem rank_lt_of_sublist {p : BlockId} (nodup : order.Nodup) (sub : [p, b].Sublist order) :
    rank order b < rank order p := by
  exact idxOf_lt_of_sublist (List.nodup_reverse.mpr nodup) (List.reverse_sublist.mpr sub)

private theorem get_numbered (l : List BlockId) (n : Nat) (numbers : Array (Option Nat)) (nodup : l.Nodup)
    (low : ∀ b ∈ l, 0 ≤ b) (b : BlockId) :
    Arena.get ((l.zipIdx n).foldl
        (fun numbers (b, n) => numbers.modify b.toNat (fun _ => some n)) numbers) b =
      if b ∈ l then (Arena.get numbers b).map (fun _ => some (n + l.idxOf b))
      else Arena.get numbers b := by
  induction l generalizing n numbers with
  | nil => simp
  | cons c l ih =>
    obtain ⟨new, once⟩ := List.nodup_cons.mp nodup
    have place : ((c.toNat : Nat) : Int) = c := Int.toNat_of_nonneg (low c List.mem_cons_self)
    rw [List.zipIdx_cons, List.foldl_cons, ih _ _ once fun d hd => low d (List.mem_cons_of_mem _ hd),
      Arena.get_modify, place]
    by_cases here : b = c
    · subst here
      simp [new]
    · rw [if_neg here]
      simp only [List.mem_cons, here, false_or]
      split
      · rw [List.idxOf_cons_ne l (Ne.symm here)]
        simp only [Nat.succ_eq_add_one, Nat.add_assoc, Nat.add_comm 1]
      · rfl

/-- A block has its place in the order of finishing as its number, and no number if it is not
reached. -/
theorem get_finishNumbers {size : Nat} {b : Int} (nodup : order.Nodup) (low : ∀ c ∈ order, 0 ≤ c)
    (inside : 0 ≤ b ∧ b < size) : Arena.get (finishNumbers size order) b =
      .ok (if b ∈ order then some (rank order b) else none) := by
  unfold finishNumbers
  rw [get_numbered _ _ _ (List.nodup_reverse.mpr nodup) fun c hc => low c (List.mem_reverse.mp hc)]
  rw [Arena.get_replicate inside]
  simp only [List.mem_reverse, Nat.zero_add, rank]
  split <;> rfl

end Flow

end Predication
