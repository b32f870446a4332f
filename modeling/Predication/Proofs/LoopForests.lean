import Predication.Proofs.NaturalLoops
import Predication.Proofs.Pruning

/-!
The loop forest. Two natural loops are disjoint or one is part of the other, and then they differ in
size. So the smallest loop of a kind is the innermost one, and going through the loops from the
largest to the smallest meets each loop after all those around it.
-/

set_option autoImplicit false
set_option relaxedAutoImplicit false

namespace Predication

/-- One set is a proper part of the other. -/
structure BitSet.PartOf (s t : BitSet) : Prop where
  sub : ∀ b, s.contains b = true → t.contains b = true
  proper : ∃ b, t.contains b = true ∧ ¬ s.contains b = true

private theorem BitSet.PartOf.size_lt {s t : BitSet} (part : s.PartOf t) : s.size < t.size := by
  obtain ⟨b, inner, outer⟩ := part.proper
  cases b with
  | negSucc n => cases inner
  | ofNat k =>
    have nodup : (k :: s.toList).Nodup :=
      List.nodup_cons.mpr ⟨fun mem => outer (mem_toList.mp mem), nodup_toList⟩
    have sub : k :: s.toList ⊆ t.toList := by
      intro j hj
      apply mem_toList.mpr
      rcases List.mem_cons.mp hj with rfl | hj
      · exact inner
      · exact part.sub j (mem_toList.mp hj)
    rw [size_eq, size_eq]
    exact (nodup.subperm sub).length_le

abbrev Loop.Within (l m : Loop) : Prop := l.blocks.PartOf m.blocks

private theorem Loop.Within.congr {l : Loop} (m n : Loop) (_ : m.header = n.header)
    (blocks : m.blocks = n.blocks) (within : l.Within m) : l.Within n := by
  unfold Loop.Within
  rw [← blocks]
  exact within

namespace LoopForest

open Predication.Flow

variable {f : Procedure} {entry b : BlockId} {loops : Array Loop} {i j : Nat} {l m : Loop}

/-- The one smallest of the loops of a kind, or nothing if there is no such loop. -/
def Smallest (loops : Array Loop) (kind : Loop → Prop) : Option Nat → Prop
  | none => ∀ l ∈ loops, ¬ kind l
  | some j => ∃ m, loops[j]? = some m ∧ kind m ∧
      ∀ k n, loops[k]? = some n → kind n → k ≠ j → m.blocks.size < n.blocks.size

def around (loops : Array Loop) (b : BlockId) : Nat :=
  loops.toList.countP fun l => l.blocks.contains b

structure Natural (f : Procedure) (entry : BlockId) (loops : Array Loop) : Prop where
  headers : ∀ h, (∃ l ∈ loops, l.header = h) ↔ ∃ p, Latch f.HasEdge entry h p
  one : ∀ (i j : Nat) (l m : Loop), loops[i]? = some l → loops[j]? = some m →
    l.header = m.header → i = j
  blocks : ∀ l ∈ loops, ∀ b, l.blocks.contains b = true ↔ InLoop f.HasEdge entry l.header b

namespace Natural

variable (nat : Natural f entry loops)

include nat

private theorem start (mem : l ∈ loops) : Reaches f.HasEdge entry l.header := by
  obtain ⟨p, latch⟩ := (nat.headers l.header).mp ⟨l, mem, rfl⟩
  exact latch.reached.step latch.back

private theorem header_mem (mem : l ∈ loops) : l.blocks.contains l.header = true :=
  (nat.blocks l mem l.header).mpr (.header l.header)

private theorem within_or (at_i : loops[i]? = some l) (at_j : loops[j]? = some m) (other : i ≠ j)
    (inL : l.blocks.contains b = true) (inM : m.blocks.contains b = true) :
    l.Within m ∨ m.Within l := by
  have memL := Array.mem_of_getElem? at_i
  have memM := Array.mem_of_getElem? at_j
  have headers : l.header ≠ m.header := fun same => other (nat.one i j l m at_i at_j same)
  have eqL := nat.blocks l memL
  have eqM := nat.blocks m memM
  rcases loops_nested ((eqL b).mp inL) ((eqM b).mp inM) (nat.start memL) (nat.start memM) headers
    with ⟨out, sub⟩ | ⟨out, sub⟩
  · refine .inr ⟨fun x hx => (eqL x).mpr (sub x ((eqM x).mp hx)), l.header, nat.header_mem memL, ?_⟩
    exact fun here => out ((eqM _).mp here)
  · refine .inl ⟨fun x hx => (eqM x).mpr (sub x ((eqL x).mp hx)), m.header, nat.header_mem memM, ?_⟩
    exact fun here => out ((eqL _).mp here)

private theorem within_of_le (at_i : loops[i]? = some l) (at_j : loops[j]? = some m) (other : i ≠ j)
    (inL : l.blocks.contains b = true) (inM : m.blocks.contains b = true)
    (le : l.blocks.size ≤ m.blocks.size) : l.Within m := by
  rcases nat.within_or at_i at_j other inL inM with within | within
  · exact within
  · exact absurd within.size_lt (by omega)

private theorem within_iff (at_i : loops[i]? = some l) (at_j : loops[j]? = some m) :
    l.Within m ↔ j ≠ i ∧ m.blocks.contains l.header = true := by
  have memL := Array.mem_of_getElem? at_i
  have memM := Array.mem_of_getElem? at_j
  constructor
  · intro within
    refine ⟨?_, within.sub _ (nat.header_mem memL)⟩
    rintro rfl
    obtain rfl : l = m := Option.some.inj (at_i.symm.trans at_j)
    exact absurd within.size_lt (Nat.lt_irrefl _)
  · rintro ⟨other, inM⟩
    have headers : m.header ≠ l.header := fun same => other (nat.one j i m l at_j at_i same)
    obtain ⟨out, sub⟩ := loop_of_header ((nat.blocks m memM _).mp inM) (nat.start memM) headers
    refine ⟨fun x hx => (nat.blocks m memM x).mpr (sub x ((nat.blocks l memL x).mp hx)),
      m.header, nat.header_mem memM, fun here => out ((nat.blocks l memL _).mp here)⟩

private theorem eq_or_within (at_i : loops[i]? = some l) (at_j : loops[j]? = some m)
    (inM : m.blocks.contains l.header = true) : m = l ∨ l.Within m := by
  by_cases same : j = i
  · subst same
    exact .inl (Option.some.inj (at_j.symm.trans at_i))
  · exact .inr ((nat.within_iff at_i at_j).mpr ⟨same, inM⟩)

private theorem nodup : loops.toList.Nodup := by
  rw [List.nodup_iff_getElem?_ne_getElem?]
  intro i j less bound same
  have at_i : loops[i]? = some loops.toList[i] := by
    rw [← Array.getElem?_toList]
    exact List.getElem?_eq_getElem _
  have at_j : loops[j]? = some loops.toList[i] := by
    rw [← Array.getElem?_toList, ← same]
    exact List.getElem?_eq_getElem _
  exact absurd (nat.one i j _ _ at_i at_j rfl) (by omega)

private theorem around_parent (at_i : loops[i]? = some l) (at_j : loops[j]? = some m) (within : l.Within m)
    (least : ∀ k n, loops[k]? = some n → l.Within n → k ≠ j → m.blocks.size < n.blocks.size) :
    around loops l.header = around loops m.header + 1 := by
  have memL := Array.mem_of_getElem? at_i
  have memM := Array.mem_of_getElem? at_j
  obtain ⟨apart, inM⟩ := (nat.within_iff at_i at_j).mp within
  have out : ¬ l.blocks.contains m.header = true := by
    intro here
    have back := (nat.within_iff at_j at_i).mpr ⟨Ne.symm apart, here⟩
    exact absurd back.size_lt (by have := within.size_lt; omega)
  have members : (loops.toList.filter fun n => n.blocks.contains l.header).Perm
      (l :: loops.toList.filter fun n => n.blocks.contains m.header) := by
    rw [List.perm_ext_iff_of_nodup (nat.nodup.filter _)
      (List.nodup_cons.mpr ⟨fun mem => out (List.mem_filter.mp mem).2, nat.nodup.filter _⟩)]
    intro n
    rw [List.mem_cons, List.mem_filter, List.mem_filter, Array.mem_toList_iff]
    constructor
    · rintro ⟨mem, inN⟩
      obtain ⟨k, at_k⟩ := Array.mem_iff_getElem?.mp mem
      rcases nat.eq_or_within at_i at_k inN with rfl | inside
      · exact .inl rfl
      · refine .inr ⟨mem, ?_⟩
        by_cases second : k = j
        · subst second
          obtain rfl : n = m := Option.some.inj (at_k.symm.trans at_j)
          exact nat.header_mem memM
        · have larger := least k n at_k inside second
          exact ((nat.within_iff at_j at_k).mp
            (nat.within_of_le at_j at_k (Ne.symm second) inM inN larger.le)).2
    · rintro (rfl | ⟨mem, inN⟩)
      · exact ⟨memL, nat.header_mem memL⟩
      · obtain ⟨k, at_k⟩ := Array.mem_iff_getElem?.mp mem
        refine ⟨mem, ?_⟩
        by_cases second : k = j
        · subst second
          obtain rfl : n = m := Option.some.inj (at_k.symm.trans at_j)
          exact inM
        · exact ((nat.within_iff at_j at_k).mpr ⟨second, inN⟩).sub _ inM
  unfold around
  rw [List.countP_eq_length_filter, List.countP_eq_length_filter, members.length_eq]
  rfl

private theorem around_outermost (at_i : loops[i]? = some l) (none : ∀ n ∈ loops, ¬ l.Within n) :
    around loops l.header = 1 := by
  have memL := Array.mem_of_getElem? at_i
  have members : (loops.toList.filter fun n => n.blocks.contains l.header).Perm [l] := by
    rw [List.perm_ext_iff_of_nodup (nat.nodup.filter _) (List.nodup_singleton l)]
    intro n
    rw [List.mem_singleton, List.mem_filter, Array.mem_toList_iff]
    constructor
    · rintro ⟨mem, inN⟩
      obtain ⟨k, at_k⟩ := Array.mem_iff_getElem?.mp mem
      exact (nat.eq_or_within at_i at_k inN).resolve_right (none n mem)
    · rintro rfl
      exact ⟨memL, nat.header_mem memL⟩
  unfold around
  rw [List.countP_eq_length_filter, members.length_eq]
  rfl

end Natural

section Choosing

variable {allowed : Nat → Bool}

def Best (allowed : Nat → Bool) (b : BlockId) (looked : List Sized) : Option Sized → Prop
  | none => ∀ x ∈ looked, ¬ (allowed x.index = true ∧ x.loop.blocks.contains b = true)
  | some y => y ∈ looked ∧ (allowed y.index = true ∧ y.loop.blocks.contains b = true) ∧
      ∀ x ∈ looked, allowed x.index = true ∧ x.loop.blocks.contains b = true → y.size ≤ x.size

private theorem Best.look {looked : List Sized} {best : Option Sized} (h : Best allowed b looked best)
    (x : Sized) : Best allowed b (looked ++ [x])
      (if allowed x.index && x.loop.blocks.contains b && best.all (fun m => x.size < m.size) then
        some x
      else
        best) := by
  have split : ∀ y, y ∈ looked ++ [x] ↔ y ∈ looked ∨ y = x := by simp
  split
  · rename_i test
    rw [Bool.and_eq_true, Bool.and_eq_true] at test
    obtain ⟨fits, less⟩ := test
    refine ⟨(split x).mpr (.inr rfl), fits, fun y hy good => ?_⟩
    rcases (split y).mp hy with old | rfl
    · cases best with
      | none => exact absurd good (h y old)
      | some z =>
        have lower : x.size < z.size := by simpa using less
        exact lower.le.trans (h.2.2 y old good)
    · exact Nat.le_refl _
  · rename_i test
    cases best with
    | none =>
      intro y hy good
      rcases (split y).mp hy with old | rfl
      · exact h y old good
      · exact test (by simp [good.1, good.2])
    | some z =>
      refine ⟨(split z).mpr (.inl h.1), h.2.1, fun y hy good => ?_⟩
      rcases (split y).mp hy with old | rfl
      · exact h.2.2 y old good
      · by_contra less
        exact test (by simp [good.1, good.2, Nat.lt_of_not_le less])

private theorem best_of_all (allowed : Nat → Bool) (b : BlockId) (all : List Sized) : Best allowed b all
    (all.foldl
    (fun best x =>
      if allowed x.index && x.loop.blocks.contains b && best.all (fun m => x.size < m.size) then
        some x
      else
        best) none) := by
  have run : ∀ (rest looked : List Sized) (best : Option Sized), Best allowed b looked best →
      Best allowed b (looked ++ rest) (rest.foldl
        (fun best x =>
          if allowed x.index && x.loop.blocks.contains b && best.all (fun m => x.size < m.size) then
            some x
          else
            best) best) := by
    intro rest
    induction rest with
    | nil =>
      intro looked best h
      rw [List.append_nil]
      exact h
    | cons x rest ih =>
      intro looked best h
      have next := ih (looked ++ [x]) _ (h.look x)
      rwa [List.append_assoc] at next
  exact run all [] none fun x hx => absurd hx List.not_mem_nil

private theorem mem_sized {x : Sized} :
    x ∈ sized loops ↔ loops[x.index]? = some x.loop ∧ x.size = x.loop.blocks.size := by
  unfold sized
  rw [List.mem_map]
  constructor
  · rintro ⟨⟨l, i⟩, mem, rfl⟩
    exact ⟨by simpa using List.mem_zipIdx_iff_getElem?.mp mem, rfl⟩
  · rintro ⟨found, size⟩
    obtain ⟨l, i, n⟩ := x
    refine ⟨(l, i), List.mem_zipIdx_iff_getElem?.mpr (by simpa using found), ?_⟩
    rw [show n = l.blocks.size from size]

theorem Natural.smallest (nat : Natural f entry loops) {kind : Loop → Prop}
    (same : ∀ k n, loops[k]? = some n → (kind n ↔ allowed k = true ∧ n.blocks.contains b = true)) :
    Smallest loops kind (smallest? (sized loops) allowed b) := by
  have best := best_of_all allowed b (sized loops)
  unfold smallest?
  revert best
  generalize List.foldl _ (none : Option Sized) (sized loops) = chosen
  intro best
  cases chosen with
  | none =>
    intro n mem good
    obtain ⟨k, at_k⟩ := Array.mem_iff_getElem?.mp mem
    exact best ⟨n, k, n.blocks.size⟩ (mem_sized.mpr ⟨at_k, rfl⟩) ((same k n at_k).mp good)
  | some y =>
    obtain ⟨mem, fits, least⟩ := best
    obtain ⟨at_j, size⟩ := mem_sized.mp mem
    refine ⟨y.loop, at_j, (same _ _ at_j).mpr fits, fun k n at_k good other => ?_⟩
    have good' := (same k n at_k).mp good
    have le := least ⟨n, k, n.blocks.size⟩ (mem_sized.mpr ⟨at_k, rfl⟩) good'
    rw [size] at le
    exact (nat.within_of_le at_j at_k (Ne.symm other) fits.2 good'.2 le).size_lt

end Choosing

section Tables

variable {table table' : Array Loop}

def SameLoops (table table' : Array Loop) : Prop :=
  table.map (fun l => (l.header, l.blocks)) = table'.map (fun l => (l.header, l.blocks))

private theorem SameLoops.symm (same : SameLoops table table') : SameLoops table' table := Eq.symm same

theorem SameLoops.get (same : SameLoops table table') (found : table[i]? = some l) :
    ∃ m, table'[i]? = some m ∧ m.header = l.header ∧ m.blocks = l.blocks := by
  have entries := congrArg (fun a => a[i]?) same
  simp only [Array.getElem?_map, found, Option.map_some] at entries
  obtain ⟨m, found', equal⟩ := Option.map_eq_some_iff.mp entries.symm
  exact ⟨m, found', congrArg Prod.fst equal, congrArg Prod.snd equal⟩

private theorem SameLoops.mem (same : SameLoops table table') (mem : l ∈ table) :
    ∃ m ∈ table', m.header = l.header ∧ m.blocks = l.blocks := by
  obtain ⟨i, found⟩ := Array.mem_iff_getElem?.mp mem
  obtain ⟨m, found', equal⟩ := same.get found
  exact ⟨m, Array.mem_of_getElem? found', equal⟩

private theorem SameLoops.natural (same : SameLoops table table') (nat : Natural f entry table) :
    Natural f entry table' := by
  refine ⟨fun h => (Iff.trans ?_ (nat.headers h)), fun i j l m at_i at_j equal => ?_,
    fun l mem b => ?_⟩
  · constructor
    · rintro ⟨l, mem, rfl⟩
      obtain ⟨m, mem', header, -⟩ := same.symm.mem mem
      exact ⟨m, mem', header⟩
    · rintro ⟨l, mem, rfl⟩
      obtain ⟨m, mem', header, -⟩ := same.mem mem
      exact ⟨m, mem', header⟩
  · obtain ⟨l', at_i', header, -⟩ := same.symm.get at_i
    obtain ⟨m', at_j', header', -⟩ := same.symm.get at_j
    exact nat.one i j l' m' at_i' at_j' (by rw [header, header', equal])
  · obtain ⟨l', mem', header, blocks⟩ := same.symm.mem mem
    rw [← header, ← blocks]
    exact nat.blocks l' mem' b

theorem SameLoops.smallest {kind : Loop → Prop} {r : Option Nat} (same : SameLoops table table')
    (blind : ∀ l m : Loop, l.header = m.header → l.blocks = m.blocks → kind l → kind m)
    (h : Smallest table kind r) : Smallest table' kind r := by
  cases r with
  | none =>
    intro l mem good
    obtain ⟨m, mem', header, blocks⟩ := same.symm.mem mem
    exact h m mem' (blind l m header.symm blocks.symm good)
  | some j =>
    obtain ⟨m, at_j, good, least⟩ := h
    obtain ⟨m', at_j', header, blocks⟩ := same.get at_j
    refine ⟨m', at_j', blind m m' header.symm blocks.symm good, fun k n at_k good' other => ?_⟩
    obtain ⟨n', at_k', header', blocks'⟩ := same.symm.get at_k
    rw [blocks, ← blocks']
    exact least k n' at_k' (blind n n' header'.symm blocks'.symm good') other

private theorem SameLoops.around (same : SameLoops table table') (b : BlockId) :
    around table b = around table' b := by
  have count : ∀ loops : Array Loop, LoopForest.around loops b =
      (loops.map fun l => (l.header, l.blocks)).toList.countP fun x => x.2.contains b := by
    intro loops
    unfold LoopForest.around
    rw [Array.toList_map, List.countP_map]
    rfl
  rw [count, count, same]

private theorem withParents_get (table : Array Loop) (i : Nat) : (withParents table)[i]? =
    table[i]?.map fun l => { l with parent := smallest? (sized table) (fun j => j != i) l.header } := by
  unfold withParents
  rw [Array.getElem?_mapIdx]

private theorem withParents_same (table : Array Loop) : SameLoops (withParents table) table := by
  apply Array.ext_getElem?
  intro i
  rw [Array.getElem?_map, Array.getElem?_map, withParents_get, Option.map_map]
  rfl

def HasParents (table : Array Loop) : Prop :=
  ∀ (i : Nat) (l : Loop), table[i]? = some l → Smallest table l.Within l.parent

private theorem hasParents (nat : Natural f entry table) : HasParents (withParents table) := by
  intro i l at_i
  rw [withParents_get] at at_i
  obtain ⟨m, at_i', rfl⟩ := Option.map_eq_some_iff.mp at_i
  have chosen : Smallest table m.Within (smallest? (sized table) (fun j => j != i) m.header) :=
    nat.smallest fun k n at_k => by rw [nat.within_iff at_i' at_k]; simp
  exact (withParents_same table).symm.smallest Loop.Within.congr chosen

def depthIn (table : Array Loop) (l : Loop) : Nat :=
  (l.parent.map fun p => ((table[p]?).map Loop.depth).getD 0).getD 0 + 1

def deepen (table : Array Loop) (x : Sized) : Array Loop :=
  table.modify x.index fun l => { l with depth := depthIn table l }

structure Deepened (table : Array Loop) (done : List Sized) (table' : Array Loop) : Prop where
  same : table'.map (fun l => (l.header, l.blocks, l.parent)) =
    table.map (fun l => (l.header, l.blocks, l.parent))
  depths : ∀ x ∈ done, ∀ l, table'[x.index]? = some l → l.depth = around table l.header

theorem Deepened.get {done : List Sized} (h : Deepened table done table')
    (found : table'[i]? = some l) : ∃ m, table[i]? = some m ∧ m.header = l.header ∧
      m.blocks = l.blocks ∧ m.parent = l.parent := by
  have entries := congrArg (fun a => a[i]?) h.same
  simp only [Array.getElem?_map, found, Option.map_some] at entries
  obtain ⟨m, found', equal⟩ := Option.map_eq_some_iff.mp entries.symm
  exact ⟨m, found', congrArg (·.1) equal, congrArg (·.2.1) equal, congrArg (·.2.2) equal⟩

private theorem Deepened.sameLoops {done : List Sized} (h : Deepened table done table') :
    SameLoops table' table := by
  have bodies := congrArg (Array.map fun x : BlockId × BitSet × Option Nat => (x.1, x.2.1)) h.same
  rw [Array.map_map, Array.map_map] at bodies
  exact bodies

private theorem Deepened.depthIn {done : List Sized} (nat : Natural f entry table)
    (parents : HasParents table) (h : Deepened table done table') (at_i : table'[i]? = some l)
    (ready : ∀ j m, l.parent = some j → table[j]? = some m → ∃ x ∈ done, x.index = j) :
    depthIn table' l = around table l.header := by
  obtain ⟨l', at_i', header, blocks, parent⟩ := h.get at_i
  have smallest := parents i l' at_i'
  rw [parent] at smallest
  unfold LoopForest.depthIn
  cases up : l.parent with
  | none =>
    rw [up] at smallest
    rw [← header, nat.around_outermost at_i' smallest]
    rfl
  | some j =>
    rw [up] at smallest
    obtain ⟨m, at_j, within, least⟩ := smallest
    obtain ⟨x, mem, rfl⟩ := ready j m up at_j
    obtain ⟨m', at_j', header', -⟩ := h.sameLoops.symm.get at_j
    have depth := h.depths x mem m' at_j'
    rw [← header, nat.around_parent at_i' at_j within least, ← header', ← depth]
    simp [at_j']

private theorem Deepened.step {done : List Sized} {x : Sized} (nat : Natural f entry table)
    (parents : HasParents table) (h : Deepened table done table')
    (ready : ∀ l, table[x.index]? = some l → ∀ j m, l.parent = some j → table[j]? = some m →
      ∃ y ∈ done, y.index = j) : Deepened table (done ++ [x]) (deepen table' x) := by
  have entries : ∀ i, (deepen table' x)[i]? = table'[i]?.map fun l =>
      if x.index = i then { l with depth := LoopForest.depthIn table' l } else l := by
    intro i
    unfold deepen
    rw [Array.getElem?_modify]
    split
    · rfl
    · simp
  refine ⟨?_, fun y hy l found => ?_⟩
  · rw [← h.same]
    apply Array.ext_getElem?
    intro i
    rw [Array.getElem?_map, Array.getElem?_map, entries, Option.map_map]
    congr 1
    funext l
    simp only [Function.comp]
    split <;> rfl
  · rw [entries] at found
    obtain ⟨l', found', rfl⟩ := Option.map_eq_some_iff.mp found
    by_cases here : x.index = y.index
    · rw [if_pos here]
      refine h.depthIn nat parents found' fun j m up at_j => ?_
      obtain ⟨m', at_y, -, -, parent⟩ := h.get found'
      rw [← here] at at_y
      exact ready m' at_y j m (parent.trans up) at_j
    · rw [if_neg here]
      rcases List.mem_append.mp hy with old | new
      · exact h.depths y old l' found'
      · rw [List.mem_singleton.mp new] at here
        exact absurd rfl here

private theorem deepened (nat : Natural f entry table) (parents : HasParents table)
    (rest done : List Sized) {all : List Sized} (split : all = done ++ rest)
    (sorted : all.Pairwise fun x y => x.size ≥ y.size) (mem : ∀ x, x ∈ all ↔ x ∈ sized table)
    (h : Deepened table done table') : Deepened table all (rest.foldl deepen table') := by
  induction rest generalizing done table' with
  | nil =>
    rw [List.append_nil] at split
    rw [split]
    exact h
  | cons x rest ih =>
    refine ih (done ++ [x]) (by simpa using split) (h.step nat parents fun l at_x j m up at_j => ?_)
    obtain ⟨-, size⟩ := mem_sized.mp ((mem x).mp (by simp [split]))
    obtain ⟨m', at_j', within, -⟩ : Smallest table l.Within (some j) := up ▸ parents _ l at_x
    obtain rfl : m' = m := Option.some.inj (at_j'.symm.trans at_j)
    have found := (mem_sized.mp ((mem x).mp (by simp [split]))).1
    obtain rfl : l = x.loop := Option.some.inj (at_x.symm.trans found)
    have less := within.size_lt
    have there := (mem ⟨m', j, m'.blocks.size⟩).mpr (mem_sized.mpr ⟨at_j, rfl⟩)
    rw [split] at there sorted
    rcases List.mem_append.mp there with before | behind
    · exact ⟨_, before, rfl⟩
    · -- what comes behind is not larger
      exfalso
      rcases List.mem_cons.mp behind with same | behind
      · have := congrArg Sized.size same
        simp only at this
        omega
      · have := (List.pairwise_cons.mp (List.pairwise_append.mp sorted).2.1).1 _ behind
        simp only at this
        omega

private theorem withDepths_deepened (nat : Natural f entry table) (parents : HasParents table) :
    Deepened table (sized table) (withDepths table) := by
  have sorted : ((sized table).mergeSort fun x y => decide (x.size ≥ y.size)).Pairwise
      fun x y => decide (x.size ≥ y.size) = true := by
    apply List.pairwise_mergeSort
    · intro x y z xy yz
      rw [decide_eq_true_eq] at xy yz ⊢
      omega
    · intro x y
      rw [Bool.or_eq_true, decide_eq_true_eq, decide_eq_true_eq]
      omega
  simp only [decide_eq_true_eq] at sorted
  have done := deepened nat parents _ [] rfl sorted (fun x => List.mem_mergeSort)
    ⟨rfl, fun x hx => absurd hx List.not_mem_nil⟩
  exact ⟨done.same, fun x hx => done.depths x (List.mem_mergeSort.mpr hx)⟩

end Tables

section Finding

variable {order : List BlockId} {pick : BlockId → Option Loop}

private theorem headers_sublist (order : List BlockId)
    (own : ∀ h ∈ order, ∀ l, pick h = some l → l.header = h) :
    ((order.filterMap pick).map Loop.header).Sublist order := by
  induction order with
  | nil => exact List.Sublist.refl _
  | cons h order ih =>
    have rest := ih fun k hk => own k (List.mem_cons_of_mem _ hk)
    rw [List.filterMap_cons]
    cases picked : pick h with
    | none => exact rest.cons h
    | some l =>
      rw [List.map_cons, own h List.mem_cons_self l picked]
      exact rest.cons_cons h

private theorem natural_of_picked (g : Surveyed f entry order)
    (found : ∀ h ∈ order, LoopAt f entry h (pick h)) :
    Natural f entry (order.filterMap pick).toArray := by
  have own : ∀ h ∈ order, ∀ l, pick h = some l → (∃ p, Latch f.HasEdge entry h p) ∧ l.header = h ∧
      ∀ b, l.blocks.contains b = true ↔ InLoop f.HasEdge entry h b := by
    intro h mem l picked
    have loop := found h mem
    rw [picked] at loop
    exact loop
  refine ⟨fun h => ⟨?_, ?_⟩, fun i j l m at_i at_j same => ?_, fun l mem b => ?_⟩
  · rintro ⟨l, mem, rfl⟩
    obtain ⟨h, mem, picked⟩ := List.mem_filterMap.mp (List.mem_toArray.mp mem)
    obtain ⟨latched, header, -⟩ := own h mem l picked
    rw [header]
    exact latched
  · rintro ⟨p, latch⟩
    have mem : h ∈ order := (g.mem h).mpr (latch.reached.step latch.back)
    cases picked : pick h with
    | none =>
      have none := found h mem
      rw [picked] at none
      exact absurd ⟨p, latch⟩ none
    | some l =>
      exact ⟨l, List.mem_toArray.mpr (List.mem_filterMap.mpr ⟨h, mem, picked⟩), (own h mem l picked).2.1⟩
  · have once : ((order.filterMap pick).map Loop.header).Nodup :=
      g.nodup.sublist (headers_sublist order fun h mem l picked => (own h mem l picked).2.1)
    rw [List.getElem?_toArray] at at_i at_j
    have bound : i < ((order.filterMap pick).map Loop.header).length := by
      rw [List.length_map]
      exact (List.getElem?_eq_some_iff.mp at_i).1
    apply (List.getElem?_inj bound once).mp
    rw [List.getElem?_map, List.getElem?_map, at_i, at_j, Option.map_some, Option.map_some, same]
  · obtain ⟨h, mem, picked⟩ := List.mem_filterMap.mp (List.mem_toArray.mp mem)
    obtain ⟨-, header, blocks⟩ := own h mem l picked
    rw [header]
    exact blocks b

private theorem get_assigned {α : Type} (value : BlockId → α) (l : List BlockId) (low : ∀ b ∈ l, 0 ≤ b)
    (xs : Array α) (b : BlockId) :
    Arena.get (l.foldl (fun xs b => xs.modify b.toNat fun _ => value b) xs) b =
      if b ∈ l then (Arena.get xs b).map (fun _ => value b) else Arena.get xs b := by
  induction l generalizing xs with
  | nil => rfl
  | cons c l ih =>
    have place : ((c.toNat : Nat) : Int) = c := Int.toNat_of_nonneg (low c List.mem_cons_self)
    rw [List.foldl_cons, ih fun d hd => low d (List.mem_cons_of_mem _ hd), Arena.get_modify, place]
    by_cases here : b = c
    · subst here
      rw [if_pos rfl, if_pos List.mem_cons_self]
      cases Arena.get xs b <;> simp [Except.map]
    · simp [here]

private theorem loopOf?_congr {t t' : LoopForest} {b : BlockId}
    (same : Arena.get t.innermost b = Arena.get t'.innermost b) :
    t.table.loopOf? b = t'.table.loopOf? b := by
  unfold LoopTable.loopOf? LoopForest.table
  simp only [same]

private theorem loopOf?_blank (loops : Array Loop) (n : Nat) (b : BlockId) :
    (LoopForest.table ⟨loops, Array.replicate n none⟩).loopOf? b = none := by
  unfold LoopTable.loopOf? LoopForest.table
  cases found : Arena.get (Array.replicate n (none : Option Nat)) b with
  | error e => rfl
  | ok x =>
    have there := Arena.get_range.mp ⟨x, found⟩
    rw [Array.size_replicate] at there
    rw [Arena.get_replicate there] at found
    exact (Except.ok.inj found).symm

private theorem loopOf?_eq (g : Surveyed f entry order) (loops : Array Loop) (value : BlockId → Option Nat)
    (b : BlockId) : (LoopForest.table ⟨loops, order.foldl
      (fun inner b => inner.modify b.toNat fun _ => value b)
      (Array.replicate f.blocks.size none)⟩).loopOf? b = if b ∈ order then value b else none := by
  have entry := get_assigned value order (fun c hc => (g.inside hc).1)
    (Array.replicate f.blocks.size none) b
  by_cases mem : b ∈ order
  · rw [if_pos mem, Arena.get_replicate (g.inside mem)] at entry
    rw [if_pos mem]
    unfold LoopTable.loopOf? LoopForest.table
    simp only [entry]
    rfl
  · rw [if_neg mem] at entry ⊢
    exact (loopOf?_congr entry).trans (loopOf?_blank loops f.blocks.size b)

end Finding

end LoopForest

namespace Procedure

open Predication.Flow

def Reached (f : Procedure) (b : BlockId) : Prop := ∃ e, f.entry? = some e ∧ Reaches f.HasEdge e b

def BackEdge (f : Procedure) (p h : BlockId) : Prop :=
  ∃ e, f.entry? = some e ∧ Latch f.HasEdge e h p

def InLoopOf (f : Procedure) (h b : BlockId) : Prop :=
  ∃ e, f.entry? = some e ∧ InLoop f.HasEdge e h b

theorem WellFormed.mirrored {f : Procedure} (h : f.WellFormed) : f.Mirrored := by
  refine ⟨h.mutual_ends, fun e first => ?_⟩
  have live := (h.laid e).mp (Cleanup.entry?_mem first)
  exact Arena.get_range.mp ⟨_, block_of_live live⟩

def DominatedBy (f : Procedure) (b a : BlockId) : Prop :=
  ∀ e, f.entry? = some e → Dominates f.HasEdge e a b

end Procedure

namespace LoopForest

open Predication.Flow

/-- The forest tells the truth about the loops of a procedure. -/
structure Correct (f : Procedure) (t : LoopForest) : Prop where
  headers : ∀ h, (∃ l ∈ t.loops, l.header = h) ↔ ∃ p, f.BackEdge p h
  one : ∀ (i j : Nat) (l m : Loop), t.loops[i]? = some l → t.loops[j]? = some m →
    l.header = m.header → i = j
  blocks : ∀ l ∈ t.loops, ∀ b, l.blocks.contains b = true ↔ f.InLoopOf l.header b
  dominated : ∀ l ∈ t.loops, ∀ b, l.blocks.contains b = true → f.DominatedBy b l.header
  nested : ∀ (i j : Nat) (l m : Loop), t.loops[i]? = some l → t.loops[j]? = some m → i ≠ j →
    (∀ b, ¬ (l.blocks.contains b = true ∧ m.blocks.contains b = true)) ∨ l.Within m ∨ m.Within l
  parents : ∀ l ∈ t.loops, Smallest t.loops l.Within l.parent
  depths : ∀ l ∈ t.loops, l.depth = t.loops.toList.countP fun m => m.blocks.contains l.header
  innermost : ∀ b, Smallest t.loops (fun l => l.blocks.contains b = true) (t.table.loopOf? b)
  outside : ∀ b, t.table.loopOf? b = none ↔
    ¬ f.Reached b ∨ ∀ l ∈ t.loops, ¬ l.blocks.contains b = true

variable {f : Procedure} {entry : BlockId} {order : List BlockId} {loops : Array Loop}

private theorem correct_of_natural (g : Surveyed f entry order) (first : f.entry? = some entry)
    (nat : Natural f entry loops) (parents : HasParents loops)
    (depths : ∀ l ∈ loops, l.depth = around loops l.header) :
    Correct f ⟨loops, order.foldl
      (fun inner b => inner.modify b.toNat fun _ => smallest? (sized loops) (fun _ => true) b)
      (Array.replicate f.blocks.size none)⟩ := by
  have only : ∀ P : BlockId → Prop, (∃ e, f.entry? = some e ∧ P e) ↔ P entry := by
    intro P
    rw [first]
    simp
  have inside : ∀ l ∈ loops, ∀ b, l.blocks.contains b = true → b ∈ order := fun l mem b inL =>
    (g.mem b).mpr (((nat.blocks l mem b).mp inL).reached (nat.start mem))
  have smallest : ∀ b, Smallest loops (fun l => l.blocks.contains b = true)
      (if b ∈ order then smallest? (sized loops) (fun _ => true) b else none) := by
    intro b
    by_cases mem : b ∈ order
    · rw [if_pos mem]
      exact nat.smallest fun k n _ => by simp
    · rw [if_neg mem]
      exact fun l here inL => mem (inside l here b inL)
  refine ⟨fun h => ?_, nat.one, fun l mem b => ?_, fun l mem b inL e start => ?_,
    fun i j l m at_i at_j other => ?_, fun l mem => ?_, depths, fun b => ?_, fun b => ?_⟩
  · rw [nat.headers h]
    exact exists_congr fun p => (only fun e => Latch f.HasEdge e h p).symm
  · rw [nat.blocks l mem b]
    exact (only fun e => InLoop f.HasEdge e l.header b).symm
  · obtain rfl : entry = e := Option.some.inj (first.symm.trans start)
    exact ((nat.blocks l mem b).mp inL).dominated
  · by_cases common : ∃ b, l.blocks.contains b = true ∧ m.blocks.contains b = true
    · obtain ⟨b, inL, inM⟩ := common
      exact .inr (nat.within_or at_i at_j other inL inM)
    · exact .inl fun b both => common ⟨b, both⟩
  · obtain ⟨i, at_i⟩ := Array.mem_iff_getElem?.mp mem
    exact parents i l at_i
  · rw [loopOf?_eq g]
    exact smallest b
  · rw [loopOf?_eq g]
    constructor
    · intro none
      have least := smallest b
      rw [none] at least
      exact .inr least
    · intro out
      cases answer : if b ∈ order then smallest? (sized loops) (fun _ => true) b else none with
      | none => rfl
      | some j =>
        have least := smallest b
        rw [answer] at least
        obtain ⟨m, at_j, inM, -⟩ := least
        have mem := Array.mem_of_getElem? at_j
        rcases out with unreached | free
        · exact absurd ((only _).mpr ((g.mem b).mp (inside m mem b inM))) unreached
        · exact absurd inM (free m mem)

/-- The loops of a procedure are found, and the forest tells the truth about them. -/
theorem find_correct (f : Procedure) (mirrored : f.Mirrored) :
    ∃ t, LoopForest.find f = .ok t ∧ t.Correct f := by
  change Gives (LoopForest.find f) (Correct f)
  unfold LoopForest.find
  cases first : f.entry? with
  | none =>
    have nowhere : ∀ {P : BlockId → Prop}, ¬ ∃ e, f.entry? = some e ∧ P e := by
      rintro P ⟨e, found, -⟩
      rw [first] at found
      cases found
    have bare : ∀ l : Loop, l ∉ (#[] : Array Loop) := fun l => by simp
    refine .of_ok ⟨fun h => ?_, fun i j l m at_i => ?_, fun l mem => absurd mem (bare l),
      fun l mem => absurd mem (bare l), fun i j l m at_i => ?_, fun l mem => absurd mem (bare l),
      fun l mem => absurd mem (bare l), fun b => ?_, fun b => ?_⟩
    · constructor
      · rintro ⟨l, mem, -⟩
        exact absurd mem (bare l)
      · rintro ⟨p, edge⟩
        exact absurd edge nowhere
    · exact absurd (Array.mem_of_getElem? at_i) (bare l)
    · exact absurd (Array.mem_of_getElem? at_i) (bare l)
    · rw [loopOf?_blank]
      exact fun l mem => absurd mem (bare l)
    · rw [loopOf?_blank]
      exact iff_of_true rfl (.inl nowhere)
  | some entry =>
    refine (surveyed_gives mirrored first).bind fun order g => ?_
    refine (dominators_gives g).bind fun tree exact => ?_
    obtain ⟨pick, run, found⟩ := filterMapM_gives fun h mem => loopAt?_gives g exact mem
    refine .of_run run (.of_ok ?_)
    have nat := (withParents_same _).symm.natural (natural_of_picked g found)
    have parents := hasParents (natural_of_picked g found)
    have done := withDepths_deepened nat parents
    refine correct_of_natural g first (done.sameLoops.symm.natural nat) (fun i l at_i => ?_)
      fun l mem => ?_
    · obtain ⟨m, at_i', -, blocks, parent⟩ := done.get at_i
      have least := parents i m at_i'
      have within : m.Within = l.Within := by
        unfold Loop.Within
        rw [blocks]
      rw [parent, within] at least
      exact done.sameLoops.symm.smallest Loop.Within.congr least
    · obtain ⟨i, at_i⟩ := Array.mem_iff_getElem?.mp mem
      obtain ⟨m, at_i', -⟩ := done.get at_i
      rw [done.sameLoops.around]
      exact done.depths ⟨m, i, m.blocks.size⟩ (mem_sized.mpr ⟨at_i', rfl⟩) l at_i

/-- A loop in a loop, with an edge into the inner one from a block that is not reached. -/
def loopInLoop : Procedure where
  name := "loopInLoop"
  blocks := #[
    { id := 0, name := "entry", code := [0], succs := [1] },
    { id := 1, name := "outer", code := [1, 2], succs := [2, 4], preds := [0, 3] },
    { id := 2, name := "inner", code := [3], succs := [3], preds := [1, 3, 5] },
    { id := 3, name := "latch", code := [4, 5], succs := [2, 1], preds := [2] },
    { id := 4, name := "leave", code := [6], preds := [1] },
    { id := 5, name := "aside", code := [7], succs := [2] }]
  insts := #[.jump 1, .branch [⟨0, false⟩] 2, .jump 4, .jump 3, .branch [⟨0, false⟩] 2, .jump 1,
    { op := .ret }, .jump 2]
  layout := [0, 1, 2, 3, 4, 5]

theorem find_correct_loopInLoop : loopInLoop.Mirrored ∧
    ∃ t, LoopForest.find loopInLoop = .ok t ∧ t.Correct loopInLoop := by
  have verified : loopInLoop.verify = .ok (.ok ()) := by decide +kernel
  have mirrored := (Procedure.verify_iff.mp verified).mirrored
  exact ⟨mirrored, find_correct loopInLoop mirrored⟩

end LoopForest

end Predication
