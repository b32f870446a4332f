import Predication.Proofs.LoopForests

/-!
The search for dominators as a whole. The walk with a stack of its own finishes blocks in the order
in which a recursive depth first search does. From the tree in which only the entry is known the
sweeps go through trees in which every walk up ends, they come to a tree that a further sweep leaves
alone, and in it each block that is reached has its immediate dominator.
-/

set_option autoImplicit false
set_option relaxedAutoImplicit false

namespace Predication

namespace Flow

open Procedure

/-- A depth first search by recursion. The blocks `todo` are tried in order; one that was not seen
before is entered, and finished after everything that is first seen below it. `post` has the blocks
that are entered, in the order in which they are finished. -/
inductive Explores (succs : BlockId → List BlockId) :
    (seen : Set BlockId) → (todo post : List BlockId) → (seen' : Set BlockId) → Prop
  | done {seen : Set BlockId} : Explores succs seen [] [] seen
  | skip {seen seen' : Set BlockId} {s : BlockId} {todo post : List BlockId} (old : s ∈ seen)
      (beside : Explores succs seen todo post seen') : Explores succs seen (s :: todo) post seen'
  | enter {seen mid seen' : Set BlockId} {s : BlockId} {todo inner post : List BlockId}
      (new : s ∉ seen) (below : Explores succs (insert s seen) (succs s) inner mid)
      (beside : Explores succs mid todo post seen') :
      Explores succs seen (s :: todo) (inner ++ s :: post) seen'

/-- The list has the blocks that a depth first search from the entry meets, in the order in which it
finishes them. -/
def IsPostorder (f : Procedure) (entry : BlockId) (post : List BlockId) : Prop :=
  ∃ seen, Explores (fun b => (f.blockAt b).succs) ∅ [entry] post seen

/-- What is still to be finished when a walk is at a path: below each block of the path what its
pending successors lead to, then the block. -/
inductive Unwinds (succs : BlockId → List BlockId) :
    (seen : Set BlockId) → (path : List Frame) → (post : List BlockId) → Prop
  | done {seen : Set BlockId} : Unwinds succs seen [] []
  | frame {seen mid : Set BlockId} {b : BlockId} {pending inner post : List BlockId}
      {path : List Frame} (below : Explores succs seen pending inner mid)
      (rest : Unwinds succs mid path post) :
      Unwinds succs seen (⟨b, pending⟩ :: path) (inner ++ b :: post)

variable {f : Procedure} {entry a b d : BlockId} {order : List BlockId}

private theorem succs_blockAt {l : List BlockId} (asked : f.succs b = .ok l) : (f.blockAt b).succs = l := by
  obtain ⟨blk, found, last⟩ := bind_ok_iff.mp asked
  cases last
  rw [blockAt_eq found]

abbrev membersOf (s : BitSet) : Set BlockId := {b | s.contains b = true}

private theorem walk_unwinds (fuel : Nat) {path : List Frame} {seen : BitSet} {finished : List BlockId}
    (run : walk f fuel path seen finished = .ok order) :
    ∃ post, Unwinds (fun b => (f.blockAt b).succs) (membersOf seen) path post ∧
      order = post.reverse ++ finished := by
  induction fuel generalizing path seen finished with
  | zero =>
    cases path with
    | nil =>
      cases run
      exact ⟨[], .done, rfl⟩
    | cons fr path => cases run
  | succ fuel ih =>
    rcases path with _ | ⟨⟨b, _ | ⟨s, pending⟩⟩, path⟩
    · cases run
      exact ⟨[], .done, rfl⟩
    · rw [walk] at run
      obtain ⟨post, rest, rfl⟩ := ih run
      exact ⟨b :: post, .frame .done rest, by simp⟩
    · rw [walk] at run
      obtain ⟨⟨seen', new⟩, added, run⟩ := bind_ok_iff.mp run
      rcases BitSet.insertNew_cases added with ⟨old, rfl, rfl⟩ | ⟨fresh, rfl, mem⟩
      · obtain ⟨post, unwinds, rfl⟩ := ih run
        cases unwinds with
        | frame below rest => exact ⟨_, .frame (.skip old below) rest, rfl⟩
      · obtain ⟨l, asked, run⟩ := bind_ok_iff.mp run
        obtain rfl := succs_blockAt asked
        have grown : membersOf seen' = insert s (membersOf seen) := by
          ext c
          rw [Set.mem_insert_iff, or_comm]
          exact mem c
        obtain ⟨post, unwinds, rfl⟩ := ih run
        rw [grown] at unwinds
        cases unwinds with
        | frame below rest =>
          cases rest with
          | frame beside rest => exact ⟨_, .frame (.enter fresh below beside) rest, by simp⟩

private theorem isPostorder_of_run (run : reversePostorder f entry = .ok order) :
    IsPostorder f entry order.reverse := by
  unfold reversePostorder at run
  obtain ⟨seen, first, run⟩ := bind_ok_iff.mp run
  obtain ⟨l, asked, run⟩ := bind_ok_iff.mp run
  obtain rfl := succs_blockAt asked
  have only : membersOf seen = insert entry ∅ := by
    ext c
    rw [Set.mem_ofPred_eq, BitSet.insert_mem seen first c, BitSet.contains_empty]
    simp
  obtain ⟨post, unwinds, rfl⟩ := walk_unwinds _ run
  rw [only] at unwinds
  rw [List.append_nil, List.reverse_reverse]
  cases unwinds with
  | @frame _ mid _ _ _ _ _ below rest =>
    cases rest
    exact ⟨mid, .enter (Set.notMem_empty entry) below .done⟩

/-- The trees that the sweeps go through, with the blocks that the present sweep has still to visit. -/
inductive Underway (f : Procedure) (numbers : Array (Option Nat)) (entry : BlockId)
    (rest : List BlockId) : (pending : List BlockId) → DominatorTree → Prop
  | first {tree : DominatorTree}
      (run : Arena.update (Array.replicate f.blocks.size none) entry (fun _ => some entry) = .ok tree) :
      Underway f numbers entry rest rest tree
  | keep {b : BlockId} {pending preds : List BlockId} {d : Option BlockId} {tree : DominatorTree}
      (before : Underway f numbers entry rest (b :: pending) tree) (asked : f.preds b = .ok preds)
      (joined : joinDominators numbers tree none preds = .ok d) (same : Arena.get tree b = .ok d) :
      Underway f numbers entry rest pending tree
  | change {b : BlockId} {pending preds : List BlockId} {d : Option BlockId}
      {tree tree' : DominatorTree}
      (before : Underway f numbers entry rest (b :: pending) tree) (asked : f.preds b = .ok preds)
      (joined : joinDominators numbers tree none preds = .ok d)
      (updated : Arena.update tree b (fun _ => d) = .ok tree') :
      Underway f numbers entry rest pending tree'
  | again {tree : DominatorTree} (before : Underway f numbers entry rest [] tree) :
      Underway f numbers entry rest rest tree

section Underway

variable {numbers : Array (Option Nat)} {rest pending : List BlockId} {tree tree' : DominatorTree}
  {changed changed' : Bool}

private theorem Underway.sweep (h : Underway f numbers entry rest pending tree)
    (run : sweep f numbers pending (tree, changed) = .ok (tree', changed')) :
    Underway f numbers entry rest [] tree' := by
  induction pending generalizing tree changed with
  | nil =>
    cases run
    exact h
  | cons b pending ih =>
    rw [Flow.sweep] at run
    obtain ⟨preds, asked, run⟩ := bind_ok_iff.mp run
    obtain ⟨d, joined, run⟩ := bind_ok_iff.mp run
    obtain ⟨old, found, run⟩ := bind_ok_iff.mp run
    by_cases same : d = old
    · rw [if_pos same] at run
      exact ih (.keep h asked joined (same ▸ found)) run
    · rw [if_neg same] at run
      obtain ⟨mid, updated, run⟩ := bind_ok_iff.mp run
      exact ih (.change h asked joined updated) run

private theorem Underway.settle (fuel : Nat) (h : Underway f numbers entry rest rest tree)
    (run : settle f numbers rest fuel tree = .ok tree') : Underway f numbers entry rest [] tree' := by
  induction fuel generalizing tree with
  | zero => cases run
  | succ fuel ih =>
    rw [Flow.settle] at run
    obtain ⟨⟨mid, changed⟩, swept, run⟩ := bind_ok_iff.mp run
    have ended := h.sweep swept
    cases changed with
    | true => exact ih (.again ended) run
    | false =>
      cases run
      exact ended

private theorem underway_of_dominators (run : dominators f numbers (entry :: rest) = .ok tree) :
    Underway f numbers entry rest [] tree := by
  rw [dominators] at run
  obtain ⟨start, updated, run⟩ := bind_ok_iff.mp run
  exact (Underway.first updated).settle _ run

end Underway

section Sweeps

variable {rest pending : List BlockId} {tree tree' : DominatorTree}

private theorem Surveyed.preds_eq (g : Surveyed f entry order) (mem : b ∈ order) {preds : List BlockId}
    (asked : f.preds b = .ok preds) : preds = (f.blockAt b).preds := by
  rw [(g.inside mem).preds] at asked
  cases asked
  rfl

private theorem Sweeping.visit_of_join {n : Nat} {done : List BlockId} {d : Option BlockId}
    (g : Surveyed f entry order) (h : Sweeping f entry order n done tree)
    (split : order = done ++ b :: pending) (away : b ≠ entry)
    (joined : joinDominators (finishNumbers f.blocks.size order) tree none (f.blockAt b).preds = .ok d)
    (now : ∀ x, d = some x → Visited tree b x tree') :
    Sweeping f entry order n (done ++ [b]) tree' := by
  obtain ⟨r, run, near⟩ := joinPreds_gives (b := b) g h.toForming
  cases joined.symm.trans run
  obtain ⟨x, rfl⟩ : ∃ x, d = some x := by
    obtain ⟨p, ready, -⟩ := h.front g split away
    cases d with
    | none => exact absurd ready (near p)
    | some x => exact ⟨x, rfl⟩
  exact h.visit g split away near (now x rfl)

private theorem Surveyed.sweeping_of_underway (g : Surveyed f entry (entry :: rest))
    (h : Underway f (finishNumbers f.blocks.size (entry :: rest)) entry rest pending tree) :
    ∃ n done, rest = done ++ pending ∧ Sweeping f entry (entry :: rest) n (entry :: done) tree := by
  have inRest : ∀ {done pending : List BlockId} {b : BlockId}, rest = done ++ b :: pending →
      b ≠ entry ∧ b ∈ entry :: rest := by
    rintro done pending b rfl
    refine ⟨?_, by simp⟩
    rintro rfl
    exact (List.nodup_cons.mp g.nodup).1 (by simp)
  induction h with
  | first run =>
    obtain ⟨tree', run', v⟩ := Visited.of_update (Array.replicate f.blocks.size none) entry
      (b := entry) (by rw [Array.size_replicate]; exact g.start)
    cases run.symm.trans run'
    obtain ⟨forming, narrow⟩ := g.forming_first v
    exact ⟨1, [], rfl, g.sweeping forming narrow⟩
  | @keep b pending preds d tree before asked joined same ih =>
    obtain ⟨n, done, split, sweeping⟩ := ih
    obtain ⟨away, mem⟩ := inRest split
    obtain rfl := g.preds_eq mem asked
    refine ⟨n, done ++ [b], by simpa using split, ?_⟩
    refine sweeping.visit_of_join g (by rw [split]; rfl) away joined fun x some' => ?_
    subst some'
    exact .of_same same
  | @change b pending preds d tree tree' before asked joined updated ih =>
    obtain ⟨n, done, split, sweeping⟩ := ih
    obtain ⟨away, mem⟩ := inRest split
    obtain rfl := g.preds_eq mem asked
    refine ⟨n, done ++ [b], by simpa using split, ?_⟩
    refine sweeping.visit_of_join g (by rw [split]; rfl) away joined fun x some' => ?_
    subst some'
    obtain ⟨after, run, v⟩ := Visited.of_update tree x (by rw [sweeping.size]; exact g.inside mem)
    cases updated.symm.trans run
    exact v
  | again before ih =>
    obtain ⟨n, done, split, sweeping⟩ := ih
    rw [List.append_nil] at split
    subst split
    refine ⟨n + 1, [], rfl, g.sweeping sweeping.toForming fun x l way short => ?_⟩
    exact sweeping.narrower x ((g.mem x).mpr ⟨l, way⟩) l way short

private theorem Surveyed.climbs_end (g : Surveyed f entry (entry :: rest))
    (h : Underway f (finishNumbers f.blocks.size (entry :: rest)) entry rest pending tree)
    (knownA : Known tree a) (knownB : Known tree b) :
    ∃ n, Flow.finishNumber (finishNumbers f.blocks.size (entry :: rest)) b = .ok n ∧
      (∃ c, climb (finishNumbers f.blocks.size (entry :: rest)) tree n (tree.size + 1) a = .ok c) ∧
      ∃ d, commonDominator (finishNumbers f.blocks.size (entry :: rest)) tree
        ((tree.size + 1) * (tree.size + 1)) a b = .ok d := by
  obtain ⟨m, done, -, sweeping⟩ := g.sweeping_of_underway h
  have forming := sweeping.toForming
  have enough := g.length_lt_square
  rw [← forming.size] at enough
  obtain ⟨c, climbed, -⟩ := climb_to_gives g forming knownA knownB
  obtain ⟨d, joined, -⟩ := commonDominator_gives g forming ((tree.size + 1) * (tree.size + 1)) knownA
    knownB (by omega)
  exact ⟨_, g.finishNumber (forming.reached b knownB), ⟨c, climbed⟩, d, joined⟩

end Sweeps

/-- The block `d` is the nearest of the other blocks that dominate `b`: it is one of them, and all of
them dominate it. -/
structure ImmediatelyDominates (f : Procedure) (entry d b : BlockId) : Prop where
  other : d ≠ b
  dominates : Dominates f.HasEdge entry d b
  nearest : ∀ a, a ≠ b → Dominates f.HasEdge entry a b → Dominates f.HasEdge entry a d

/-- What the search for dominators has found: an order of the blocks and a tree. -/
structure Found (f : Procedure) (entry : BlockId) (order : List BlockId) (tree : DominatorTree) :
    Prop where
  postorder : IsPostorder f entry order.reverse
  reached : ∀ b, b ∈ order ↔ Reaches f.HasEdge entry b
  numbered : ∀ b n, f.Inside b →
    (Arena.get (finishNumbers f.blocks.size order) b = .ok (some n) ↔ order.reverse[n]? = some b)
  unnumbered : ∀ b, f.Inside b →
    (Arena.get (finishNumbers f.blocks.size order) b = .ok none ↔ ¬ Reaches f.HasEdge entry b)
  underway : Underway f (finishNumbers f.blocks.size order) entry order.tail [] tree
  climbs : ∀ pending mid, Underway f (finishNumbers f.blocks.size order) entry order.tail pending mid →
    ∀ a b, Known mid a → Known mid b →
      ∃ n, finishNumber (finishNumbers f.blocks.size order) b = .ok n ∧
        (∃ c, climb (finishNumbers f.blocks.size order) mid n (mid.size + 1) a = .ok c) ∧
        ∃ d, commonDominator (finishNumbers f.blocks.size order) mid
          ((mid.size + 1) * (mid.size + 1)) a b = .ok d
  settled : sweep f (finishNumbers f.blocks.size order) order.tail (tree, false) = .ok (tree, false)
  immediate : ∀ b, Reaches f.HasEdge entry b → b ≠ entry →
    ∃ d, Arena.get tree b = .ok (some d) ∧ ImmediatelyDominates f entry d b
  unreached : ∀ b, f.Inside b → ¬ Reaches f.HasEdge entry b → Arena.get tree b = .ok none
  asked : ∀ a b, Reaches f.HasEdge entry b →
    ∃ r, dominates tree entry (tree.size + 1) a b = .ok r ∧
      (r = true ↔ Dominates f.HasEdge entry a b)

namespace Surveyed

private theorem numbered (g : Surveyed f entry order) (there : f.Inside b) (n : Nat) :
    Arena.get (finishNumbers f.blocks.size order) b = .ok (some n) ↔ order.reverse[n]? = some b := by
  rw [g.number there]
  constructor
  · intro found
    split at found
    · rename_i mem
      cases found
      exact List.getElem?_idxOf (List.mem_reverse.mpr mem)
    · cases found
  · intro found
    obtain ⟨bound, rfl⟩ := List.getElem?_eq_some_iff.mp found
    rw [if_pos (List.mem_reverse.mp (List.getElem_mem bound)), rank,
      (List.nodup_reverse.mpr g.nodup).idxOf_getElem]

private theorem unnumbered (g : Surveyed f entry order) (there : f.Inside b) :
    Arena.get (finishNumbers f.blocks.size order) b = .ok none ↔ ¬ Reaches f.HasEdge entry b := by
  rw [g.number there, ← g.mem]
  split
  · rename_i mem
    exact iff_of_false (fun found => by cases found) (not_not_intro mem)
  · rename_i out
    exact iff_of_true rfl out

end Surveyed

namespace Exact

variable {tree : DominatorTree}

private theorem immediate (h : Exact f entry order tree) (mem : b ∈ order) (away : b ≠ entry) :
    ∃ d, Arena.get tree b = .ok (some d) ∧ ImmediatelyDominates f entry d b := by
  obtain ⟨d, parent⟩ := h.all b mem
  have later := h.later b d parent away
  refine ⟨d, parent, ?_, h.dominates b mem d (.up away parent .refl), fun a other dom => ?_⟩
  · rintro rfl
    omega
  · exact h.complete b d parent a dom other

private theorem unreached (h : Exact f entry order tree) (there : f.Inside b) (out : b ∉ order) :
    Arena.get tree b = .ok none := by
  obtain ⟨parent, found⟩ := h.found there
  cases parent with
  | none => exact found
  | some d => exact absurd (h.reached b ⟨d, found⟩) out

end Exact

/-- The search for dominators ends, and it has found what it looked for. -/
theorem dominators_found (f : Procedure) (entry : BlockId) (mirrored : f.Mirrored)
    (first : f.entry? = some entry) :
    ∃ order tree, reversePostorder f entry = .ok order ∧
      dominators f (finishNumbers f.blocks.size order) order = .ok tree ∧
      Found f entry order tree := by
  obtain ⟨order, walked, g⟩ := surveyed_gives mirrored first
  obtain ⟨tree, run, exact⟩ := dominators_gives g
  refine ⟨order, tree, walked, run, ?_⟩
  obtain ⟨rest, rfl⟩ := g.order_eq
  have away : entry ∉ rest := (List.nodup_cons.mp g.nodup).1
  refine ⟨isPostorder_of_run walked, g.mem, fun b n there => g.numbered there n,
    fun b there => g.unnumbered there, underway_of_dominators run,
    fun pending mid h a b => g.climbs_end h, exact.still g rest fun b mem => ?_,
    fun b reached other => exact.immediate ((g.mem b).mpr reached) other,
    fun b there out => exact.unreached there fun mem => out ((g.mem b).mp mem),
    fun a b reached => ?_⟩
  · exact ⟨List.mem_cons_of_mem _ mem, fun same => away (same ▸ mem)⟩
  · have bound := g.length_le
    exact dominates_gives exact _ ((g.mem b).mpr reached) (by rw [exact.size]; omega)

/-- Two arms that meet again in three blocks, each of which can be entered from two sides, and a block
that is not reached. The first sweep gives one of the three a parent that is too low. -/
def crossroads : Procedure where
  name := "crossroads"
  blocks := #[
    { id := 0, name := "entry", code := [0, 1], succs := [1, 2] },
    { id := 1, name := "left", code := [2], succs := [3], preds := [0] },
    { id := 2, name := "right", code := [3, 4], succs := [4, 5], preds := [0] },
    { id := 3, name := "west", code := [5], succs := [4], preds := [1, 4, 6] },
    { id := 4, name := "middle", code := [6, 7], succs := [3, 5], preds := [2, 3, 5] },
    { id := 5, name := "east", code := [8], succs := [4], preds := [2, 4] },
    { id := 6, name := "aside", code := [9], succs := [3] }]
  insts := #[.branch [⟨0, false⟩] 1, .jump 2, .jump 3, .branch [⟨0, false⟩] 4, .jump 5, .jump 4,
    .branch [⟨0, false⟩] 3, .jump 5, .jump 4, .jump 3]
  layout := [0, 1, 2, 3, 4, 5, 6]

theorem dominators_found_crossroads : (crossroads.Mirrored ∧ crossroads.entry? = some 0) ∧
    ∃ order tree, reversePostorder crossroads 0 = .ok order ∧
      dominators crossroads (finishNumbers crossroads.blocks.size order) order = .ok tree ∧
      Found crossroads 0 order tree := by
  have verified : crossroads.verify = .ok (.ok ()) := by decide +kernel
  have mirrored := (Procedure.verify_iff.mp verified).mirrored
  have first : crossroads.entry? = some 0 := by decide
  exact ⟨⟨mirrored, first⟩, dominators_found crossroads 0 mirrored first⟩

example : (do
    let order ← reversePostorder crossroads 0
    let tree ← dominators crossroads (finishNumbers 7 order) order
    return (order, tree)) = .ok ([0, 2, 1, 3, 4, 5],
      #[some 0, some 0, some 0, some 0, some 0, some 0, none]) := by
  decide +kernel

end Flow

end Predication
