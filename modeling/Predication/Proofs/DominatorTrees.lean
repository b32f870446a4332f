import Mathlib.Data.Int.Interval
import Mathlib.Tactic.Linarith
import Predication.Flow.Dominators
import Predication.Proofs.DepthFirst

/-!
The sweeps that look for immediate dominators. At all times the chain from a block up to the entry
has every dominator of the block. Each sweep makes the chains right with respect to ways that are
longer by one edge, so after as many sweeps as there are blocks they hold nothing but dominators, and
a further sweep changes nothing.
-/

set_option autoImplicit false
set_option relaxedAutoImplicit false

namespace Predication

namespace Procedure

/-- Both ends of an edge know of it, and the entry is in the arena. An edge leads from and to blocks
that are there, since an id that names no block has no ends. -/
structure Mirrored (f : Procedure) : Prop where
  ends : ∀ a b, b ∈ (f.blockAt a).succs ↔ a ∈ (f.blockAt b).preds
  entry : ∀ e, f.entry? = some e → f.Inside e

theorem Mirrored.inside {f : Procedure} {a b : BlockId} (h : f.Mirrored) (edge : f.HasEdge a b) :
    f.Inside a ∧ f.Inside b :=
  edge.inside h.ends

end Procedure

namespace Flow

open Procedure

variable {f : Procedure} {entry a b c d p x y : BlockId} {order l : List BlockId}
  {tree tree' : DominatorTree}

structure Surveyed (f : Procedure) (entry : BlockId) (order : List BlockId) : Prop
    extends Ordered f entry order where
  mirrored : f.Mirrored
  start : f.Inside entry

namespace Surveyed

theorem ends (g : Surveyed f entry order) (a b : BlockId) :
    f.HasEdge a b ↔ a ∈ (f.blockAt b).preds :=
  g.mirrored.ends a b

theorem inside_of_edge (g : Surveyed f entry order) (edge : f.HasEdge a b) :
    f.Inside a ∧ f.Inside b :=
  g.mirrored.inside edge

theorem inside (g : Surveyed f entry order) (mem : b ∈ order) : f.Inside b := by
  obtain ⟨l, way⟩ := (g.mem b).mp mem
  cases way with
  | start => exact g.start
  | step way last => exact (g.inside_of_edge last).2

private theorem entry_mem (g : Surveyed f entry order) : entry ∈ order := List.mem_of_mem_head? g.head

theorem length_le (g : Surveyed f entry order) : order.length ≤ f.blocks.size := by
  rw [← List.toFinset_card_of_nodup g.nodup]
  have sub : order.toFinset ⊆ Finset.Ico (0 : Int) f.blocks.size := by
    intro b hb
    exact Finset.mem_Ico.mpr (g.inside (List.mem_toFinset.mp hb))
  simpa using Finset.card_le_card sub

theorem length_lt_square (g : Surveyed f entry order) :
    2 * order.length < (f.blocks.size + 1) * (f.blocks.size + 1) := by
  have := g.length_le
  nlinarith

theorem order_eq (g : Surveyed f entry order) : ∃ rest, order = entry :: rest := by
  cases order with
  | nil => cases g.head
  | cons c rest =>
    obtain rfl : c = entry := by simpa using g.head
    exact ⟨rest, rfl⟩

private theorem rank_le_entry (g : Surveyed f entry order) (mem : b ∈ order) :
    rank order b ≤ rank order entry := by
  obtain ⟨rest, rfl⟩ := g.order_eq
  by_cases same : b = entry
  · rw [same]
  · have later : b ∈ rest := (List.mem_cons.mp mem).resolve_left same
    have sub : [entry, b].Sublist (entry :: rest) := (List.singleton_sublist.mpr later).cons_cons _
    exact (rank_lt_of_sublist g.nodup sub).le

theorem number (g : Surveyed f entry order) (there : f.Inside b) :
    Arena.get (finishNumbers f.blocks.size order) b =
      .ok (if b ∈ order then some (rank order b) else none) :=
  get_finishNumbers g.nodup (fun _ hc => (g.inside hc).1) there

theorem finishNumber (g : Surveyed f entry order) (mem : b ∈ order) :
    finishNumber (finishNumbers f.blocks.size order) b = .ok (rank order b) := by
  unfold Flow.finishNumber
  rw [g.number (g.inside mem), if_pos mem]
  rfl

end Surveyed

def Parent (tree : DominatorTree) (b d : BlockId) : Prop := Arena.get tree b = .ok (some d)

def Known (tree : DominatorTree) (b : BlockId) : Prop := ∃ d, Parent tree b d

private theorem Parent.unique {e : BlockId} (h : Parent tree b d) (h' : Parent tree b e) : d = e := by
  unfold Parent at h h'
  rw [h] at h'
  cases h'
  rfl

private theorem Parent.run (h : Parent tree b d) : parentOf tree b = .ok d := by
  unfold parentOf
  rw [show Arena.get tree b = .ok (some d) from h]
  rfl

inductive Above (tree : DominatorTree) (entry a : BlockId) : BlockId → Prop
  | refl : Above tree entry a a
  | up {b d : BlockId} (away : b ≠ entry) (parent : Parent tree b d) (rest : Above tree entry a d) :
      Above tree entry a b

private theorem Above.trans (h : Above tree entry a b) (h' : Above tree entry b c) :
    Above tree entry a c := by
  induction h' with
  | refl => exact h
  | up away parent rest ih => exact .up away parent ih

private theorem Above.of_parent (h : Above tree entry a b) (other : a ≠ b) (parent : Parent tree b d) :
    Above tree entry a d := by
  cases h with
  | refl => exact absurd rfl other
  | up away parent' rest =>
    rw [parent.unique parent']
    exact rest

private theorem Above.eq_entry (h : Above tree entry a entry) : a = entry := by
  cases h with
  | refl => rfl
  | up away => exact absurd rfl away

/-- A tree in the making. Parents come later in the order of finishing, and what dominates a block
dominates its parent or is the block. -/
structure Forming (f : Procedure) (entry : BlockId) (order : List BlockId) (tree : DominatorTree) :
    Prop where
  size : tree.size = f.blocks.size
  top : Parent tree entry entry
  reached : ∀ b, Known tree b → b ∈ order
  known : ∀ b d, Parent tree b d → Known tree d
  later : ∀ b d, Parent tree b d → b ≠ entry → rank order b < rank order d
  complete : ∀ b d, Parent tree b d → ∀ a, Dominates f.HasEdge entry a b → a ≠ b →
    Dominates f.HasEdge entry a d

namespace Forming

theorem found (h : Forming f entry order tree) (there : f.Inside b) :
    ∃ parent, Arena.get tree b = .ok parent := by
  apply Arena.get_range.mpr
  rw [h.size]
  exact there

private theorem rank_le (h : Forming f entry order tree) (above : Above tree entry a b) :
    rank order b ≤ rank order a := by
  induction above with
  | refl => exact Nat.le_refl _
  | up away parent rest ih => exact (h.later _ _ parent away).le.trans ih

private theorem above_of_dominates (h : Forming f entry order tree) (known : Known tree b)
    (dom : Dominates f.HasEdge entry a b) : Above tree entry a b := by
  -- along the chain the rank grows, and it is bounded
  induction n : order.length - rank order b using Nat.strongRecOn generalizing b with
  | _ n ih =>
    by_cases same : a = b
    · rw [same]
      exact .refl
    · have away : b ≠ entry := by
        rintro rfl
        exact same dom.eq_entry
      obtain ⟨d, parent⟩ := known
      have later := h.later b d parent away
      have bound := rank_lt (h.reached d (h.known b d parent))
      exact .up away parent
        (ih _ (by omega) (h.known b d parent) (h.complete b d parent a dom same) rfl)

end Forming

structure Nearest (f : Procedure) (entry : BlockId) (tree : DominatorTree) (kind : BlockId → Prop)
    (d : BlockId) : Prop where
  known : Known tree d
  above : ∀ p, kind p → Above tree entry d p
  complete : ∀ a, (∀ p, kind p → Dominates f.HasEdge entry a p) → Dominates f.HasEdge entry a d

/-- A walk up from `a` ends at a block that was not finished before the limit, and loses no dominator
that was not. -/
structure Climbed (f : Procedure) (entry : BlockId) (order : List BlockId) (tree : DominatorTree)
    (limit : Nat) (a c : BlockId) : Prop where
  known : Known tree c
  above : Above tree entry c a
  reached : limit ≤ rank order c
  complete : ∀ z, Dominates f.HasEdge entry z a → limit ≤ rank order z →
    Dominates f.HasEdge entry z c

private theorem climb_gives (g : Surveyed f entry order) (h : Forming f entry order tree) {limit : Nat}
    (top : limit ≤ rank order entry) (fuel : Nat) (known : Known tree a)
    (enough : order.length - rank order a ≤ fuel) :
    Gives (climb (finishNumbers f.blocks.size order) tree limit fuel a)
      (Climbed f entry order tree limit a) := by
  induction fuel generalizing a with
  | zero =>
    have := rank_lt (h.reached a known)
    omega
  | succ fuel ih =>
    rw [climb]
    refine .of_run (g.finishNumber (h.reached a known)) ?_
    by_cases low : rank order a < limit
    · rw [if_pos low]
      have away : a ≠ entry := by
        rintro rfl
        omega
      obtain ⟨d, parent⟩ := known
      have later := h.later a d parent away
      refine .of_run parent.run ((ih (h.known a d parent) (by omega)).imp fun c climbed => ?_)
      refine ⟨climbed.known, climbed.above.trans (.up away parent .refl), climbed.reached, ?_⟩
      intro z dom high
      refine climbed.complete z (h.complete a d parent z dom ?_) high
      rintro rfl
      omega
    · rw [if_neg low]
      exact .of_ok ⟨known, .refl, by omega, fun z dom _ => dom⟩

/-- With the place of another block of the tree for a limit, a walk ends in the number of steps it
has. -/
theorem climb_to_gives (g : Surveyed f entry order) (h : Forming f entry order tree)
    (knownA : Known tree a) (knownB : Known tree b) :
    Gives (climb (finishNumbers f.blocks.size order) tree (rank order b) (tree.size + 1) a)
      (Climbed f entry order tree (rank order b) a) := by
  have bound := g.length_le
  refine climb_gives g h (g.rank_le_entry (h.reached b knownB)) _ knownA ?_
  rw [h.size]
  omega

theorem commonDominator_gives (g : Surveyed f entry order) (h : Forming f entry order tree)
    (fuel : Nat) (knownA : Known tree a) (knownB : Known tree b)
    (enough : (order.length - rank order a) + (order.length - rank order b) < fuel) :
    Gives (commonDominator (finishNumbers f.blocks.size order) tree fuel a b)
      (Nearest f entry tree fun p => p = a ∨ p = b) := by
  induction fuel generalizing a b with
  | zero => omega
  | succ fuel ih =>
    have memA := h.reached a knownA
    have memB := h.reached b knownB
    rw [commonDominator]
    by_cases same : a = b
    · subst same
      rw [if_pos rfl]
      refine .of_ok ⟨knownA, fun p hp => ?_, fun z dom => dom a (.inl rfl)⟩
      rcases hp with rfl | rfl <;> exact .refl
    · rw [if_neg same]
      refine .of_run (g.finishNumber memB) ((climb_to_gives g h knownA knownB).bind fun a' up => ?_)
      refine .of_run (g.finishNumber (h.reached a' up.known))
        ((climb_to_gives g h knownB up.known).bind fun b' up' => ?_)
      -- one of the two has moved, and the places are bounded
      have differ : rank order a ≠ rank order b := fun equal => same (rank_inj memA equal)
      have := h.rank_le up.above
      have := h.rank_le up'.above
      have := up.reached
      have := up'.reached
      have := rank_lt memA
      have := rank_lt memB
      refine (ih up.known up'.known (by omega)).imp fun d near => ?_
      refine ⟨near.known, fun p hp => ?_, fun z dom => near.complete z fun p hp => ?_⟩
      · rcases hp with rfl | rfl
        · exact (near.above a' (.inl rfl)).trans up.above
        · exact (near.above b' (.inr rfl)).trans up'.above
      · have domA := dom a (.inl rfl)
        have domB := dom b (.inr rfl)
        have domA' := up.complete z domA (h.rank_le (h.above_of_dominates knownB domB))
        rcases hp with rfl | rfl
        · exact domA'
        · exact up'.complete z domB (h.rank_le (h.above_of_dominates up.known domA'))

/-- What a join has found: the nearest block above all of a kind, or nothing if there are none. -/
def Joined (f : Procedure) (entry : BlockId) (tree : DominatorTree) (kind : BlockId → Prop) :
    Option BlockId → Prop
  | none => ∀ p, ¬ kind p
  | some d => Nearest f entry tree kind d

private theorem Joined.congr {kind kind' : BlockId → Prop} (same : ∀ p, kind p ↔ kind' p)
    {known : Option BlockId} (h : Joined f entry tree kind known) :
    Joined f entry tree kind' known := by
  obtain rfl : kind = kind' := funext fun p => propext (same p)
  exact h

private theorem Joined.first (known : Known tree p) : Joined f entry tree (fun q => q = p) (some p) := by
  refine ⟨known, fun q hq => ?_, fun z dom => dom p rfl⟩
  rw [hq]
  exact .refl

private theorem Joined.next {kind : BlockId → Prop} (near : Nearest f entry tree kind x)
    (join : Nearest f entry tree (fun q => q = p ∨ q = x) d) :
    Joined f entry tree (fun q => kind q ∨ q = p) (some d) := by
  refine ⟨join.known, fun q hq => ?_, fun z dom => join.complete z fun q hq => ?_⟩
  · rcases hq with old | rfl
    · exact (join.above x (.inr rfl)).trans (near.above q old)
    · exact join.above q (.inl rfl)
  · rcases hq with rfl | rfl
    · exact dom q (.inr rfl)
    · exact near.complete z fun r hr => dom r (.inl hr)

private theorem joinDominators_gives (g : Surveyed f entry order) (h : Forming f entry order tree)
    (preds : List BlockId) (there : ∀ p ∈ preds, f.Inside p) {kind : BlockId → Prop}
    {known : Option BlockId} (start : Joined f entry tree kind known) :
    Gives (joinDominators (finishNumbers f.blocks.size order) tree known preds)
      (Joined f entry tree fun p => kind p ∨ p ∈ preds ∧ Known tree p) := by
  induction preds generalizing kind known with
  | nil =>
    rw [joinDominators]
    exact .of_ok (start.congr (by simp))
  | cons p rest ih =>
    have inside := there p List.mem_cons_self
    obtain ⟨parent, found⟩ := h.found inside
    have regroup : ∀ q, (kind q ∨ q = p ∧ Known tree q) ∨ q ∈ rest ∧ Known tree q ↔
        kind q ∨ q ∈ p :: rest ∧ Known tree q := by
      intro q
      rw [List.mem_cons]
      tauto
    have more : ∀ {known : Option BlockId},
        Joined f entry tree (fun q => kind q ∨ q = p ∧ Known tree q) known →
        Gives (joinDominators (finishNumbers f.blocks.size order) tree known rest)
          (Joined f entry tree fun q => kind q ∨ q ∈ p :: rest ∧ Known tree q) :=
      fun joined => (ih (fun q hq => there q (List.mem_cons_of_mem _ hq)) joined).imp
        fun _ joined => joined.congr regroup
    unfold joinDominators
    refine .of_run (g.number inside) (.of_run found ?_)
    cases parent with
    | none =>
      have out : ¬ Known tree p := by
        rintro ⟨d, parent⟩
        unfold Parent at parent
        rw [found] at parent
        cases parent
      rw [if_pos (by simp)]
      refine more (start.congr fun q => (or_iff_left ?_).symm)
      rintro ⟨rfl, known⟩
      exact out known
    | some d =>
      have ready : Known tree p := ⟨d, found⟩
      rw [if_neg (by simp [h.reached p ready])]
      cases known with
      | none =>
        refine more ((Joined.first ready).congr fun q => ?_)
        constructor
        · rintro rfl
          exact .inr ⟨rfl, ready⟩
        · rintro (old | ⟨same, -⟩)
          · exact absurd old (start q)
          · exact same
      | some x =>
        have enough : (order.length - rank order p) + (order.length - rank order x) <
            (tree.size + 1) * (tree.size + 1) := by
          have := g.length_lt_square
          rw [h.size]
          omega
        refine (commonDominator_gives g h _ ready start.known enough).bind fun e join => ?_
        refine more ((Joined.next start join).congr fun q => or_congr_right ?_)
        constructor
        · rintro rfl
          exact ⟨rfl, ready⟩
        · exact And.left

def Ready (f : Procedure) (tree : DominatorTree) (b p : BlockId) : Prop :=
  p ∈ (f.blockAt b).preds ∧ Known tree p

theorem joinPreds_gives (g : Surveyed f entry order) (h : Forming f entry order tree) :
    Gives (joinDominators (finishNumbers f.blocks.size order) tree none (f.blockAt b).preds)
      (Joined f entry tree (Ready f tree b)) := by
  have nothing : Joined f entry tree (fun _ => False) none := fun _ => id
  have there : ∀ p ∈ (f.blockAt b).preds, f.Inside p := fun p hp =>
    (g.inside_of_edge ((g.ends p b).mpr hp)).1
  refine (joinDominators_gives g h _ there nothing).imp fun r joined => ?_
  exact joined.congr fun p => Iff.of_eq (false_or _)

/-- The tree after a visit to `b`: its parent is `d`, and all else is as before. -/
structure Visited (tree : DominatorTree) (b d : BlockId) (tree' : DominatorTree) : Prop where
  size : tree'.size = tree.size
  here : Parent tree' b d
  others : ∀ c, c ≠ b → Arena.get tree' c = Arena.get tree c

theorem Visited.of_same (same : Parent tree b d) : Visited tree b d tree :=
  ⟨rfl, same, fun _ _ => rfl⟩

theorem Visited.of_update (tree : DominatorTree) (d : BlockId)
    (there : (0 : Int) ≤ b ∧ (b : Int) < tree.size) :
    ∃ tree', Arena.update tree b (fun _ => some d) = .ok tree' ∧ Visited tree b d tree' := by
  have run : Arena.update tree b (fun _ => some d) = .ok (tree.modify b.toNat fun _ => some d) :=
    Arena.update_eq_ok.mpr ⟨there, rfl⟩
  have get := Arena.get_update run
  obtain ⟨old, found⟩ := Arena.get_range.mpr there
  refine ⟨_, run, Arena.size_update run, ?_, fun c other => ?_⟩
  · unfold Parent
    rw [get, if_pos rfl, found]
    rfl
  · rw [get, if_neg other]

namespace Visited

private theorem parent_iff (v : Visited tree b d tree') (other : c ≠ b) :
    Parent tree' c x ↔ Parent tree c x := by
  unfold Parent
  rw [v.others c other]

private theorem known (v : Visited tree b d tree') (known : Known tree c) : Known tree' c := by
  by_cases here : c = b
  · rw [here]
    exact ⟨d, v.here⟩
  · obtain ⟨e, parent⟩ := known
    exact ⟨e, (v.parent_iff here).mpr parent⟩

/-- A chain that does not lead through `b` is as before. Else it leads up to `b` as before, and on
from there. -/
private theorem above_cases (v : Visited tree b d tree') (above : Above tree' entry a c) :
    Above tree entry a c ∨ Above tree entry b c ∧ Above tree' entry a d := by
  induction above with
  | refl => exact .inl .refl
  | @up c e away parent rest ih =>
    by_cases here : c = b
    · subst here
      rw [← parent.unique v.here]
      exact .inr ⟨.refl, rest⟩
    · have old := (v.parent_iff here).mp parent
      rcases ih with before | ⟨before, after⟩
      · exact .inl (.up away old before)
      · exact .inr ⟨.up away old before, after⟩

private theorem above_here (v : Visited tree b d tree') (above : Above tree entry b c) :
    Above tree' entry b c := by
  induction above with
  | refl => exact .refl
  | @up c e away parent rest ih =>
    by_cases here : c = b
    · rw [here]
      exact .refl
    · exact .up away ((v.parent_iff here).mpr parent) ih

end Visited

structure Fits (entry : BlockId) (tree : DominatorTree) (x : BlockId) (l : List BlockId) : Prop where
  known : Known tree x
  passed : ∀ a, Above tree entry a x → a ∈ l

def Narrow (f : Procedure) (entry : BlockId) (n : Nat) (tree : DominatorTree) (x : BlockId) : Prop :=
  ∀ l, Way f.HasEdge entry x l → l.length ≤ n → Fits entry tree x l

section Visit

variable {n : Nat}

/-- A visit keeps the tree in the making. -/
theorem Forming.visit (g : Surveyed f entry order) (h : Forming f entry order tree)
    (mem : b ∈ order) (away : b ≠ entry) (near : Nearest f entry tree (Ready f tree b) d)
    (front : ∃ p, Ready f tree b p ∧ rank order b < rank order p)
    (v : Visited tree b d tree') : Forming f entry order tree' := by
  have up : rank order b < rank order d := by
    obtain ⟨p, ready, low⟩ := front
    exact low.trans_le (h.rank_le (near.above p ready))
  refine ⟨v.size.trans h.size, (v.parent_iff (Ne.symm away)).mpr h.top, ?_, ?_, ?_, ?_⟩
  · rintro c ⟨e, parent⟩
    by_cases here : c = b
    · rw [here]
      exact mem
    · exact h.reached c ⟨e, (v.parent_iff here).mp parent⟩
  · intro c e parent
    by_cases here : c = b
    · subst here
      rw [parent.unique v.here]
      exact v.known near.known
    · exact v.known (h.known c e ((v.parent_iff here).mp parent))
  · intro c e parent away
    by_cases here : c = b
    · subst here
      rw [parent.unique v.here]
      exact up
    · exact h.later c e ((v.parent_iff here).mp parent) away
  · intro c e parent z dom other
    by_cases here : c = b
    · subst here
      rw [parent.unique v.here]
      exact near.complete z fun p ready => dom.pred other ((g.ends p c).mpr ready.1)
    · exact h.complete c e ((v.parent_iff here).mp parent) z dom other

/-- A visit to `b` makes its chain fit the ways that are longer by one block than those that all
chains fit, and no other chain gets worse. -/
theorem Fits.visit (g : Surveyed f entry order) (h : Forming f entry order tree')
    (away : b ≠ entry) (near : Nearest f entry tree (Ready f tree b) d) (v : Visited tree b d tree')
    (narrow : ∀ p, Narrow f entry n tree p) (way : Way f.HasEdge entry x l)
    (short : l.length ≤ n + 1) (fits : x = b ∨ Fits entry tree x l) : Fits entry tree' x l := by
  have known : Known tree' x := by
    rcases fits with rfl | fits
    · exact ⟨d, v.here⟩
    · exact v.known fits.known
  -- above the new parent the chain is as before, and fits the part of the way before `b`
  have beyond : ∀ {m : List BlockId} {a : BlockId}, Way f.HasEdge entry b m → m.length ≤ n + 1 →
      Above tree' entry a d → a ∈ m := by
    intro m a part short above
    cases part with
    | start => exact absurd rfl away
    | @step p _ m part last =>
      have fits := narrow p m part (by simpa using short)
      have ready : Ready f tree b p := ⟨(g.ends p b).mp last, fits.known⟩
      have old : Above tree entry a d := by
        rcases v.above_cases above with old | ⟨loop, -⟩
        · exact old
        · -- the chain does not come back to `b`
          have := h.rank_le (v.above_here loop)
          have := h.later b d v.here away
          omega
      exact List.mem_cons_of_mem _ (fits.passed a (old.trans (near.above p ready)))
  refine ⟨known, fun a above => ?_⟩
  by_cases start : x = b
  · subst start
    by_cases same : a = x
    · rw [same]
      exact way.last_mem
    · exact beyond way short (above.of_parent same v.here)
  · have fits := fits.resolve_left start
    rcases v.above_cases above with old | ⟨before, after⟩
    · exact fits.passed a old
    · obtain ⟨m, part, suffix⟩ := way.upTo (fits.passed b before)
      exact suffix.subset (beyond part (suffix.length_le.trans short) after)

end Visit

/-- The state of a sweep that started with chains that fit the ways with at most `n` blocks, after
the visits to the blocks of a list. -/
structure Sweeping (f : Procedure) (entry : BlockId) (order : List BlockId) (n : Nat)
    (done : List BlockId) (tree : DominatorTree) : Prop extends Forming f entry order tree where
  visited : ∀ b ∈ done, Known tree b
  narrow : ∀ x, Narrow f entry n tree x
  narrower : ∀ x ∈ done, Narrow f entry (n + 1) tree x

theorem Sweeping.front {n : Nat} {done rest : List BlockId} (g : Surveyed f entry order)
    (h : Sweeping f entry order n done tree) (split : order = done ++ b :: rest) (away : b ≠ entry) :
    ∃ p, Ready f tree b p ∧ rank order b < rank order p := by
  have mem : b ∈ order := by simp [split]
  obtain ⟨p, sub, edge⟩ := (g.rooted b mem).resolve_left away
  refine ⟨p, ⟨(g.ends p b).mp edge, h.visited p ?_⟩, rank_lt_of_sublist g.nodup sub⟩
  have once := g.nodup
  rw [split] at sub once
  -- `p` is in front of `b`, which occurs once
  obtain ⟨left, right, parts, hp, hb⟩ :=
    List.append_sublist_iff.mp (show ([p] ++ [b]).Sublist (done ++ b :: rest) from sub)
  have inLeft : p ∈ left := List.singleton_sublist.mp hp
  have inRight : b ∈ right := List.singleton_sublist.mp hb
  rcases List.append_eq_append_iff.mp parts with ⟨more, rfl, tail⟩ | ⟨more, rfl, -⟩
  · cases more with
    | nil =>
      rw [List.append_nil] at inLeft
      exact inLeft
    | cons c more =>
      -- then `b` would stand on both sides
      rw [List.cons_append] at tail
      obtain ⟨rfl, rfl⟩ := List.cons.inj tail
      have := (List.nodup_cons.mp (List.nodup_append.mp once).2.1).1
      exact absurd (List.mem_append_right _ inRight) this
  · exact List.mem_append_left _ inLeft

theorem Sweeping.visit {n : Nat} {done rest : List BlockId} (g : Surveyed f entry order)
    (h : Sweeping f entry order n done tree) (split : order = done ++ b :: rest) (away : b ≠ entry)
    (near : Nearest f entry tree (Ready f tree b) d) (v : Visited tree b d tree') :
    Sweeping f entry order n (done ++ [b]) tree' := by
  have mem : b ∈ order := by simp [split]
  have forming := h.toForming.visit g mem away near (h.front g split away) v
  refine ⟨forming, fun c hc => ?_, fun x l way short => ?_, fun x hx l way short => ?_⟩
  · rcases List.mem_append.mp hc with old | new
    · exact v.known (h.visited c old)
    · rw [List.mem_singleton.mp new]
      exact ⟨d, v.here⟩
  · exact Fits.visit g forming away near v h.narrow way (short.trans (Nat.le_succ n))
      (.inr (h.narrow x l way short))
  · refine Fits.visit g forming away near v h.narrow way short ?_
    rcases List.mem_append.mp hx with old | new
    · exact .inr (h.narrower x old l way short)
    · exact .inl (List.mem_singleton.mp new)

private theorem sweep_gives {n : Nat} (g : Surveyed f entry order) (rest done : List BlockId)
    (split : order = done ++ rest) (away : entry ∉ rest) (changed : Bool)
    (h : Sweeping f entry order n done tree) :
    Gives (sweep f (finishNumbers f.blocks.size order) rest (tree, changed)) fun r =>
      Sweeping f entry order n order r.1 ∧ (r.2 = false → r.1 = tree ∧ changed = false) := by
  induction rest generalizing done tree changed with
  | nil =>
    rw [sweep]
    rw [List.append_nil] at split
    rw [← split] at h
    exact .of_ok ⟨h, fun same => ⟨rfl, same⟩⟩
  | cons b rest ih =>
    have mem : b ∈ order := by simp [split]
    have inside := g.inside mem
    have away' : b ≠ entry := fun same => away (same ▸ List.mem_cons_self)
    have split' : order = (done ++ [b]) ++ rest := by simpa using split
    rw [sweep]
    refine .of_run inside.preds ((joinPreds_gives g h.toForming).bind fun r joined => ?_)
    obtain ⟨old, found⟩ := h.found inside
    refine .of_run found ?_
    obtain ⟨d, rfl⟩ : ∃ d, r = some d := by
      obtain ⟨p, ready, -⟩ := h.front g split away'
      cases r with
      | none => exact absurd ready (joined p)
      | some d => exact ⟨d, rfl⟩
    have away'' : entry ∉ rest := fun here => away (List.mem_cons_of_mem _ here)
    by_cases same : some d = old
    · rw [if_pos same]
      subst same
      exact ih _ split' away'' changed (h.visit g split away' joined (.of_same found))
    · rw [if_neg same]
      obtain ⟨tree', run, v⟩ := Visited.of_update tree d (by rw [h.size]; exact inside)
      refine .of_run run ((ih _ split' away'' true (h.visit g split away' joined v)).imp ?_)
      exact fun r result => ⟨result.1, fun same => absurd (result.2 same).2 (by simp)⟩

/-- The immediate dominators: the chain up from a block has its dominators and nothing else. -/
structure Exact (f : Procedure) (entry : BlockId) (order : List BlockId) (tree : DominatorTree) :
    Prop extends Forming f entry order tree where
  all : ∀ b ∈ order, Known tree b
  dominates : ∀ b ∈ order, ∀ a, Above tree entry a b → Dominates f.HasEdge entry a b

theorem surveyed_gives (mirrored : f.Mirrored) (first : f.entry? = some entry) :
    Gives (reversePostorder f entry) (Surveyed f entry) := by
  have start := mirrored.entry entry first
  refine (reversePostorder_gives (fun a b edge => (mirrored.inside edge).2) start).imp ?_
  exact fun order ordered => ⟨ordered, mirrored, start⟩

namespace Surveyed

private theorem exact (g : Surveyed f entry order) (h : Forming f entry order tree)
    (narrow : ∀ x, Narrow f entry order.length tree x) : Exact f entry order tree := by
  -- a way can be cut short, and then has at most as many blocks as there are
  have fits : ∀ b l, Way f.HasEdge entry b l → ∃ m, m ⊆ l ∧ Fits entry tree b m := by
    intro b l way
    obtain ⟨m, short, nodup, sub⟩ := way.shorten
    refine ⟨m, sub, narrow b m short (nodup.subperm fun c hc => ?_).length_le⟩
    exact (g.mem c).mpr ((Reaches.refl entry).along short hc)
  refine ⟨h, fun b mem => ?_, fun b mem a above l way => ?_⟩
  · obtain ⟨l, way⟩ := (g.mem b).mp mem
    obtain ⟨m, -, fits⟩ := fits b l way
    exact fits.known
  · obtain ⟨m, sub, fits⟩ := fits b l way
    exact sub (fits.passed a above)

theorem sweeping {n : Nat} (g : Surveyed f entry order) (h : Forming f entry order tree)
    (narrow : ∀ x, Narrow f entry n tree x) : Sweeping f entry order n [entry] tree := by
  refine ⟨h, fun b hb => ?_, narrow, fun x hx l way short => ?_⟩
  · rw [List.mem_singleton.mp hb]
    exact ⟨entry, h.top⟩
  · obtain rfl := List.mem_singleton.mp hx
    refine ⟨⟨x, h.top⟩, fun a above => ?_⟩
    rw [above.eq_entry]
    exact way.last_mem

private theorem sweep_gives {n : Nat} {rest : List BlockId} (g : Surveyed f entry (entry :: rest))
    (h : Forming f entry (entry :: rest) tree) (narrow : ∀ x, Narrow f entry n tree x) :
    Gives (sweep f (finishNumbers f.blocks.size (entry :: rest)) rest (tree, false)) fun r =>
      Forming f entry (entry :: rest) r.1 ∧ (∀ x, Narrow f entry (n + 1) r.1 x) ∧
        (r.2 = false → r.1 = tree) := by
  have away : entry ∉ rest := (List.nodup_cons.mp g.nodup).1
  refine (Flow.sweep_gives g rest [entry] rfl away false (g.sweeping h narrow)).imp ?_
  rintro r ⟨swept, same⟩
  refine ⟨swept.toForming, fun x l way => ?_, fun still => (same still).1⟩
  exact swept.narrower x ((g.mem x).mpr ⟨l, way⟩) l way

private theorem exact_of_still {n : Nat} {rest : List BlockId} (g : Surveyed f entry (entry :: rest))
    (h : Forming f entry (entry :: rest) tree) (narrow : ∀ x, Narrow f entry n tree x)
    (still : sweep f (finishNumbers f.blocks.size (entry :: rest)) rest (tree, false) =
      .ok (tree, false)) : Exact f entry (entry :: rest) tree := by
  refine g.exact h ?_
  have all : ∀ k x, Narrow f entry (n + k) tree x := by
    intro k
    induction k with
    | zero => exact narrow
    | succ k ih =>
      obtain ⟨r, run, -, narrower, -⟩ := g.sweep_gives h ih
      rw [still] at run
      cases run
      exact narrower
  intro x l way short
  exact all (entry :: rest).length x l way (by omega)

end Surveyed

namespace Exact

private theorem parent_of_nearest {e : BlockId} (g : Surveyed f entry order) (h : Exact f entry order tree)
    (mem : b ∈ order) (away : b ≠ entry) (near : Nearest f entry tree (Ready f tree b) d)
    (parent : Parent tree b e) : d = e := by
  have ready : ∀ p, Reaches f.HasEdge entry p → f.HasEdge p b → Ready f tree b p :=
    fun p reached edge => ⟨(g.ends p b).mp edge, h.all p ((g.mem p).mpr reached)⟩
  have dominatesB : Dominates f.HasEdge entry d b := by
    apply Dominates.of_preds away
    intro p reached edge
    exact h.dominates p ((g.mem p).mpr reached) d (near.above p (ready p reached edge))
  have other : d ≠ b := by
    rintro rfl
    obtain ⟨p, sub, edge⟩ := (g.rooted d mem).resolve_left away
    have reached := (g.mem p).mp (sub.subset (by simp))
    have := rank_lt_of_sublist g.nodup sub
    have := h.rank_le (near.above p (ready p reached edge))
    omega
  have other' : e ≠ b := by
    rintro rfl
    have := h.later e e parent away
    omega
  have knownE := h.known b e parent
  have dominatesE : Dominates f.HasEdge entry d e :=
    h.dominates e (h.reached e knownE) d
      ((h.above_of_dominates ⟨e, parent⟩ dominatesB).of_parent other parent)
  have dominatedD : Dominates f.HasEdge entry e d := by
    apply near.complete e
    intro p ready
    exact (h.dominates b mem e (.up away parent .refl)).pred other' ((g.ends p b).mpr ready.1)
  exact dominatesE.antisymm dominatedD ((g.mem d).mp (h.reached d near.known))

theorem still (g : Surveyed f entry order) (h : Exact f entry order tree) (rest : List BlockId)
    (sub : ∀ b ∈ rest, b ∈ order ∧ b ≠ entry) :
    sweep f (finishNumbers f.blocks.size order) rest (tree, false) = .ok (tree, false) := by
  induction rest with
  | nil => rfl
  | cons b rest ih =>
    obtain ⟨mem, away⟩ := sub b List.mem_cons_self
    obtain ⟨r, run, joined⟩ := joinPreds_gives (b := b) g h.toForming
    obtain ⟨e, parent⟩ := h.all b mem
    obtain ⟨d, rfl⟩ : ∃ d, r = some d := by
      obtain ⟨p, sub, edge⟩ := (g.rooted b mem).resolve_left away
      cases r with
      | none => exact absurd ⟨(g.ends p b).mp edge, h.all p (sub.subset (by simp))⟩ (joined p)
      | some d => exact ⟨d, rfl⟩
    obtain rfl := h.parent_of_nearest g mem away joined parent
    rw [sweep, (g.inside mem).preds]
    change (do
      let r ← joinDominators _ tree none (f.blockAt b).preds
      if r = (← Arena.get tree b) then _ else _) = _
    rw [run, show Arena.get tree b = .ok (some d) from parent]
    change (if some d = some d then _ else _) = _
    rw [if_pos rfl]
    exact ih fun c hc => sub c (List.mem_cons_of_mem _ hc)

end Exact

private theorem settle_gives {n : Nat} {rest : List BlockId} (g : Surveyed f entry (entry :: rest))
    (fuel : Nat) (h : Forming f entry (entry :: rest) tree) (narrow : ∀ x, Narrow f entry n tree x)
    (some' : 0 < fuel) (enough : (entry :: rest).length < n + fuel) :
    Gives (settle f (finishNumbers f.blocks.size (entry :: rest)) rest fuel tree)
      (Exact f entry (entry :: rest)) := by
  induction fuel generalizing n tree with
  | zero => omega
  | succ fuel ih =>
    have away : entry ∉ rest := (List.nodup_cons.mp g.nodup).1
    obtain ⟨⟨tree', changed⟩, run, forming, narrower, same⟩ := g.sweep_gives h narrow
    rw [settle]
    refine .of_run run ?_
    cases changed with
    | false =>
      obtain rfl : tree' = tree := same rfl
      exact .of_ok (g.exact_of_still h narrow run)
    | true =>
      -- the sweep has changed something, so there were ways that the chains did not fit
      have short : n < (entry :: rest).length := by
        by_contra long
        have exact := g.exact h fun x l way short => narrow x l way (by omega)
        have still := exact.still g rest fun b hb =>
          ⟨List.mem_cons_of_mem _ hb, fun same => away (same ▸ hb)⟩
        rw [run] at still
        cases still
      exact ih forming narrower (by omega) (by omega)

/-- The tree that the sweeps start from, in which the entry is its own parent and nothing else is
known. -/
theorem Surveyed.forming_first (g : Surveyed f entry order)
    (v : Visited (Array.replicate f.blocks.size none) entry entry tree) :
    Forming f entry order tree ∧ ∀ x, Narrow f entry 1 tree x := by
  have only : ∀ b d, Parent tree b d → b = entry ∧ d = entry := by
    intro b d parent
    by_cases here : b = entry
    · subst here
      exact ⟨rfl, parent.unique v.here⟩
    · have old := (v.parent_iff here).mp parent
      unfold Parent at old
      have there := Arena.get_range.mp ⟨_, old⟩
      rw [Array.size_replicate] at there
      rw [Arena.get_replicate there] at old
      cases old
  constructor
  · refine ⟨by simpa using v.size, v.here, ?_, ?_, ?_, ?_⟩
    · rintro b ⟨d, parent⟩
      rw [(only b d parent).1]
      exact g.entry_mem
    · intro b d parent
      rw [(only b d parent).2]
      exact ⟨entry, v.here⟩
    · intro b d parent away
      exact absurd (only b d parent).1 away
    · intro b d parent a dom other
      obtain ⟨rfl, rfl⟩ := only b d parent
      exact dom
  · intro x l way short
    cases way with
    | start =>
      refine ⟨⟨entry, v.here⟩, fun a above => ?_⟩
      rw [above.eq_entry]
      exact List.mem_singleton_self entry
    | step way last =>
      cases way <;> simp at short

theorem dominators_gives (g : Surveyed f entry order) :
    Gives (dominators f (finishNumbers f.blocks.size order) order) (Exact f entry order) := by
  obtain ⟨rest, rfl⟩ := g.order_eq
  obtain ⟨tree, run, v⟩ := Visited.of_update (Array.replicate f.blocks.size none) entry
    (b := entry) (by rw [Array.size_replicate]; exact g.start)
  obtain ⟨forming, narrow⟩ := g.forming_first v
  have bound := g.length_lt_square
  rw [dominators]
  refine .of_run run (settle_gives g _ forming narrow (by omega) (by omega))

/-- The climb up from a block tells what dominates it. -/
theorem dominates_gives (h : Exact f entry order tree) (fuel : Nat) (mem : b ∈ order)
    (enough : order.length - rank order b ≤ fuel) :
    Gives (dominates tree entry fuel a b) fun r => r = true ↔ Dominates f.HasEdge entry a b := by
  suffices climb : Gives (dominates tree entry fuel a b) fun r => r = true ↔ Above tree entry a b by
    refine climb.imp fun r same => same.trans ?_
    exact ⟨h.dominates b mem a, h.above_of_dominates (h.all b mem)⟩
  induction fuel generalizing b with
  | zero =>
    have := rank_lt mem
    omega
  | succ fuel ih =>
    rw [dominates]
    by_cases same : a = b
    · subst same
      rw [if_pos rfl]
      exact .of_ok (iff_of_true rfl .refl)
    · rw [if_neg same]
      by_cases top : b = entry
      · rw [if_pos top]
        refine .of_ok (iff_of_false (by simp) fun above => same ?_)
        subst top
        exact above.eq_entry
      · rw [if_neg top]
        obtain ⟨d, parent⟩ := h.all b mem
        have later := h.later b d parent top
        refine .of_run parent.run ((ih (h.reached d (h.known b d parent)) (by omega)).imp ?_)
        intro r answer
        exact answer.trans ⟨.up top parent, fun above => above.of_parent same parent⟩

end Flow

end Predication
