import Mathlib.Data.Prod.Lex
import Mathlib.Order.RelClasses
import Predication.Conversion.Analysis
import Predication.Machine.Datapath
import Predication.Proofs.Heaps
import Predication.Proofs.Yields

/-!
The queue of candidates. Under an order that is total up to ties, a heap gives its entries out one
after the other until there are none, and never one that comes before an entry it gave out earlier.
Candidates are ordered by their ranks, which those of different blocks do not share, so of the
candidates of a block the queue gives out a best one first.
-/

set_option autoImplicit false
set_option relaxedAutoImplicit false

namespace Predication

namespace Heap

variable {α : Type} {before : α → α → Bool} {xs : Array α} {h h' : Heap α} {i : Nat} {x y : α}

def Ordered (before : α → α → Bool) (xs : Array α) : Prop :=
  ∀ j (inside : j < xs.size) (above : (j - 1) / 2 < xs.size), 0 < j →
    before xs[j] xs[(j - 1) / 2] = false

/-- Only the entry at position `i` may come before the one above it; those below it may take its
place. -/
structure Rising (before : α → α → Bool) (xs : Array α) (i : Nat) : Prop where
  others : ∀ j (inside : j < xs.size) (above : (j - 1) / 2 < xs.size), 0 < j → j ≠ i →
    before xs[j] xs[(j - 1) / 2] = false
  across : ∀ j (inside : j < xs.size) (above : (i - 1) / 2 < xs.size), 0 < i → 0 < j →
    (j - 1) / 2 = i → before xs[j] xs[(i - 1) / 2] = false

/-- Only those below the entry at position `i` may come before it; they may take its place. -/
structure Sinking (before : α → α → Bool) (xs : Array α) (i : Nat) : Prop where
  others : ∀ j (inside : j < xs.size) (above : (j - 1) / 2 < xs.size), 0 < j → (j - 1) / 2 ≠ i →
    before xs[j] xs[(j - 1) / 2] = false
  across : ∀ j (inside : j < xs.size) (above : (i - 1) / 2 < xs.size), 0 < i → 0 < j →
    (j - 1) / 2 = i → before xs[j] xs[(i - 1) / 2] = false

/-- The entries that a heap gives out until it has none left. -/
inductive Empties (before : α → α → Bool) : Heap α → List α → Prop where
  | done {h : Heap α} (empty : h.pop? before = none) : Empties before h []
  | pop {h h' : Heap α} {x : α} {l : List α} (first : h.pop? before = some (x, h'))
      (rest : Empties before h' l) : Empties before h (x :: l)

section

variable [order : IsStrictWeakOrder α fun a b => before a b = true]

omit order in
private theorem not_before {a b : α} : ¬ (before a b = true) ↔ before a b = false := by
  rw [Bool.not_eq_true]

private theorem before_self (a : α) : before a a = false :=
  not_before.mp (order.irrefl a)

private theorem before_asymm {a b : α} (first : before a b = true) : before b a = false :=
  not_before.mp fun back => order.irrefl a (order.trans a b a first back)

/-- What does not come before something that does not come before a third does not come before the
third. -/
private theorem not_before_trans {a b c : α} (first : before b a = false) (second : before c b = false) :
    before c a = false := by
  by_contra early
  rw [Bool.not_eq_false] at early
  have ab : before a b = false :=
    not_before.mp fun ab => by simp [order.trans c a b early ab] at second
  have bc : before b c = false :=
    not_before.mp fun bc => by simp [order.trans b c a bc early] at first
  have ties := order.incomp_trans a b c ⟨not_before.mpr ab, not_before.mpr first⟩
    ⟨not_before.mpr bc, not_before.mpr second⟩
  exact ties.2 early

theorem Rising.step (rising : Rising before xs i) (inside : i < xs.size)
    (above : (i - 1) / 2 < xs.size) (positive : 0 < i)
    (early : before xs[i] xs[(i - 1) / 2] = true) :
    Rising before (xs.swap i ((i - 1) / 2) inside above) ((i - 1) / 2) := by
  have late := before_asymm early
  constructor
  · intro j here _ low other
    have here' : j < xs.size := by simpa using here
    by_cases same : j = i
    · subst same
      simpa using late
    · have up := rising.others j here' (by omega) low same
      by_cases child : (j - 1) / 2 = i
      · have higher := rising.across j here' above positive low child
        grind
      · by_cases sibling : (j - 1) / 2 = (i - 1) / 2
        · have after := not_before_trans late (by simpa [sibling] using up)
          grind
        · grind
  · intro j here _ high low child
    have here' : j < xs.size := by simpa using here
    have upper := rising.others ((i - 1) / 2) above (by omega) high (by omega)
    by_cases same : j = i
    · grind
    · have up := rising.others j here' (by omega) low same
      have after := not_before_trans upper (by simpa [child] using up)
      grind

omit order in
private theorem Rising.stop (rising : Rising before xs i) (inside : i < xs.size)
    (above : (i - 1) / 2 < xs.size) (last : 0 < i → before xs[i] xs[(i - 1) / 2] = false) :
    Ordered before xs := by
  intro j here _ low
  by_cases same : j = i
  · subst same
    exact last low
  · exact rising.others j here (by omega) low same

private theorem ordered_siftUp (inside : i < xs.size) (rising : Rising before xs i) :
    Ordered before (siftUp before xs i inside) := by
  induction i using Nat.strongRecOn generalizing xs with
  | _ i ih =>
    rw [siftUp]
    split
    · rename_i zero
      exact rising.stop inside (by omega) fun positive => by omega
    · rename_i nonzero
      dsimp only
      split
      · rename_i early
        exact ih ((i - 1) / 2) (by omega) _ (rising.step inside (by omega) (by omega) early)
      · rename_i late
        exact rising.stop inside (by omega) fun _ => not_before.mp late

omit order in
private theorem childOf?_none (none : childOf? before xs i = none) {j : Nat} (inside : j < xs.size)
    (low : 0 < j) : (j - 1) / 2 ≠ i := by
  unfold childOf? at none
  split at none
  · split at none
    · split at none <;> cases none
    · cases none
  · omega

private theorem childOf?_some {c : Fin xs.size} (child : childOf? before xs i = some c) :
    0 < c.val ∧ (c.val - 1) / 2 = i ∧ ∀ j (inside : j < xs.size), 0 < j → (j - 1) / 2 = i →
      before xs[j] xs[c] = false := by
  have cases_of : ∀ j, 0 < j → (j - 1) / 2 = i → j = 2 * i + 1 ∨ j = 2 * i + 2 := by
    intro j low below
    omega
  unfold childOf? at child
  split at child
  · split at child
    · split at child
      · rename_i early
        cases child
        refine ⟨by simp, by simp; omega, fun j inside low below => ?_⟩
        rcases cases_of j low below with rfl | rfl
        · exact before_asymm early
        · exact before_self _
      · rename_i late
        cases child
        refine ⟨by simp, by simp, fun j inside low below => ?_⟩
        rcases cases_of j low below with rfl | rfl
        · exact before_self _
        · exact not_before.mp late
    · cases child
      refine ⟨by simp, by simp, fun j inside low below => ?_⟩
      rcases cases_of j low below with rfl | rfl
      · exact before_self _
      · omega
  · cases child

theorem Sinking.step {c : Nat} (sinking : Sinking before xs i) (inside : i < xs.size)
    (bound : c < xs.size) (child : childOf? before xs i = some ⟨c, bound⟩)
    (early : before xs[c] xs[i] = true) : Sinking before (xs.swap i c inside bound) c := by
  obtain ⟨positive, above, least⟩ := childOf?_some child
  dsimp only at positive above
  constructor
  · intro j here _ low other
    have here' : j < xs.size := by simpa using here
    by_cases same : j = i
    · have up := sinking.across c bound (by omega) (by omega) positive above
      grind
    · by_cases below : (j - 1) / 2 = i
      · have first := least j here' low below
        have late := before_asymm early
        grind
      · have up := sinking.others j here' (by omega) low below
        grind
  · intro j here _ _ low below
    have here' : j < xs.size := by simpa using here
    have up := sinking.others j here' (by omega) low (by omega)
    grind

private theorem ordered_siftDown (inside : i < xs.size) (sinking : Sinking before xs i) :
    Ordered before (siftDown before xs i inside) := by
  -- the position moves down, towards the end
  induction k : xs.size - i using Nat.strongRecOn generalizing xs i with
  | _ k ih =>
    rw [siftDown]
    split
    · rename_i none
      exact fun j here above low => sinking.others j here above low (childOf?_none none here low)
    · rename_i c child
      have lower := lt_of_childOf? before child
      split
      · rename_i early
        exact ih _ (by simp; omega) _ (sinking.step inside c.isLt child early) rfl
      · rename_i late
        intro j here above low
        by_cases below : (j - 1) / 2 = i
        · have first := (childOf?_some child).2.2 j here low below
          have after := not_before_trans (not_before.mp late) first
          grind
        · exact sinking.others j here above low below

private theorem ordered_push (ordered : Ordered before h.entries) (x : α) :
    Ordered before (h.push before x).entries := by
  refine ordered_siftUp _ ⟨fun j inside _ low other => ?_, fun j inside _ high low below => ?_⟩
  · have here : j < h.entries.size := by
      have := Array.size_push x ▸ inside
      omega
    have up := ordered j here (by omega) low
    grind
  · have := Array.size_push x ▸ inside
    omega

private theorem Ordered.first (ordered : Ordered before xs) (inside : i < xs.size) :
    before xs[i] xs[0] = false := by
  induction i using Nat.strongRecOn with
  | _ i ih =>
    by_cases zero : i = 0
    · subst zero
      exact before_self _
    · exact not_before_trans (ih ((i - 1) / 2) (by omega) (by omega))
        (ordered i inside (by omega) (by omega))

end

private theorem pop?_eq_none : h.pop? before = none ↔ h.entries = #[] := by
  constructor
  · intro none
    unfold pop? at none
    split at none
    · dsimp only at none
      split at none <;> cases none
    · rename_i empty
      by_contra entries
      have inside : 0 < h.entries.size := Array.size_pos_iff.mpr entries
      exact empty _ _ (Array.getElem?_eq_getElem inside)
        (by rw [Array.back?_eq_getElem?, Array.getElem?_eq_getElem (by omega)])
  · intro empty
    unfold pop?
    simp [empty]

private theorem pop?_perm (popped : h.pop? before = some (x, h')) :
    h.entries.toList.Perm (x :: h'.entries.toList) := by
  unfold pop? at popped
  split at popped
  · rename_i first last hfirst hlast
    rw [← Array.getElem?_toList] at hfirst
    rw [← Array.getLast?_toList] at hlast
    generalize entries : h.entries.toList = l at hfirst hlast
    obtain _ | ⟨head, tail⟩ := l
    · cases hfirst
    cases hfirst
    have rest : h.entries.pop.toList = (first :: tail).dropLast := by
      rw [Array.toList_pop, entries]
    dsimp only at popped
    split at popped
    · rename_i inside
      cases popped
      have moved := (@siftDown_perm α before (h.entries.pop.set 0 last) 0
        (by simpa using inside)).toList
      rw [Array.toList_set, rest] at moved
      obtain _ | ⟨second, tail⟩ := tail
      · rw [← Array.length_toList, rest] at inside
        simp at inside
      · rw [List.dropLast_cons_cons, List.set_cons_zero] at moved
        have split : second :: tail = (second :: tail).dropLast ++ [last] := by
          rw [List.getLast?_cons_cons] at hlast
          exact (List.dropLast_append_getLast? last hlast).symm
        refine List.Perm.cons _ ?_
        calc (second :: tail).Perm ((second :: tail).dropLast ++ [last]) := by rw [← split]
          _ |>.Perm (last :: (second :: tail).dropLast) := List.perm_append_singleton _ _
          _ |>.Perm _ := moved.symm
    · rename_i outside
      cases popped
      have length : h.entries.pop.toList.length = 0 := by
        rw [Array.length_toList]
        omega
      rw [rest] at length
      simp only [List.length_dropLast, List.length_cons] at length
      have : tail = [] := List.length_eq_zero_iff.mp (by omega)
      simp [this]
  · cases popped

private theorem size_pop? (popped : h.pop? before = some (x, h')) : h.size = h'.size + 1 := by
  simpa [size] using (pop?_perm popped).length_eq

private theorem empties_popMany {n : Nat} (enough : h.size ≤ n) : Empties before h (popMany before n h) := by
  induction n generalizing h with
  | zero =>
    have empty : h.entries = #[] := Array.size_eq_zero_iff.mp (Nat.le_zero.mp enough)
    exact .done (pop?_eq_none.mpr empty)
  | succ n ih =>
    rw [popMany]
    split
    · rename_i x rest popped
      have size := size_pop? popped
      exact .pop popped (ih (by omega))
    · rename_i none
      exact .done none

private theorem empties_drain : Empties before h (h.drain before) := empties_popMany (Nat.le_refl _)

private theorem Empties.perm {l : List α} (empties : Empties before h l) : l.Perm h.entries.toList := by
  induction empties with
  | done none => rw [pop?_eq_none.mp none]
  | pop popped _ ih => exact (ih.cons _).trans (pop?_perm popped).symm

section

variable [order : IsStrictWeakOrder α fun a b => before a b = true]

private theorem pop?_first (ordered : Ordered before h.entries) (popped : h.pop? before = some (x, h'))
    (mem : y ∈ h.entries) : before y x = false := by
  unfold pop? at popped
  split at popped
  · rename_i first last hfirst _
    obtain ⟨inside, found⟩ := Array.getElem?_eq_some_iff.mp hfirst
    obtain ⟨j, here, rfl⟩ := Array.mem_iff_getElem.mp mem
    have least := ordered.first here
    dsimp only at popped
    split at popped <;>
    · cases popped
      rwa [found] at least
  · cases popped

private theorem ordered_pop? (ordered : Ordered before h.entries)
    (popped : h.pop? before = some (x, h')) : Ordered before h'.entries := by
  unfold pop? at popped
  split at popped
  · dsimp only at popped
    split at popped
    · cases popped
      refine ordered_siftDown _ ⟨fun j inside _ low other => ?_, fun j inside _ high => by omega⟩
      have here : j < h.entries.size - 1 := by simpa using inside
      have up := ordered j (by omega) (by omega) low
      grind
    · cases popped
      exact fun j inside => absurd inside (by simp)
  · cases popped

private theorem Empties.pairwise {l : List α} (empties : Empties before h l)
    (ordered : Ordered before h.entries) : l.Pairwise fun a b => before b a = false := by
  induction empties with
  | done _ => exact .nil
  | pop popped rest ih =>
    refine .cons (fun y mem => ?_) (ih (ordered_pop? ordered popped))
    have left := rest.perm.mem_iff.mp mem
    have there := (pop?_perm popped).mem_iff.mpr (List.mem_cons_of_mem _ left)
    exact pop?_first ordered popped (Array.mem_toList_iff.mp there)

end

def pushAll (before : α → α → Bool) (h : Heap α) (l : List α) : Heap α :=
  l.foldl (fun h x => h.push before x) h

private theorem pushAll_perm (l : List α) :
    (h.pushAll before l).entries.toList.Perm (h.entries.toList ++ l) := by
  induction l generalizing h with
  | nil => simp [pushAll]
  | cons x l ih =>
    have pushed : (h.push before x).entries.toList.Perm (h.entries.toList ++ [x]) := by
      simpa [push] using (@siftUp_perm α before (h.entries.push x) h.entries.size
        (by simp)).toList
    calc (h.pushAll before (x :: l)).entries.toList.Perm
          ((h.push before x).entries.toList ++ l) := ih
      _ |>.Perm (h.entries.toList ++ [x] ++ l) := pushed.append_right l
      _ |>.Perm (h.entries.toList ++ x :: l) := by simp

private theorem ordered_pushAll [IsStrictWeakOrder α fun a b => before a b = true]
    (ordered : Ordered before h.entries) (l : List α) :
    Ordered before (h.pushAll before l).entries := by
  induction l generalizing h with
  | nil => exact ordered
  | cons x l ih => exact ih (ordered_push ordered x)

private theorem Empties.eq {l l' : List α} (empties : Empties before h l) (again : Empties before h l') :
    l = l' := by
  induction empties generalizing l' with
  | done none =>
    cases again with
    | done _ => rfl
    | pop first _ => simp [none] at first
  | pop popped _ ih =>
    cases again with
    | done none => simp [none] at popped
    | pop first rest =>
      cases popped.symm.trans first
      rw [ih rest]

end Heap

namespace Candidate

variable (priority : Kind → Int)

/-- What candidates are ordered by: their cost, whether an arm is guarded, the priority of the kind,
and the block. The first that differs decides. -/
def rank (c : Candidate) : Int ×ₗ Bool ×ₗ Int ×ₗ Int :=
  toLex (c.cost, toLex (c.guarded, toLex (priority c.kind, c.block)))

private theorem before_iff_rank (a b : Candidate) :
    a.before priority b = true ↔ a.rank priority < b.rank priority := by
  unfold before rank
  simp only [Prod.Lex.toLex_lt_toLex]
  by_cases cost : a.cost = b.cost
  · by_cases guarded : a.guarded = b.guarded
    · by_cases kind : priority a.kind = priority b.kind
      · simp [cost, guarded, kind]
      · simp [cost, guarded, kind]
    · cases ha : a.guarded <;> cases hb : b.guarded <;> simp_all
  · simp [cost]

private theorem before_or_of_block_ne {a b : Candidate} (different : a.block ≠ b.block) :
    a.before priority b = true ∨ b.before priority a = true := by
  rw [before_iff_rank, before_iff_rank]
  apply lt_or_gt_of_ne
  intro same
  have blocks : (a.rank priority).2.2.2 = (b.rank priority).2.2.2 := by rw [same]
  exact different blocks

instance strictWeakOrder : IsStrictWeakOrder Candidate fun a b => a.before priority b = true where
  irrefl a := by
    rw [before_iff_rank]
    exact lt_irrefl _
  trans a b c := by
    simp only [before_iff_rank]
    exact lt_trans
  incomp_trans a b c := by
    simp only [before_iff_rank, not_lt]
    rintro ⟨ba, ab⟩ ⟨cb, bc⟩
    exact ⟨cb.trans ba, ab.trans bc⟩

end Candidate

namespace Conversion

open Predication.Conversion.Convert

variable {s : Setting} {st st' : State} {u : Unit}

private theorem queue_of_enqueue {c : Candidate} (run : Yields (enqueue s c) st u st') :
    st'.queue = if s.config.disabled.contains c.kind then st.queue
      else st.queue.push (Candidate.before s.config.priority) c := by
  unfold enqueue at run
  split at run
  · rename_i disabled
    obtain ⟨-, rfl⟩ := yields_pure.mp run
    rw [if_pos disabled]
  · rename_i allowed
    rw [if_neg allowed]
    obtain ⟨_, mid, pushed, set⟩ := yields_bind.mp run
    obtain rfl := yields_modify.mp pushed
    exact (yields_setInfo set).2.1

/-- Candidates that are queued one after the other are added to the queue, less those of kinds that
are switched off. -/
private theorem queue_of_enqueues {cs : List Candidate} (run : Yields (cs.forM (enqueue s)) st u st') :
    st'.queue = st.queue.pushAll (Candidate.before s.config.priority)
      (cs.filter fun c => !s.config.disabled.contains c.kind) := by
  induction cs generalizing st with
  | nil =>
    obtain ⟨-, rfl⟩ := yields_pure.mp run
    rfl
  | cons c cs ih =>
    obtain ⟨_, mid, first, rest⟩ := yields_bind.mp run
    rw [ih rest, queue_of_enqueue first]
    by_cases disabled : s.config.disabled.contains c.kind = true
    · simp [disabled]
    · simp [disabled, Heap.pushAll]

/-- Candidates are ordered by rank, with ties only within a block. Whatever is queued in an empty
queue, taking candidates out until there are none gives each of those that are allowed, none before
one that came out earlier, and so a best one first for every block. -/
theorem best_first_of_enqueues (s : Setting) :
    let before := Candidate.before s.config.priority
    IsStrictWeakOrder Candidate (fun a b => before a b = true) ∧
      (∀ a b, before a b = true ↔ a.rank s.config.priority < b.rank s.config.priority) ∧
      (∀ a b : Candidate, a.block ≠ b.block → before a b = true ∨ before b a = true) ∧
      ∀ (cs : List Candidate) (st st' : State), st.queue = {} →
        Yields (cs.forM (enqueue s)) st () st' →
        ∃ found, (∀ l, Heap.Empties before st'.queue l ↔ l = found) ∧
          st'.queue.drain before = found ∧
          found.Perm (cs.filter fun c => !s.config.disabled.contains c.kind) ∧
          found.Pairwise (fun a b => before b a = false) ∧
          ∀ b first, found.find? (fun c => decide (c.block = b)) = some first →
            ∀ c ∈ found, c.block = b → before c first = false := by
  refine ⟨inferInstance, Candidate.before_iff_rank _, fun a b => Candidate.before_or_of_block_ne _,
    fun cs st st' start run => ?_⟩
  have queue := queue_of_enqueues run
  rw [start] at queue
  have empties : Heap.Empties (Candidate.before s.config.priority) st'.queue
      (st'.queue.drain (Candidate.before s.config.priority)) := Heap.empties_drain
  have ordered : Heap.Ordered (Candidate.before s.config.priority) st'.queue.entries := by
    rw [queue]
    exact Heap.ordered_pushAll (fun j inside => absurd inside (by simp)) _
  have sorted := empties.pairwise ordered
  refine ⟨_, fun l => ⟨fun again => again.eq empties, fun same => same ▸ empties⟩, rfl, ?_, sorted,
    fun b first found c mem block => ?_⟩
  · have pushed : st'.queue.entries.toList.Perm
        (cs.filter fun c => !s.config.disabled.contains c.kind) := by
      rw [queue]
      exact Heap.pushAll_perm _
    exact empties.perm.trans pushed
  · obtain ⟨-, earlier, later, split, none⟩ := List.find?_eq_some_iff_append.mp found
    rw [split] at mem sorted
    rcases List.mem_append.mp mem with early | mem
    · simpa [block] using none c early
    · rcases List.mem_cons.mp mem with rfl | late
      · exact Heap.before_self _
      · exact (List.pairwise_cons.mp (List.pairwise_append.mp sorted).2.1).1 c late

/-- A converter that makes no simple conversion of the other arm. -/
def choosy : Setting :=
  { config := { disabled := ({} : KindSet).insert (.simple .other) }
    target := Datapath.standard.target
    loops := none }

/-- Candidates of three blocks, two of them tied within their block. -/
def mixedLot : List Candidate :=
  [{ block := 2, kind := .simple .taken, shared := 2 }, { block := 1, kind := .triangle .taken false },
    { block := 2, kind := .simple .other }, { block := 0, kind := .diamond, shared := 1, sharedTail := 1 },
    { block := 1, kind := .triangle .taken false, sharedTail := 1 },
    { block := 2, kind := .triangle .taken false, guarded := true }]

/-- The state in which they are queued. -/
def unqueued : State :=
  { procedure := { name := "f" }
    infos := #[{ block := 0 }, { block := 1 }, { block := 2 }]
    stats := {}
    log := #[] }

theorem best_first_mixedLot : ∃ st', Yields (mixedLot.forM (enqueue choosy)) unqueued () st' ∧
    (st'.queue.drain (Candidate.before choosy.config.priority)).map Candidate.block = [0, 1, 1, 2, 2] := by
  have run : Yields (mixedLot.forM (enqueue choosy)) unqueued ()
      ((mixedLot.forM (enqueue choosy)).run unqueued).2 := rfl
  refine ⟨_, run, ?_⟩
  obtain ⟨-, -, -, lots⟩ := best_first_of_enqueues choosy
  obtain ⟨found, -, drained, perm, sorted, -⟩ := lots mixedLot unqueued _ rfl run
  rw [drained]
  -- in this lot a candidate of a later block never comes before one of an earlier block
  have later : ∀ a ∈ mixedLot.filter fun c => !choosy.config.disabled.contains c.kind,
      ∀ b ∈ mixedLot.filter fun c => !choosy.config.disabled.contains c.kind,
        Candidate.before choosy.config.priority b a = false → a.block ≤ b.block := by decide
  have blocks : (found.map Candidate.block).Pairwise (· ≤ ·) := by
    rw [List.pairwise_map]
    exact sorted.imp_of_mem fun ha hb => later _ (perm.mem_iff.mp ha) _ (perm.mem_iff.mp hb)
  exact List.Perm.eq_of_pairwise (fun _ _ _ _ => Int.le_antisymm) blocks (by decide)
    ((perm.map Candidate.block).trans (by decide))

end Conversion

end Predication
