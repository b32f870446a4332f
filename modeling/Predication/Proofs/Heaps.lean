import Predication.Heap

/-!
A heap gives out what was put into it.
-/

set_option autoImplicit false
set_option relaxedAutoImplicit false

namespace Predication.Heap

variable {α : Type} {before : α → α → Bool} {h h' : Heap α} {x y : α}

theorem siftUp_perm (xs : Array α) (i : Nat) (inside : i < xs.size) :
    (siftUp before xs i inside).Perm xs := by
  induction i using Nat.strongRecOn generalizing xs with
  | _ i ih =>
    rw [siftUp]
    split
    · exact .refl _
    · dsimp only
      split
      · exact (ih ((i - 1) / 2) (by omega) _ _).trans (Array.swap_perm _ _)
      · exact .refl _

theorem siftDown_perm (xs : Array α) (i : Nat) (inside : i < xs.size) :
    (siftDown before xs i inside).Perm xs := by
  -- the position moves down, towards the end
  induction k : xs.size - i using Nat.strongRecOn generalizing xs i with
  | _ k ih =>
    rw [siftDown]
    split
    · exact .refl _
    · rename_i c child
      have lower := lt_of_childOf? before child
      split
      · exact (ih _ (by simp; omega) _ _ _ rfl).trans (Array.swap_perm _ _)
      · exact .refl _

theorem mem_push : x ∈ (h.push before y).entries ↔ x ∈ h.entries ∨ x = y := by
  unfold push
  rw [(siftUp_perm _ _ _).mem_iff, Array.mem_push]

private theorem mem_pop? (popped : h.pop? before = some (y, h')) :
    y ∈ h.entries ∧ ∀ x ∈ h'.entries, x ∈ h.entries := by
  unfold pop? at popped
  split at popped
  · rename_i first last hfirst hlast
    have mem := Array.mem_of_getElem? hfirst
    dsimp only at popped
    split at popped
    · cases popped
      refine ⟨mem, fun x hx => ?_⟩
      rw [(siftDown_perm _ _ _).mem_iff] at hx
      rcases Array.mem_or_eq_of_mem_set hx with hx | rfl
      · rw [← Array.mem_toList_iff, Array.toList_pop] at hx
        exact Array.mem_toList_iff.mp ((List.dropLast_sublist _).subset hx)
      · exact Array.mem_of_back? hlast
    · cases popped
      exact ⟨mem, fun x hx => absurd hx (Array.not_mem_empty x)⟩
  · cases popped

private theorem mem_popMany {n : Nat} (mem : x ∈ popMany before n h) : x ∈ h.entries := by
  induction n generalizing h with
  | zero => cases mem
  | succ n ih =>
    rw [popMany] at mem
    split at mem
    · rename_i y rest popped
      obtain ⟨first, others⟩ := mem_pop? popped
      rcases List.mem_cons.mp mem with rfl | mem
      · exact first
      · exact others x (ih mem)
    · cases mem

theorem mem_drain (mem : x ∈ h.drain before) : x ∈ h.entries := mem_popMany mem

end Predication.Heap
