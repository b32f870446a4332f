/-!
Binary heaps. The entry at position `i` never comes after the entries at positions `2 * i + 1` and
`2 * i + 2`, so the first entry is one that no other comes before.
-/

set_option autoImplicit false
set_option relaxedAutoImplicit false

namespace Predication

/-- The entries of a heap, level by level. -/
structure Heap (α : Type) where
  entries : Array α := #[]
  deriving Repr, DecidableEq

namespace Heap

variable {α : Type} (before : α → α → Bool)

def size (h : Heap α) : Nat := h.entries.size

/-- Moves the entry at position `i` up while it comes before the one above it. -/
def siftUp (xs : Array α) (i : Nat) (h : i < xs.size) : Array α :=
  if i = 0 then
    xs
  else
    have up : (i - 1) / 2 < xs.size := by omega
    if before xs[i] (xs[(i - 1) / 2]) then
      siftUp (xs.swap i ((i - 1) / 2)) ((i - 1) / 2) (by simpa using up)
    else
      xs
termination_by i
decreasing_by omega

/-- The position below `i` whose entry comes first: the left one, unless the right one comes before
it. -/
def childOf? (xs : Array α) (i : Nat) : Option (Fin xs.size) :=
  if left : 2 * i + 1 < xs.size then
    if right : 2 * i + 2 < xs.size then
      if before xs[2 * i + 2] xs[2 * i + 1] then some ⟨2 * i + 2, right⟩ else some ⟨2 * i + 1, left⟩
    else
      some ⟨2 * i + 1, left⟩
  else
    none

theorem lt_of_childOf? {xs : Array α} {i : Nat} {c : Fin xs.size}
    (h : childOf? before xs i = some c) : i < c.val := by
  unfold childOf? at h
  split at h
  · split at h
    · split at h <;> (cases h; simp; omega)
    · cases h; simp; omega
  · cases h

def siftDown (xs : Array α) (i : Nat) (h : i < xs.size) : Array α :=
  match child : childOf? before xs i with
  | none => xs
  | some c =>
    if before xs[c] xs[i] then
      siftDown (xs.swap i c) c (by simp)
    else
      xs
termination_by xs.size - i
decreasing_by
  have := lt_of_childOf? before child
  simp
  omega

def push (h : Heap α) (x : α) : Heap α :=
  { entries := siftUp before (h.entries.push x) h.entries.size (by simp) }

/-- Takes out the first entry: the last one takes its place and moves down. -/
def pop? (h : Heap α) : Option (α × Heap α) :=
  match h.entries[0]?, h.entries.back? with
  | some first, some last =>
    let rest := h.entries.pop
    if inside : 0 < rest.size then
      some (first, { entries := siftDown before (rest.set 0 last) 0 (by simpa using inside) })
    else
      some (first, {})
  | _, _ => none

def popMany : (n : Nat) → Heap α → List α
  | 0, _ => []
  | n + 1, h =>
    match pop? before h with
    | some (x, h) => x :: popMany n h
    | none => []

def drain (h : Heap α) : List α := popMany before h.size h

end Heap

end Predication
