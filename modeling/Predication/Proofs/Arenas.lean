import Mathlib.Data.List.Forall2
import Mathlib.Data.List.Nodup
import Predication.Arena

/-!
Arenas as partial maps from ids: which ids name an entry, and what adding and changing entries does
to the others. Lists of ids are compared entry by entry.
-/

set_option autoImplicit false
set_option relaxedAutoImplicit false

namespace Predication

theorem exists_right_of_forall₂ {α β : Type} {R : α → β → Prop} {l : List α} {m : List β}
    (h : List.Forall₂ R l m) {a : α} (ha : a ∈ l) : ∃ b ∈ m, R a b := by
  induction h with
  | nil => cases ha
  | cons first rest ih =>
    rcases List.mem_cons.mp ha with rfl | ha
    · exact ⟨_, List.mem_cons_self, first⟩
    · obtain ⟨b, hb, related⟩ := ih ha
      exact ⟨b, List.mem_cons_of_mem _ hb, related⟩

theorem exists_left_of_forall₂ {α β : Type} {R : α → β → Prop} {l : List α} {m : List β}
    (h : List.Forall₂ R l m) {b : β} (hb : b ∈ m) : ∃ a ∈ l, R a b :=
  exists_right_of_forall₂ h.flip hb

theorem exists_append_of_forall₂ {α β : Type} {R : α → β → Prop} {l l' : List α} {m : List β}
    (h : List.Forall₂ R (l ++ l') m) :
    ∃ a b, List.Forall₂ R l a ∧ List.Forall₂ R l' b ∧ m = a ++ b := by
  induction l generalizing m with
  | nil => exact ⟨[], m, .nil, h, rfl⟩
  | cons x l ih =>
    cases h with
    | cons first rest =>
      obtain ⟨a, b, front, back, rfl⟩ := ih rest
      exact ⟨_ :: a, b, .cons first front, back, rfl⟩

namespace Arena

variable {α β : Type} {xs ys : Array α} {i j : Int} {x y : α} {g : α → α}

def Has (xs : Array α) (i : Int) : Prop := 0 ≤ i ∧ i < xs.size

theorem get_natCast (xs : Array α) (n : Nat) (x : α) : get xs (n : Int) = .ok x ↔ xs[n]? = some x := by
  change get xs (Int.ofNat n) = .ok x ↔ _
  simp only [get]
  cases xs[n]? <;> simp

theorem get_eq_ok : get xs i = .ok x ↔ ∃ n : Nat, i = n ∧ xs[n]? = some x := by
  cases i with
  | ofNat n =>
    constructor
    · intro h
      exact ⟨n, rfl, (get_natCast xs n x).mp h⟩
    · rintro ⟨m, same, h⟩
      cases same
      exact (get_natCast xs n x).mpr h
  | negSucc n =>
    constructor
    · intro h
      cases h
    · rintro ⟨m, same, -⟩
      cases same

theorem get_range : (∃ x, get xs i = .ok x) ↔ 0 ≤ i ∧ i < xs.size := by
  simp only [get_eq_ok]
  constructor
  · rintro ⟨x, n, rfl, h⟩
    have := (Array.getElem?_eq_some_iff.mp h).1
    omega
  · rintro ⟨low, high⟩
    have bound : i.toNat < xs.size := by omega
    exact ⟨xs[i.toNat], i.toNat, by omega, Array.getElem?_eq_getElem bound⟩

theorem get_ok_mem (h : get xs i = .ok x) : x ∈ xs := by
  obtain ⟨n, -, h⟩ := get_eq_ok.mp h
  exact Array.mem_of_getElem? h

theorem get_of_mem (h : x ∈ xs) : ∃ i, get xs i = .ok x := by
  obtain ⟨n, hn, rfl⟩ := Array.mem_iff_getElem.mp h
  exact ⟨n, (get_natCast xs n _).mpr (Array.getElem?_eq_getElem hn)⟩

theorem get_error {e : Fault} : get xs i = .error e ↔ e = .outOfRange ∧ ¬ (0 ≤ i ∧ i < xs.size) := by
  constructor
  · intro h
    have out : ¬ (0 ≤ i ∧ i < xs.size) := by
      rw [← get_range]
      rintro ⟨x, hx⟩
      rw [h] at hx
      cases hx
    cases i with
    | negSucc n =>
      cases h
      exact ⟨rfl, out⟩
    | ofNat n =>
      cases hn : xs[n]? with
      | none =>
        simp only [get, hn] at h
        cases h
        exact ⟨rfl, out⟩
      | some x =>
        simp only [get, hn] at h
        cases h
  · rintro ⟨rfl, out⟩
    cases hi : get xs i with
    | ok x => exact absurd (get_range.mp ⟨x, hi⟩) out
    | error e =>
      cases i with
      | negSucc n => exact hi.symm
      | ofNat n =>
        cases hn : xs[n]? with
        | none =>
          simp only [get, hn] at hi
          exact hi.symm
        | some x =>
          simp only [get, hn] at hi
          cases hi

theorem get_map (xs : Array α) (h : α → β) (i : Int) : get (xs.map h) i = (get xs i).map h := by
  cases i with
  | negSucc n => rfl
  | ofNat n =>
    simp only [get, Array.getElem?_map]
    cases xs[n]? <;> rfl

theorem get_push (h : get xs i = .ok x) (y : α) : get (xs.push y) i = .ok x := by
  obtain ⟨n, rfl, hn⟩ := get_eq_ok.mp h
  have := (Array.getElem?_eq_some_iff.mp hn).1
  rw [get_natCast, Array.getElem?_push, if_neg (by omega)]
  exact hn

theorem get_push_size (xs : Array α) (y : α) : get (xs.push y) (xs.size : Int) = .ok y := by
  rw [get_natCast]
  exact Array.getElem?_push_size

theorem get_push_cases (h : get (xs.push y) i = .ok x) :
    (i = xs.size ∧ x = y) ∨ get xs i = .ok x := by
  obtain ⟨n, rfl, hn⟩ := get_eq_ok.mp h
  rw [Array.getElem?_push] at hn
  split at hn
  · rename_i last
    exact Or.inl ⟨by rw [last], (Option.some.inj hn).symm⟩
  · exact Or.inr ((get_natCast xs n x).mpr hn)

theorem get_inj (nodup : xs.toList.Nodup) (hi : get xs i = .ok x) (hj : get xs j = .ok x) :
    i = j := by
  obtain ⟨n, rfl, hn⟩ := get_eq_ok.mp hi
  obtain ⟨m, rfl, hm⟩ := get_eq_ok.mp hj
  rw [← Array.getElem?_toList] at hn hm
  have bound : n < xs.toList.length := (List.getElem?_eq_some_iff.mp hn).1
  exact congrArg Int.ofNat ((List.getElem?_inj bound nodup).mp (hn.trans hm.symm))

theorem ext_get (h : ∀ i, get xs i = get ys i) : xs = ys := by
  apply Array.ext_getElem?
  intro n
  cases hx : xs[n]? with
  | some x => exact ((get_natCast ys n x).mp (h n ▸ (get_natCast xs n x).mpr hx)).symm
  | none =>
    cases hy : ys[n]? with
    | none => rfl
    | some y =>
      rw [(get_natCast xs n y).mp (h n ▸ (get_natCast ys n y).mpr hy)] at hx
      cases hx

theorem update_eq_ok : update xs i g = .ok ys ↔
    (0 ≤ i ∧ i < xs.size) ∧ ys = xs.modify i.toNat g := by
  cases i with
  | ofNat n =>
    change (if n < xs.size then Except.ok (xs.modify n g) else .error Fault.outOfRange) = .ok ys ↔ _
    split
    · rename_i bound
      have range : 0 ≤ Int.ofNat n ∧ Int.ofNat n < xs.size := by
        change 0 ≤ (n : Int) ∧ (n : Int) < xs.size
        omega
      constructor
      · intro h
        exact ⟨range, (Except.ok.inj h).symm⟩
      · rintro ⟨-, rfl⟩
        rfl
    · rename_i bound
      constructor
      · intro h
        cases h
      · rintro ⟨⟨-, high⟩, -⟩
        change (n : Int) < xs.size at high
        omega
  | negSucc n =>
    constructor
    · intro h
      cases h
    · rintro ⟨⟨low, -⟩, -⟩
      exact absurd low (by simp)

theorem get_modify (xs : Array α) (n : Nat) (g : α → α) (j : Int) :
    get (xs.modify n g) j = if j = n then (get xs j).map g else get xs j := by
  cases j with
  | negSucc m => split <;> rfl
  | ofNat m =>
    by_cases same : n = m
    · subst same
      rw [if_pos (show Int.ofNat n = (n : Int) from rfl)]
      simp only [get, Array.getElem?_modify, if_true]
      cases xs[n]? <;> rfl
    · have other : ¬ Int.ofNat m = (n : Int) := fun h => same (Int.ofNat.inj h).symm
      rw [if_neg other]
      simp only [get, Array.getElem?_modify, same, if_false]

theorem get_update (h : update xs i g = .ok ys) (j : Int) :
    get ys j = if j = i then (get xs j).map g else get xs j := by
  obtain ⟨⟨low, -⟩, rfl⟩ := update_eq_ok.mp h
  rw [get_modify, Int.toNat_of_nonneg low]

theorem size_update (h : update xs i g = .ok ys) : ys.size = xs.size := by
  obtain ⟨-, rfl⟩ := update_eq_ok.mp h
  exact Array.size_modify

end Arena

end Predication
