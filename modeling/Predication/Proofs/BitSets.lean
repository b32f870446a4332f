import Mathlib.Algebra.Order.BigOperators.Group.Finset
import Mathlib.Data.List.Sort
import Predication.BitSet
import Predication.Proofs.Outcomes

/-!
Dense sets as sets: what is a member after an insertion, and that the list of the members has each of
them once, in ascending order. Words are read through their single digits: the lowest digit that is
set is found and cleared until the places of all such digits have been met in order.
-/

set_option autoImplicit false
set_option relaxedAutoImplicit false

namespace Predication.BitSet

variable {s : BitSet} {j k : Int} {n p : Nat} {word : BitVec 64}

private theorem getLsbD_mark (low : p < 64) : (mark n).getLsbD p = decide (p = n % 64) := by
  have bound := Nat.mod_lt n (show 0 < 64 by omega)
  rw [mark, BitVec.getLsbD_shiftLeft, BitVec.getLsbD_one, Bool.eq_iff_iff]
  simp only [Bool.and_eq_true, Bool.not_eq_true', decide_eq_true_eq, decide_eq_false_iff_not]
  omega

private theorem and_mark_ne_zero : (word &&& mark n != 0#64) = word.getLsbD (n % 64) := by
  have bound := Nat.mod_lt n (show 0 < 64 by omega)
  rw [Bool.eq_iff_iff, bne_iff_ne, ne_eq, BitVec.eq_of_getLsbD_eq_iff]
  constructor
  · intro differ
    by_contra unset
    refine differ fun i low => ?_
    rw [BitVec.getLsbD_and, getLsbD_mark low, BitVec.getLsbD_zero]
    by_cases here : i = n % 64
    · simpa [here] using unset
    · simp [here]
  · intro set same
    have digit := same (n % 64) bound
    rw [BitVec.getLsbD_and, getLsbD_mark bound, set] at digit
    simp at digit

/-- The word at a place. Where there is none, no digit is set. -/
def wordAt (words : Array (BitVec 64)) (i : Nat) : BitVec 64 := words[i]?.getD 0#64

private theorem contains_natCast (n : Nat) :
    s.contains n = (wordAt s.words (n / 64)).getLsbD (n % 64) := by
  rw [← Int.ofNat_eq_natCast, contains, wordAt]
  cases s.words[n / 64]? with
  | none => simp
  | some word => exact and_mark_ne_zero

theorem contains_empty : empty.contains k = false := by
  cases k <;> rfl

theorem reset_eq : s.reset = empty := rfl

private theorem size_grow (words : Array (BitVec 64)) (i : Nat) : i < (grow words i).size := by
  rw [grow, Array.size_append, Array.size_replicate]
  omega

private theorem wordAt_grow (words : Array (BitVec 64)) (i n : Nat) :
    wordAt (grow words i) n = wordAt words n := by
  unfold wordAt
  rw [grow, Array.getElem?_append]
  split
  · rfl
  · rename_i high
    rw [Array.getElem?_replicate, Array.getElem?_eq_none (Nat.le_of_not_lt high)]
    split <;> rfl

private theorem wordAt_modify (words : Array (BitVec 64)) {i : Nat} (n : Nat) (change : BitVec 64 → BitVec 64)
    (there : i < words.size) :
    wordAt (words.modify i change) n =
      if i = n then change (wordAt words n) else wordAt words n := by
  unfold wordAt
  rw [Array.getElem?_modify]
  split
  · rename_i here
    subst here
    rw [Array.getElem?_eq_getElem there]
    rfl
  · rfl

theorem insert_gives (low : 0 ≤ k) :
    Gives (s.insert k) fun s' => ∀ j, s'.contains j = true ↔ s.contains j = true ∨ j = k := by
  obtain ⟨n, rfl⟩ := Int.eq_ofNat_of_zero_le low
  refine .of_ok fun j => ?_
  cases j with
  | negSucc m => simp [contains]
  | ofNat m =>
    have bound := Nat.mod_lt m (show 0 < 64 by omega)
    rw [Int.ofNat_eq_natCast, contains_natCast, contains_natCast, wordAt_modify _ _ _ (size_grow _ _),
      wordAt_grow, Int.natCast_inj]
    split
    · rename_i here
      rw [BitVec.getLsbD_or, getLsbD_mark bound, Bool.or_eq_true, decide_eq_true_eq]
      refine or_congr Iff.rfl ?_
      omega
    · rename_i there
      refine (or_iff_left ?_).symm
      rintro rfl
      exact there rfl

theorem insertNew_old (old : s.contains k = true) : s.insertNew k = .ok (s, false) :=
  if_pos old

theorem insertNew_new (low : 0 ≤ k) (new : ¬ s.contains k = true) : ∃ s',
    s.insertNew k = .ok (s', true) ∧ ∀ j, s'.contains j = true ↔ s.contains j = true ∨ j = k := by
  obtain ⟨s', run, mem⟩ := insert_gives (s := s) low
  refine ⟨s', ?_, mem⟩
  rw [insertNew, if_neg new, run]
  rfl

theorem insert_mem : Holds (fun s' => ∀ j, s'.contains j = true ↔ s.contains j = true ∨ j = k)
    (s.insert k) := by
  cases k with
  | ofNat n => exact (insert_gives (Int.natCast_nonneg n)).holds
  | negSucc n => exact .error _

theorem insertNew_cases {s' : BitSet} {new : Bool} (run : s.insertNew k = .ok (s', new)) :
    (s.contains k = true ∧ s' = s ∧ new = false) ∨
      (¬ s.contains k = true ∧ new = true ∧
        ∀ j, s'.contains j = true ↔ s.contains j = true ∨ j = k) := by
  by_cases old : s.contains k = true
  · rw [insertNew_old old] at run
    cases run
    exact .inl ⟨old, rfl, rfl⟩
  · rw [insertNew, if_neg old] at run
    obtain ⟨t, added, run⟩ := bind_ok_iff.mp run
    cases run
    exact .inr ⟨old, rfl, insert_mem s' added⟩

theorem insertNew_mem :
    Holds (fun r => ∀ j, r.1.contains j = true ↔ s.contains j = true ∨ j = k) (s.insertNew k) := by
  rintro ⟨s', new⟩ run j
  rcases insertNew_cases run with ⟨old, rfl, rfl⟩ | ⟨-, rfl, added⟩
  · refine ⟨.inl, ?_⟩
    rintro (mem | rfl)
    · exact mem
    · exact old
  · exact added j

def places (word : BitVec 64) : List Nat := (List.range 64).filter fun p => word.getLsbD p

private theorem mem_places : p ∈ places word ↔ word.getLsbD p = true := by
  rw [places, List.mem_filter, List.mem_range, and_iff_right_iff_imp]
  intro set
  by_contra high
  rw [BitVec.getLsbD_of_ge _ _ (Nat.le_of_not_lt high)] at set
  cases set

private theorem lt_of_mem_places (mem : p ∈ places word) : p < 64 :=
  List.mem_range.mp (List.mem_of_mem_filter mem)

private theorem sorted_places : (places word).Pairwise (· < ·) := List.pairwise_lt_range.filter _

private theorem places_zero : places 0#64 = [] := by
  simp [places]

private theorem places_eq_cons (nonzero : word ≠ 0#64) :
    places word = word.ctz.toNat :: places (word &&& ~~~ mark word.ctz.toNat) := by
  have set := BitVec.getLsbD_true_ctz_of_ne_zero nonzero
  have low := lt_of_mem_places (mem_places.mpr set)
  have rest : ∀ p, p ∈ places (word &&& ~~~ mark word.ctz.toNat) ↔
      p ∈ places word ∧ p ≠ word.ctz.toNat := by
    intro p
    by_cases small : p < 64
    · rw [mem_places, mem_places, BitVec.getLsbD_and, BitVec.getLsbD_not, getLsbD_mark small,
        Nat.mod_eq_of_lt low]
      simp [small]
    · simp [mem_places, BitVec.getLsbD_of_ge _ _ (Nat.le_of_not_lt small)]
  refine sorted_places.eq_of_mem_iff (List.pairwise_cons.mpr ⟨fun p mem => ?_, sorted_places⟩) fun p => ?_
  · obtain ⟨mem, other⟩ := (rest p).mp mem
    by_contra high
    have unset := BitVec.getLsbD_false_of_lt_ctz (x := word) (i := p) (by omega)
    rw [mem_places.mp mem] at unset
    cases unset
  · rw [List.mem_cons, rest]
    by_cases here : p = word.ctz.toNat
    · rw [here]
      exact iff_of_true (mem_places.mpr set) (.inl rfl)
    · simp [here]

private theorem cpop_eq (word : BitVec 64) : word.cpop.toNat = (places word).length := by
  have count : ∀ m, word.cpopNatRec m 0 = ((List.range m).filter fun p => word.getLsbD p).length := by
    intro m
    induction m with
    | zero => rfl
    | succ m ih =>
      rw [BitVec.cpopNatRec_succ, BitVec.cpopNatRec_eq, ih, List.range_succ, List.filter_append,
        List.length_append]
      cases digit : word.getLsbD m <;> simp [digit]
  rw [BitVec.toNat_cpop, count]
  rfl

section Visits

variable {σ : Type} (step : σ → Nat → σ × Bool)

def visitUntil : σ → List Nat → σ × Bool
  | state, [] => (state, true)
  | state, k :: rest =>
    match step state k with
    | (state, true) => visitUntil state rest
    | (state, false) => (state, false)

private theorem visitUntil_append (state : σ) (l l' : List Nat) :
    visitUntil step state (l ++ l') =
      match visitUntil step state l with
      | (state, true) => visitUntil step state l'
      | (state, false) => (state, false) := by
  induction l generalizing state with
  | nil => rfl
  | cons k l ih =>
    rw [List.cons_append, visitUntil, visitUntil]
    rcases step state k with ⟨state', _ | _⟩
    · rfl
    · exact ih state'

private theorem visitWord_eq (base digits : Nat) (state : σ) (word : BitVec 64)
    (enough : (places word).length ≤ digits) :
    visitWord step base digits state word =
      visitUntil step state ((places word).map (base + ·)) := by
  induction digits generalizing state word with
  | zero =>
    rw [List.eq_nil_of_length_eq_zero (Nat.le_zero.mp enough)]
    rfl
  | succ digits ih =>
    rw [visitWord]
    by_cases zero : word = 0#64
    · rw [if_pos zero, zero, places_zero]
      rfl
    · rw [if_neg zero]
      rw [places_eq_cons zero] at enough ⊢
      rw [List.map_cons, visitUntil]
      dsimp only
      rcases step state (base + word.ctz.toNat) with ⟨state', _ | _⟩
      · rfl
      · exact ih state' _ (Nat.le_of_succ_le_succ enough)

def members : (index : Nat) → List (BitVec 64) → List Nat
  | _, [] => []
  | index, word :: rest => (places word).map (index * 64 + ·) ++ members (index + 1) rest

private theorem visitWords_eq (index : Nat) (state : σ) (words : List (BitVec 64)) :
    visitWords step index state words = (visitUntil step state (members index words)).1 := by
  induction words generalizing index state with
  | nil => rfl
  | cons word rest ih =>
    have enough : (places word).length ≤ 64 :=
      (List.length_filter_le _ _).trans_eq List.length_range
    rw [visitWords, members, visitUntil_append, visitWord_eq step _ _ _ _ enough]
    rcases visitUntil step state ((places word).map (index * 64 + ·)) with ⟨state', _ | _⟩
    · rfl
    · exact ih (index + 1) state'

end Visits

private theorem mem_members {index : Nat} {words : List (BitVec 64)} :
    n ∈ members index words ↔
      ∃ i word, words[i]? = some word ∧ ∃ p ∈ places word, n = (index + i) * 64 + p := by
  induction words generalizing index with
  | nil => simp [members]
  | cons first rest ih =>
    rw [members, List.mem_append, List.mem_map, ih]
    constructor
    · rintro (⟨p, set, rfl⟩ | ⟨i, word, there, p, set, rfl⟩)
      · exact ⟨0, first, rfl, p, set, rfl⟩
      · exact ⟨i + 1, word, by simpa using there, p, set, by omega⟩
    · rintro ⟨i, word, there, p, set, rfl⟩
      cases i with
      | zero =>
        cases there
        exact .inl ⟨p, set, rfl⟩
      | succ i => exact .inr ⟨i, word, by simpa using there, p, set, by omega⟩

private theorem sorted_members (index : Nat) (words : List (BitVec 64)) :
    (members index words).Pairwise (· < ·) := by
  induction words generalizing index with
  | nil => exact .nil
  | cons word rest ih =>
    refine List.pairwise_append.mpr ⟨?_, ih (index + 1), fun a left b right => ?_⟩
    · exact List.pairwise_map.mpr (sorted_places.imp fun less => Nat.add_lt_add_left less _)
    · -- a later word stands for larger numbers
      obtain ⟨p, set, rfl⟩ := List.mem_map.mp left
      obtain ⟨i, word', -, q, -, rfl⟩ := mem_members.mp right
      have := lt_of_mem_places set
      omega

private theorem toList_eq : s.toList = members 0 s.words.toList := by
  have collect : ∀ (l keys : List Nat),
      (visitUntil (fun keys k => (k :: keys, true)) keys l).1 = l.reverse ++ keys := by
    intro l
    induction l with
    | nil => exact fun keys => rfl
    | cons k l ih =>
      intro keys
      rw [visitUntil, ih, List.reverse_cons, List.append_assoc]
      rfl
  rw [toList, fold, visitWords_eq, collect, List.append_nil, List.reverse_reverse]

theorem fold_eq {σ : Type} (step : σ → Nat → σ × Bool) (init : σ) :
    s.fold step init = (visitUntil step init s.toList).1 := by
  rw [toList_eq]
  exact visitWords_eq step 0 init s.words.toList

theorem mem_toList {n : Nat} : n ∈ s.toList ↔ s.contains n = true := by
  rw [toList_eq, mem_members, contains_natCast, ← mem_places, wordAt]
  simp only [Nat.zero_add, Array.getElem?_toList]
  constructor
  · rintro ⟨i, word, there, p, set, rfl⟩
    have small := lt_of_mem_places set
    rwa [show (i * 64 + p) / 64 = i by omega, show (i * 64 + p) % 64 = p by omega, there]
  · intro set
    cases there : s.words[n / 64]? with
    | none =>
      rw [there, Option.getD_none, places_zero] at set
      cases set
    | some word =>
      rw [there] at set
      exact ⟨n / 64, word, there, n % 64, set, by omega⟩

theorem sorted_toList : s.toList.Pairwise (· < ·) := by
  rw [toList_eq]
  exact sorted_members 0 s.words.toList

theorem nodup_toList : s.toList.Nodup := sorted_toList.imp Nat.ne_of_lt

theorem contains_of_toList_eq_nil (none : s.toList = []) (k : Int) : s.contains k = false := by
  cases k with
  | ofNat n =>
    by_contra mem
    have listed : n ∈ s.toList := mem_toList.mpr (by simpa using mem)
    rw [none] at listed
    cases listed
  | negSucc n => rfl

theorem size_eq : s.size = s.toList.length := by
  have total : ∀ (words : List (BitVec 64)) (index m : Nat),
      words.foldl (fun n word => n + word.cpop.toNat) m = m + (members index words).length := by
    intro words
    induction words with
    | nil => exact fun index m => rfl
    | cons word rest ih =>
      intro index m
      rw [List.foldl_cons, ih (index + 1), members, List.length_append, List.length_map, cpop_eq]
      omega
  rw [size, ← Array.foldl_toList, total _ 0, toList_eq, Nat.zero_add]

def missing (weight : Nat → Nat) (n : Nat) (s : BitSet) : Nat :=
  ∑ k ∈ (Finset.range n).filter (fun k : Nat => ¬ s.contains k = true), weight k

theorem missing_le (weight : Nat → Nat) (n : Nat) (s : BitSet) :
    s.missing weight n ≤ ∑ k ∈ Finset.range n, weight k :=
  Finset.sum_le_sum_of_subset (Finset.filter_subset _ _)

theorem missing_insert (weight : Nat → Nat) {n : Nat} {b : Int} {s s' : BitSet}
    (low : 0 ≤ b) (high : b < n) (new : ¬ s.contains b = true)
    (mem : ∀ j, s'.contains j = true ↔ s.contains j = true ∨ j = b) :
    s'.missing weight n + weight b.toNat = s.missing weight n := by
  obtain ⟨k, rfl⟩ := Int.eq_ofNat_of_zero_le low
  have rest : ((Finset.range n).filter fun j : Nat => ¬ s'.contains j = true) =
      ((Finset.range n).filter fun j : Nat => ¬ s.contains j = true).erase k := by
    ext j
    simp only [Finset.mem_filter, Finset.mem_range, Finset.mem_erase, mem j]
    constructor
    · rintro ⟨low, out⟩
      exact ⟨fun same => out (.inr (by rw [same])), low, fun old => out (.inl old)⟩
    · rintro ⟨other, low, out⟩
      exact ⟨low, fun h => h.elim out fun same => other (by exact_mod_cast same)⟩
  have there : k ∈ (Finset.range n).filter fun j : Nat => ¬ s.contains j = true :=
    Finset.mem_filter.mpr ⟨Finset.mem_range.mpr (by omega), new⟩
  unfold missing
  rw [rest, Int.toNat_natCast]
  exact Finset.sum_erase_add _ _ there

end Predication.BitSet
