import Mathlib.Data.Set.Card
import Predication.Proofs.BitSets

/-!
Dense sets against their history. After any sequence of changes the set has the numbers that were put
in since it was last reset, and everything that can be asked of it agrees with that: membership, the
answer of an addition, the count, the list, and the keys that a visit meets.
-/

set_option autoImplicit false
set_option relaxedAutoImplicit false

namespace Predication.BitSet

/-- A change to a set. -/
inductive Change where
  | set (n : Nat)
  | add (n : Nat)
  | reset
  deriving DecidableEq, Repr

namespace Change

/-- Makes a change. What an addition answers is left out. -/
def apply (s : BitSet) : Change → Except Fault BitSet
  | set n => s.insert n
  | add n => do return (← s.insertNew n).1
  | reset => .ok s.reset

def Puts (n : Nat) (c : Change) : Prop := c = set n ∨ c = add n

end Change

open Change

/-- Makes changes one after the other, from the empty set on. -/
def replay (history : List Change) : Except Fault BitSet := history.foldlM Change.apply empty

/-- The number was put in, and the set was not reset since. -/
def Present (history : List Change) (n : Nat) : Prop :=
  ∃ before c after, history = before ++ c :: after ∧ c.Puts n ∧ Change.reset ∉ after

section Present

variable {history : List Change} {n : Nat} {c : Change}

private theorem not_present_nil : ¬ Present [] n := by
  rintro ⟨before, c, after, split, -⟩
  cases before <;> cases split

/-- A number is present after one more change if the change puts it in, or if it was present and the
change is no reset. -/
private theorem present_concat :
    Present (history ++ [c]) n ↔ c.Puts n ∨ Present history n ∧ c ≠ .reset := by
  constructor
  · rintro ⟨before, d, after, split, puts, kept⟩
    rcases List.eq_nil_or_concat after with rfl | ⟨after, e, rfl⟩
    · obtain ⟨-, same⟩ := List.append_inj' split rfl
      cases same
      exact .inl puts
    · rw [List.concat_eq_append, ← List.cons_append, ← List.append_assoc] at split
      obtain ⟨rfl, same⟩ := List.append_inj' split rfl
      cases same
      rw [List.concat_eq_append, List.mem_append, not_or] at kept
      refine .inr ⟨⟨before, d, after, rfl, puts, kept.1⟩, ?_⟩
      rintro rfl
      exact kept.2 (List.mem_singleton_self _)
  · rintro (puts | ⟨⟨before, d, after, rfl, puts, kept⟩, other⟩)
    · exact ⟨history, c, [], rfl, puts, List.not_mem_nil⟩
    · refine ⟨before, d, after ++ [c], by simp, puts, ?_⟩
      rw [List.mem_append, List.mem_singleton, not_or]
      exact ⟨kept, Ne.symm other⟩

end Present

def Has (s : BitSet) (member : Nat → Prop) : Prop :=
  ∀ k : Int, s.contains k = true ↔ ∃ n : Nat, k = n ∧ member n

section Has

variable {s : BitSet} {member : Nat → Prop} {n : Nat}

private theorem Has.natCast (h : s.Has member) : s.contains n = true ↔ member n := by
  rw [h]
  constructor
  · rintro ⟨m, same, mem⟩
    rwa [Int.natCast_inj.mp same]
  · exact fun mem => ⟨n, rfl, mem⟩

private theorem Has.put {s' : BitSet} (h : s.Has member)
    (added : ∀ j, s'.contains j = true ↔ s.contains j = true ∨ j = n) :
    s'.Has fun m => m = n ∨ member m := by
  intro k
  rw [added, h]
  constructor
  · rintro (⟨m, rfl, mem⟩ | rfl)
    · exact ⟨m, rfl, .inr mem⟩
    · exact ⟨n, rfl, .inl rfl⟩
  · rintro ⟨m, rfl, rfl | mem⟩
    · exact .inr rfl
    · exact .inl ⟨m, rfl, mem⟩

private theorem Has.add (h : s.Has member) (n : Nat) :
    ∃ s' new, s.insertNew n = .ok (s', new) ∧ (new = true ↔ ¬ member n) ∧
      s'.Has fun m => m = n ∨ member m := by
  by_cases old : s.contains n = true
  · have mem := h.natCast.mp old
    refine ⟨s, false, insertNew_old old, iff_of_false (by simp) (not_not_intro mem), h.put fun j => ?_⟩
    constructor
    · exact .inl
    · rintro (there | rfl)
      · exact there
      · exact old
  · obtain ⟨s', run, added⟩ := insertNew_new (Int.natCast_nonneg n) old
    exact ⟨s', true, run, iff_of_true rfl fun mem => old (h.natCast.mpr mem), h.put added⟩

/-- A change keeps the members in step with the history. -/
private theorem Has.change {history : List Change} (h : s.Has (Present history)) (c : Change) :
    Gives (c.apply s) fun s' => s'.Has (Present (history ++ [c])) := by
  have now : ∀ m, (Puts m c ∨ Present history m ∧ c ≠ .reset) ↔ Present (history ++ [c]) m :=
    fun m => present_concat.symm
  have put : ∀ {s' : BitSet} {n : Nat}, c = .set n ∨ c = .add n →
      (s'.Has fun m => m = n ∨ Present history m) → s'.Has (Present (history ++ [c])) := by
    intro s' n kind has k
    rw [has]
    refine exists_congr fun m => and_congr_right fun _ => ?_
    rw [← now, Change.Puts]
    rcases kind with rfl | rfl <;> simp [eq_comm]
  cases c with
  | set n =>
    exact (insert_gives (Int.natCast_nonneg n)).imp fun s' added => put (.inl rfl) (h.put added)
  | add n =>
    obtain ⟨s', new, run, -, has⟩ := h.add n
    exact .of_run run (.of_ok (put (.inr rfl) has))
  | reset =>
    refine .of_ok fun k => ?_
    rw [reset_eq, contains_empty]
    refine iff_of_false (by simp) ?_
    rintro ⟨m, -, present⟩
    rcases (now m).mpr present with (puts | puts) | ⟨-, other⟩
    · cases puts
    · cases puts
    · exact other rfl

private theorem replay_gives (history : List Change) :
    Gives (replay history) fun s => s.Has (Present history) := by
  induction history using List.reverseRecOn with
  | nil =>
    refine .of_ok fun k => ?_
    rw [contains_empty]
    refine iff_of_false (by simp) ?_
    rintro ⟨n, -, present⟩
    exact not_present_nil present
  | append_singleton history c ih =>
    unfold replay at ih ⊢
    rw [List.foldlM_append]
    refine ih.bind fun s has => ?_
    rw [List.foldlM_cons]
    exact (has.change c).bind fun s' has' => .of_ok has'

end Has

section Visits

variable {σ : Type} (step : σ → Nat → σ × Bool)

def stateAfter (init : σ) (keys : List Nat) : σ := keys.foldl (fun state k => (step state k).1) init

def wantsMore (init : σ) (before : List Nat) (k : Nat) : Bool := (step (stateAfter step init before) k).2

/-- The keys `visited` are a front of the list that ends at the first key at which the step does not
want to go on, or with the list. -/
structure Meets (init : σ) (keys visited : List Nat) : Prop where
  front : visited <+: keys
  goesOn : ∀ before k after, visited = before ++ k :: after → after ≠ [] →
    wantsMore step init before k = true
  stops : visited ≠ keys → ∃ before k, visited = before ++ [k] ∧ wantsMore step init before k = false

variable {step}

private theorem Meets.none (init : σ) : Meets step init [] [] :=
  ⟨List.prefix_rfl, fun before k after split => by simp at split, fun other => absurd rfl other⟩

private theorem Meets.one {init : σ} {k : Nat} (rest : List Nat) (stop : (step init k).2 = false) :
    Meets step init (k :: rest) [k] := by
  refine ⟨⟨rest, rfl⟩, fun before j after split more => ?_, fun _ => ⟨[], k, rfl, stop⟩⟩
  cases before with
  | nil =>
    cases split
    exact absurd rfl more
  | cons i before =>
    have := congrArg List.length split
    simp at this

private theorem Meets.cons {init : σ} {k : Nat} {rest visited : List Nat} (more : (step init k).2 = true)
    (h : Meets step (step init k).1 rest visited) : Meets step init (k :: rest) (k :: visited) := by
  refine ⟨List.cons_prefix_cons.mpr ⟨rfl, h.front⟩, fun before j after split others => ?_, fun other => ?_⟩
  · cases before with
    | nil =>
      cases split
      exact more
    | cons i before =>
      obtain ⟨rfl, tail⟩ := List.cons.inj split
      exact h.goesOn before j after tail others
  · obtain ⟨before, j, split, stop⟩ := h.stops fun same => other (by rw [same])
    exact ⟨k :: before, j, by rw [split]; rfl, stop⟩

private theorem visitUntil_meets (init : σ) (keys : List Nat) : ∃ visited,
    (visitUntil step init keys).1 = stateAfter step init visited ∧ Meets step init keys visited := by
  induction keys generalizing init with
  | nil => exact ⟨[], rfl, .none init⟩
  | cons k rest ih =>
    rw [visitUntil]
    obtain ⟨visited, run, meets⟩ := ih (step init k).1
    cases answer : step init k with
    | mk state more =>
      have state_eq : (step init k).1 = state := by rw [answer]
      have more_eq : (step init k).2 = more := by rw [answer]
      cases more with
      | false =>
        refine ⟨[k], ?_, .one rest more_eq⟩
        exact state_eq.symm
      | true =>
        refine ⟨k :: visited, ?_, .cons more_eq meets⟩
        rw [state_eq] at run
        rw [run, stateAfter, stateAfter, List.foldl_cons, state_eq]

end Visits

/-- All that can be asked of the set agrees with its members being the numbers with a property. -/
structure Answers (s : BitSet) (member : Nat → Prop) : Prop where
  contains : ∀ k : Int, s.contains k = true ↔ ∃ n : Nat, k = n ∧ member n
  add : ∀ n : Nat, ∃ s' new, s.insertNew n = .ok (s', new) ∧ (new = true ↔ ¬ member n)
  finite : {n | member n}.Finite
  size : s.size = {n | member n}.ncard
  listed : ∀ n, n ∈ s.toList ↔ member n
  ascending : s.toList.Pairwise (· < ·)
  visits : ∀ (σ : Type) (step : σ → Nat → σ × Bool) (init : σ), ∃ visited,
    s.fold step init = stateAfter step init visited ∧ Meets step init s.toList visited

private theorem Has.answers {s : BitSet} {member : Nat → Prop} (h : s.Has member) : s.Answers member := by
  have listed : ∀ n, n ∈ s.toList ↔ member n := fun n => mem_toList.trans h.natCast
  have all : {n | member n} = ↑s.toList.toFinset := by
    ext n
    rw [Finset.mem_coe, List.mem_toFinset, listed]
    rfl
  refine ⟨h, fun n => ?_, ?_, ?_, listed, sorted_toList, fun σ step init => ?_⟩
  · obtain ⟨s', new, run, answer, -⟩ := h.add n
    exact ⟨s', new, run, answer⟩
  · rw [all]
    exact Finset.finite_toSet _
  · rw [all, Set.ncard_coe_finset, List.toFinset_card_of_nodup nodup_toList, size_eq]
  · rw [fold_eq]
    exact visitUntil_meets init s.toList

/-- After any history the set answers as the finite set of the numbers that were put in since the
last reset. -/
theorem replay_answers (history : List Change) :
    ∃ s, replay history = .ok s ∧ s.Answers (Present history) := by
  obtain ⟨s, run, has⟩ := replay_gives history
  exact ⟨s, run, has.answers⟩

example : (replay [.set 130, .reset, .add 64, .set 3, .add 64]).map toList = .ok [3, 64] := by
  decide +kernel

end Predication.BitSet
