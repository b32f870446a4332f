import Predication.Conversion.Shape
import Predication.Proofs.GuardedCode

/-!
What conditions mean. A condition is a list of terms, and the converter compares conditions as such
lists. That is as good as comparing what they mean: a conjunction holds where both of its parts do,
the complement of a condition where the condition does not, and a condition follows from one that can
hold at all just where its terms are among the terms of that one.
-/

set_option autoImplicit false
set_option relaxedAutoImplicit false

namespace Predication

variable {v : Reg → Bool} {t u : Term} {a b c own rest : Condition}

/-- The term holds where registers have these values. -/
def Term.Holds (v : Reg → Bool) (t : Term) : Prop := v t.reg ≠ t.negated

private theorem Term.holds_not : t.not.Holds v ↔ ¬ t.Holds v := by
  unfold Holds Term.not
  cases v t.reg <;> cases t.negated <;> simp

namespace Condition

/-- The condition holds where registers have these values. -/
def Holds (v : Reg → Bool) (c : Condition) : Prop := ∀ t ∈ c, t.Holds v

/-- No term stands together with its complement. -/
def Consistent (c : Condition) : Prop := ∀ t ∈ c, t.not ∉ c

instance : Decidable c.Consistent := inferInstanceAs (Decidable (∀ t ∈ c, t.not ∉ c))

private theorem holds_iff_machine {V : Type} (m : Machine V) (file : Reg → V) :
    m.holds file c = true ↔ c.Holds fun r => m.isTrue (file r) := by
  unfold Machine.holds Holds Term.Holds
  simp

private theorem holds_conj_iff : (a.conj b).Holds v ↔ a.Holds v ∧ b.Holds v := by
  unfold Holds
  simp only [mem_conj, or_imp, forall_and]

private theorem nodup_conj (once : a.Nodup) : (a.conj b).Nodup := by
  unfold conj
  induction b generalizing a with
  | nil => exact once
  | cons t b ih =>
    rw [List.foldl_cons]
    apply ih
    split
    · exact once
    · rename_i new
      exact List.nodup_append.mpr ⟨once, List.nodup_singleton t, fun x mem y single => by
        rw [List.mem_singleton.mp single]
        exact fun same => new (same ▸ mem)⟩

private theorem reverse?_eq_some : c.reverse? = some rest ↔ ∃ t, c = [t] ∧ rest = [t.not] := by
  unfold reverse?
  split
  · simp [eq_comm]
  · rename_i other
    simp only [reduceCtorEq, false_iff]
    rintro ⟨t, rfl, -⟩
    exact other t rfl

private theorem holds_reverse? (reversed : c.reverse? = some rest) : rest.Holds v ↔ ¬ c.Holds v := by
  obtain ⟨t, rfl, rfl⟩ := reverse?_eq_some.mp reversed
  simp only [Holds, List.forall_mem_singleton]
  exact Term.holds_not

private theorem subsumes_iff_subset : a.subsumes b = true ↔ a ⊆ b := by
  unfold subsumes
  simp [List.subset_def]

private theorem holds_of_subset (terms : a ⊆ b) (holds : b.Holds v) : a.Holds v :=
  fun t mem => holds t (terms mem)

def separating (b : Condition) (t : Term) : Reg → Bool :=
  fun r => decide ({ t with reg := r } ∈ b) != t.negated

private theorem holds_separating (alike : u.negated = t.negated) : u.Holds (b.separating t) ↔ u ∈ b := by
  have same : ({ t with reg := u.reg } : Term) = u := by
    rw [← alike]
  unfold Term.Holds separating
  rw [same, alike]
  by_cases mem : u ∈ b <;> cases t.negated <;> simp [mem]

private theorem holds_separating_opposite (unlike : u.negated ≠ t.negated) :
    u.Holds (b.separating t) ↔ u.not ∉ b := by
  have alike : u.not.negated = t.negated := by
    unfold Term.not
    cases hu : u.negated <;> cases ht : t.negated <;> simp_all
  rw [← holds_separating (b := b) alike, Term.holds_not, Classical.not_not]

private theorem Consistent.holds_separating (consistent : b.Consistent) (t : Term) :
    b.Holds (b.separating t) := by
  intro u mem
  by_cases alike : u.negated = t.negated
  · exact (Condition.holds_separating alike).mpr mem
  · exact (holds_separating_opposite alike).mpr (consistent u mem)

private theorem Consistent.subset (consistent : b.Consistent) (follows : ∀ v, b.Holds v → a.Holds v) :
    a ⊆ b := by
  intro t mem
  have holds := follows (b.separating t) (consistent.holds_separating t) t mem
  exact (Condition.holds_separating rfl).mp holds

private theorem Consistent.subsumes_iff (consistent : b.Consistent) :
    a.subsumes b = true ↔ ∀ v, b.Holds v → a.Holds v := by
  rw [subsumes_iff_subset]
  constructor
  · intro terms v holds
    exact holds_of_subset terms holds
  · exact consistent.subset

/-- A condition with terms, all of them among those of a complement, is that complement up to
repetitions. -/
private theorem holds_iff_of_subsumes_reverse? (terms : own ≠ []) (reversed : c.reverse? = some rest)
    (subsumes : own.subsumes rest = true) : own.Holds v ↔ ¬ c.Holds v := by
  rw [← holds_reverse? reversed]
  have sub := subsumes_iff_subset.mp subsumes
  obtain ⟨t, -, rfl⟩ := reverse?_eq_some.mp reversed
  obtain ⟨u, mem⟩ := List.exists_mem_of_ne_nil own terms
  have first : t.not ∈ own := List.mem_singleton.mp (sub mem) ▸ mem
  constructor
  · intro holds
    exact holds_of_subset (List.cons_subset.mpr ⟨first, List.nil_subset own⟩) holds
  · exact holds_of_subset sub

end Condition

namespace Conversion

private theorem leaves_of_feasibleTriangle {d : Datapath} {arm : Summary} {reversed : Bool}
    (branches : arm.cond ≠ []) (feasible : feasibleTriangle d.target arm c reversed = true) :
    ∃ own, (if reversed then d.target.reverse? arm.cond else some arm.cond) = some own ∧
      ∀ v, own.Holds v ↔ ¬ c.Holds v := by
  unfold feasibleTriangle at feasible
  rw [Bool.and_eq_true, Bool.or_eq_true, List.isEmpty_iff] at feasible
  have exits := feasible.2.resolve_left branches
  split at exits
  · rename_i own rest ownReversed reversedGuard
    refine ⟨own, ownReversed, fun v => ?_⟩
    have terms : own ≠ [] := by
      cases reversed with
      | false =>
        cases ownReversed
        exact branches
      | true =>
        obtain ⟨t, -, rfl⟩ := Condition.reverse?_eq_some.mp ownReversed
        simp
    exact Condition.holds_iff_of_subsumes_reverse? terms reversedGuard exits
  · cases exits

private theorem execute_branch_of_holds_iff {V : Type} (m : Machine V) {exit : Condition}
    (same : ∀ v, exit.Holds v ↔ c.Holds v) (b : BlockId) (s : Store V) :
    m.execute (.branch exit b) s = if m.holds s.file c then .leave (some b) s else .on s := by
  have holds : m.holds s.file exit = m.holds s.file c := by
    rw [Bool.eq_iff_iff, Condition.holds_iff_machine, Condition.holds_iff_machine]
    exact same _
  rw [← holds]
  rfl

/-- The operations of a machine on conditions do what their meaning asks for, under all values of the
registers. An arm that is feasible and branches on a condition of its own leaves it just where the
guard does not hold, so an exit under the complement of its condition is taken just where the arm is
entered. -/
theorem conditions_exact (d : Datapath) :
    (∀ c x v, (Condition.conj c x).Holds v ↔ c.Holds v ∧ x.Holds v) ∧
      (∀ c x : Condition, c.Nodup → (c.conj x).Nodup) ∧
      (∀ c rest v, d.target.reverse? c = some rest → (rest.Holds v ↔ ¬ c.Holds v)) ∧
      (∀ a b, b.Consistent → (d.target.subsumes a b = true ↔ ∀ v, b.Holds v → a.Holds v)) ∧
      ∀ (arm : Summary) (c : Condition) (triangle reversed : Bool), arm.cond ≠ [] →
        (if triangle then feasibleTriangle d.target arm c reversed
          else feasible d.target arm c) = true →
        ∃ own, (if reversed then d.target.reverse? arm.cond else some arm.cond) = some own ∧
          (∀ v, own.Holds v ↔ ¬ c.Holds v) ∧
          ∀ exit, d.target.reverse? own = some exit →
            ∀ (V : Type) (m : Machine V) (b : BlockId) (s : Store V),
              m.execute (.branch exit b) s =
                if m.holds s.file c then .leave (some b) s else .on s := by
  refine ⟨fun c x v => Condition.holds_conj_iff, fun c x => Condition.nodup_conj,
    fun c rest v => Condition.holds_reverse?, fun a b => Condition.Consistent.subsumes_iff,
    fun arm c triangle reversed branches allowed => ?_⟩
  cases triangle with
  | false =>
    have plain := (Bool.and_eq_true_iff.mp allowed).2
    exact absurd (List.isEmpty_iff.mp plain) branches
  | true =>
    obtain ⟨own, chosen, leaves⟩ := leaves_of_feasibleTriangle branches allowed
    refine ⟨own, chosen, leaves, fun exit reversedOwn V m b s => ?_⟩
    refine execute_branch_of_holds_iff m (fun v => ?_) b s
    rw [Condition.holds_reverse? reversedOwn, leaves v, Classical.not_not]

/-- A guard, its complement said twice, and an arm that comes back there. -/
theorem conditions_exact_twofold :
    let guard : Condition := [⟨1, false⟩]
    let twofold : Condition := [⟨1, true⟩, ⟨1, true⟩]
    let machine := Datapath.standard.target
    (guard.conj twofold).Nodup ∧
      (∀ v, Condition.Holds v [⟨1, true⟩] ↔ ¬ guard.Holds v) ∧
      ¬ (∀ v, Condition.Holds v [⟨1, true⟩, ⟨2, false⟩] → guard.Holds v) ∧
      feasibleTriangle machine { block := 1, cond := twofold } guard false = true ∧
      ∀ v, twofold.Holds v ↔ ¬ guard.Holds v := by
  obtain ⟨-, once, reverse, subsumes, exits⟩ := conditions_exact .standard
  refine ⟨once _ _ (by decide), fun v => reverse _ _ v rfl, ?_, by decide, ?_⟩
  · rw [← subsumes [⟨1, false⟩] [⟨1, true⟩, ⟨2, false⟩] (by decide)]
    decide
  · obtain ⟨own, chosen, leaves, -⟩ :=
      exits { block := 1, cond := [⟨1, true⟩, ⟨1, true⟩] } [⟨1, false⟩] true false (by decide)
        (by decide)
    cases chosen
    exact leaves

end Conversion

end Predication
