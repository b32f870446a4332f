import Predication.Proofs.Outcomes

/-!
Rounds that change nothing. A step of the cleanup that reports no change has found nothing to do in
any block, and a step with nothing to do leaves the procedure as it is. So the last round of a
cleanup was made at a procedure where no step applies.
-/

set_option autoImplicit false
set_option relaxedAutoImplicit false

namespace Predication

variable {α ε : Type}

namespace Traced

private theorem holds_idle {m : Traced ε (α × Bool)} {a : α} {fact : Prop}
    (silent : Holds (fun r => r.2 = false → fact) m) (idle : fact → m = pure (a, false)) :
    Holds (fun r => r.2 = false → r.1 = a ∧ fact) m := by
  intro log r log' run same
  have here := silent log r log' run same
  rw [idle here] at run
  cases run
  exact ⟨rfl, here⟩

end Traced

namespace Cleanup

variable {f : Procedure} {b t x : BlockId} {l : List BlockId} {changed : Bool}

def Barred (f : Procedure) (t : BlockId) : Prop :=
  ∃ target, onlyJump? f t = .ok target ∧ ∀ x ∈ target, x ≠ t →
    ∃ preds, f.preds t = .ok preds ∧ ∀ p ∈ preds, canRedirect f p t x = .ok false

structure AtRest (f : Procedure) : Prop where
  reached : ∀ entry, f.entry? = some entry → unreachable f entry = .ok []
  barred : ∀ t ∈ f.layout, f.isEntry t = false → Barred f t
  merged : ∀ b ∈ f.layout, absorbable? f.isEntry f b = .ok none
  dropped : ∀ b ∈ f.layout, idleJump? f b = .ok none

private theorem removeUnreachable_silent : Traced.Holds (fun r => r.2 = false →
    ∀ entry, f.entry? = some entry → unreachable f entry = .ok []) (removeUnreachable f) := by
  unfold removeUnreachable
  split
  · rename_i none
    apply Traced.Holds.pure
    intro _ entry some
    rw [none] at some
    cases some
  · rename_i entry first
    refine (Traced.holds_outcome _).bind fun lost found => ?_
    refine .after fun _ => .after fun _ => .pure fun empty entry' first' => ?_
    have none : lost = [] := by simpa using empty
    cases first.symm.trans first'
    rw [found, none]

private theorem removeUnreachable_idle
    (reached : ∀ entry, f.entry? = some entry → unreachable f entry = .ok []) :
    removeUnreachable f = pure (f, false) := by
  unfold removeUnreachable
  split
  · rfl
  · rename_i entry first
    rw [reached entry first]
    rfl

private theorem tunnelFrom_silent (l : List BlockId) (changed : Bool) : Traced.Holds
    (fun r => r.2 = false → changed = false ∧ ∀ p ∈ l, canRedirect f p t x = .ok false)
    (tunnelFrom t x l (f, changed)) := by
  induction l generalizing f changed with
  | nil => exact .pure fun same => ⟨same, fun p none => by cases none⟩
  | cons p l ih =>
    rw [tunnelFrom]
    refine (Traced.holds_outcome _).bind fun can found => ?_
    cases can with
    | true =>
      refine .after fun g => .after fun _ => ?_
      intro log r log' run same
      cases (ih true log r log' run same).1
    | false =>
      intro log r log' run same
      obtain ⟨before, rest⟩ := ih changed log r log' run same
      exact ⟨before, List.forall_mem_cons.mpr ⟨found, rest⟩⟩

private theorem tunnelFrom_idle (stuck : ∀ p ∈ l, canRedirect f p t x = .ok false) :
    tunnelFrom t x l (f, changed) = pure (f, changed) := by
  induction l with
  | nil => rfl
  | cons p l ih =>
    rw [tunnelFrom, stuck p List.mem_cons_self]
    exact ih fun q hq => stuck q (List.mem_cons_of_mem p hq)

private theorem tunnelThrough_silent (isEntry : BlockId → Bool) (l : List BlockId) (changed : Bool) :
    Traced.Holds
      (fun r => r.2 = false → changed = false ∧ ∀ t ∈ l, isEntry t = false → Barred f t)
      (tunnelThrough isEntry l (f, changed)) := by
  induction l generalizing f changed with
  | nil => exact .pure fun same => ⟨same, fun t none => by cases none⟩
  | cons t l ih =>
    -- what is said of `t` is added to what is said of the others
    have add : ∀ {m : Traced Event (Procedure × Bool)},
        Traced.Holds (fun r => r.2 = false → changed = false ∧
          ∀ t ∈ l, isEntry t = false → Barred f t) m → (isEntry t = false → Barred f t) →
        Traced.Holds (fun r => r.2 = false → changed = false ∧
          ∀ s ∈ t :: l, isEntry s = false → Barred f s) m := by
      intro m rest here log r log' run same
      obtain ⟨before, others⟩ := rest log r log' run same
      exact ⟨before, List.forall_mem_cons.mpr ⟨here, others⟩⟩
    rw [tunnelThrough]
    split
    · rename_i first
      exact add (ih changed) fun inner => by rw [first] at inner; cases inner
    · refine (Traced.holds_outcome _).bind fun target found => ?_
      split
      · exact add (ih changed) fun _ => ⟨none, found, fun x mem => by cases mem⟩
      · rename_i x
        split
        · rename_i loop
          refine add (ih changed) fun _ => ⟨some x, found, fun y mem other => ?_⟩
          cases mem
          exact absurd loop other
        · refine (Traced.holds_outcome _).bind fun preds entered => ?_
          have through := (tunnelFrom_silent (f := f) (t := t) (x := x) preds changed)
          intro log r log' run same
          obtain ⟨⟨g, again⟩, mid, first, run⟩ := run_bind_ok.mp run
          obtain ⟨rfl, others⟩ := ih again mid r log' run same
          obtain ⟨rfl, stuck⟩ := through log _ mid first rfl
          rw [tunnelFrom_idle stuck] at first
          cases first
          refine ⟨rfl, List.forall_mem_cons.mpr ⟨fun _ => ⟨some x, found, fun y mem _ => ?_⟩, others⟩⟩
          cases mem
          exact ⟨preds, entered, stuck⟩

private theorem tunnelThrough_idle {isEntry : BlockId → Bool}
    (barred : ∀ t ∈ l, isEntry t = false → Barred f t) :
    tunnelThrough isEntry l (f, changed) = pure (f, changed) := by
  induction l with
  | nil => rfl
  | cons t l ih =>
    have rest := ih fun s hs => barred s (List.mem_cons_of_mem t hs)
    rw [tunnelThrough]
    split
    · exact rest
    · rename_i inner
      obtain ⟨target, found, stuck⟩ := barred t List.mem_cons_self (by simpa using inner)
      rw [found]
      cases target with
      | none => exact rest
      | some x =>
        show (if x = t then _ else _) = _
        split
        · exact rest
        · rename_i other
          obtain ⟨preds, entered, stuck⟩ := stuck x rfl other
          rw [entered]
          show (tunnelFrom t x preds (f, changed) >>= _) = _
          rw [tunnelFrom_idle stuck]
          exact rest

private theorem mergeFrom_silent (isEntry : BlockId → Bool) (fuel index : Nat) (changed : Bool) :
    Traced.Holds (fun r => r.2 = false → changed = false ∧
      ∀ b ∈ f.layout.drop index, absorbable? isEntry f b = .ok none)
      (mergeFrom isEntry fuel index (f, changed)) := by
  induction fuel generalizing index f changed with
  | zero => exact .throw _
  | succ fuel ih =>
    rw [mergeFrom]
    split
    · rename_i past
      rw [List.drop_eq_nil_of_le (List.getElem?_eq_none_iff.mp past)]
      exact .pure fun same => ⟨same, fun b none => by cases none⟩
    · rename_i b here
      obtain ⟨low, rfl⟩ := List.getElem?_eq_some_iff.mp here
      refine (Traced.holds_outcome _).bind fun found run => ?_
      cases found with
      | none =>
        intro log r log' rest same
        obtain ⟨before, others⟩ := ih (index + 1) changed log r log' rest same
        rw [List.drop_eq_getElem_cons low]
        exact ⟨before, List.forall_mem_cons.mpr ⟨run, others⟩⟩
      | some step =>
        refine .after fun g => .after fun _ => ?_
        intro log r log' rest same
        cases (ih index true log r log' rest same).1

private theorem mergeFrom_idle {isEntry : BlockId → Bool} {fuel index : Nat}
    (merged : ∀ b ∈ f.layout, absorbable? isEntry f b = .ok none)
    (enough : f.layout.length - index < fuel) :
    mergeFrom isEntry fuel index (f, changed) = pure (f, changed) := by
  induction fuel generalizing index with
  | zero => omega
  | succ fuel ih =>
    rw [mergeFrom]
    split
    · rfl
    · rename_i b here
      have low := (List.getElem?_eq_some_iff.mp here).1
      rw [merged b (List.mem_of_getElem? here)]
      exact ih (by omega)

private theorem tunnel_silent (f : Procedure) : Traced.Holds (fun r => r.2 = false → r.1 = f ∧
    ∀ t ∈ f.layout, f.isEntry t = false → Barred f t) (tunnel f) := by
  refine Traced.holds_idle ?_ tunnelThrough_idle
  intro log r log' run same
  exact (tunnelThrough_silent f.isEntry f.layout false log r log' run same).2

private theorem merge_idle (merged : ∀ b ∈ f.layout, absorbable? f.isEntry f b = .ok none) :
    merge f = pure (f, false) := by
  apply mergeFrom_idle merged
  unfold mergeBound
  omega

private theorem merge_silent (f : Procedure) : Traced.Holds (fun r => r.2 = false → r.1 = f ∧
    ∀ b ∈ f.layout, absorbable? f.isEntry f b = .ok none) (merge f) := by
  refine Traced.holds_idle ?_ merge_idle
  intro log r log' run same
  exact (mergeFrom_silent f.isEntry (mergeBound f + 1) 0 false log r log' run same).2

private theorem dropJumpsOf_silent (l : List BlockId) (changed : Bool) : Holds
    (fun r => r.2 = false → changed = false ∧ ∀ b ∈ l, idleJump? f b = .ok none)
    (dropJumpsOf l (f, changed)) := by
  induction l generalizing f changed with
  | nil => exact .of_ok fun same => ⟨same, fun b none => by cases none⟩
  | cons b l ih =>
    rw [dropJumpsOf]
    refine Holds.bind (P := fun found => idleJump? f b = .ok found) (fun _ => id) fun found run => ?_
    cases found with
    | none =>
      intro r rest same
      obtain ⟨before, others⟩ := ih changed r rest same
      exact ⟨before, List.forall_mem_cons.mpr ⟨run, others⟩⟩
    | some position =>
      refine .after fun g => ?_
      intro r rest same
      cases (ih true r rest same).1

private theorem dropJumpsOf_idle (dropped : ∀ b ∈ l, idleJump? f b = .ok none) :
    dropJumpsOf l (f, changed) = .ok (f, changed) := by
  induction l with
  | nil => rfl
  | cons b l ih =>
    rw [dropJumpsOf, dropped b List.mem_cons_self]
    exact ih fun c hc => dropped c (List.mem_cons_of_mem b hc)

private theorem AtRest.round_eq (rest : AtRest f) : round f = pure (f, false) := by
  unfold round
  rw [removeUnreachable_idle rest.reached]
  show (tunnelThrough f.isEntry f.layout (f, false) >>= _) = _
  rw [tunnelThrough_idle rest.barred]
  show (merge f >>= _) = _
  rw [merge_idle rest.merged]
  show (Traced.ofExcept (dropJumpsOf f.layout (f, false)) >>= _) = _
  rw [dropJumpsOf_idle rest.dropped]
  rfl

private theorem round_silent : Traced.Holds (fun r => r.2 = false → r.1 = f ∧ AtRest f) (round f) := by
  refine Traced.holds_idle ?_ AtRest.round_eq
  unfold round
  refine (Traced.holds_idle removeUnreachable_silent removeUnreachable_idle).bind fun r₁ h₁ => ?_
  refine (tunnel_silent r₁.1).bind fun r₂ h₂ => ?_
  refine (merge_silent r₂.1).bind fun r₃ h₃ => ?_
  refine (Traced.Holds.ofExcept (dropJumpsOf_silent r₃.1.layout false)).bind fun r₄ h₄ => .pure ?_
  intro silent
  simp only [Bool.or_eq_false_iff] at silent
  obtain ⟨⟨⟨removed, tunnelled⟩, merged⟩, dropped⟩ := silent
  obtain ⟨same₁, reached⟩ := h₁ removed
  obtain ⟨same₂, barred⟩ := h₂ tunnelled
  obtain ⟨same₃, stuck⟩ := h₃ merged
  rw [same₃, same₂, same₁] at h₄
  rw [same₂, same₁] at stuck
  rw [same₁] at barred
  exact ⟨reached, barred, stuck, (h₄ dropped).2⟩

/-- The rounds end at a procedure with nothing left to do; it is the one they began at unless they
report a change. -/
theorem roundsFrom_silent (fuel number : Nat) (changed : Bool) :
    Traced.Holds (fun r => AtRest r.1 ∧ (r.2 = false → changed = false ∧ r.1 = f))
      (roundsFrom fuel number (f, changed)) := by
  induction fuel generalizing number f changed with
  | zero => exact .throw _
  | succ fuel ih =>
    unfold roundsFrom
    refine round_silent.bind fun r silent => .after fun _ => ?_
    split
    · intro log r' log' run
      obtain ⟨rest, before⟩ := ih (number + 1) true log r' log' run
      exact ⟨rest, fun same => by cases (before same).1⟩
    · rename_i last
      obtain ⟨same, rest⟩ := silent (by simpa using last)
      refine .pure ?_
      rw [same]
      exact ⟨rest, fun before => ⟨before, rfl⟩⟩

theorem run_silent : Traced.Holds (fun r => r.2 = false → r.1 = f) (run f) := by
  intro log r log' done same
  exact ((roundsFrom_silent (roundBound f) 0 false log r log' done).2 same).2

theorem AtRest.run_returns (rest : AtRest f) : Traced.Returns (run f) (· = (f, false)) := by
  have bound : roundBound f ≠ 0 := by
    unfold roundBound
    exact Nat.mul_ne_zero (Nat.succ_ne_zero _) (Nat.succ_ne_zero _)
  obtain ⟨fuel, more⟩ := Nat.exists_eq_succ_of_ne_zero bound
  unfold run
  rw [more, roundsFrom, rest.round_eq, pure_bind]
  exact (Traced.Returns.report _).bind fun _ _ => .pure rfl

end Cleanup

end Predication
