import Predication.Proofs.Anatomy

/-!
Steps that go past no bound. A search stops where it would need more steps than it is granted, and no
other step stops in that way. So a conversion never does, and neither does what the analysis does at one
block; the searches themselves have to say how many steps they need.
-/

set_option autoImplicit false
set_option relaxedAutoImplicit false

namespace Predication.Conversion

open Predication.Conversion.Convert

variable {α β : Type}

/-- The step goes past no bound, whatever it starts from, and marks no block as visited. -/
def Finishes (m : Convert α) : Prop :=
  ∀ st, (m.run st).1 ≠ .error .unsettled ∧ (m.run st).2.visited = st.visited

theorem finishes_bind {m : Convert α} {k : α → Convert β} (h : Finishes m)
    (h' : ∀ a, Finishes (k a)) : Finishes (m >>= k) := by
  intro st
  obtain ⟨first, same⟩ := h st
  rw [run_bind]
  rcases run : m.run st with ⟨e | a, mid⟩
  · rw [run] at first same
    refine ⟨?_, same⟩
    rintro ⟨⟩
    exact first rfl
  · rw [run] at same
    exact ⟨(h' a mid).1, (h' a mid).2.trans same⟩

theorem finishes_pure (a : α) : Finishes (pure a : Convert α) := fun _ => ⟨nofun, rfl⟩

theorem finishes_get : Finishes (get : Convert State) := fun _ => ⟨nofun, rfl⟩

private theorem finishes_modify {u : State → State} (h : ∀ st, (u st).visited = st.visited) :
    Finishes (modify u : Convert Unit) := fun st => ⟨nofun, h st⟩

theorem finishes_ofExcept (x : Except Fault α) : Finishes (ofExcept x) := by
  intro st
  cases x with
  | error e => exact ⟨nofun, rfl⟩
  | ok a => exact ⟨nofun, rfl⟩

theorem finishes_query (g : Procedure → Except Fault α) : Finishes (query g) :=
  finishes_bind finishes_get fun _ => finishes_ofExcept _

theorem finishes_setInfo (b : BlockId) (u : Summary → Summary) : Finishes (setInfo b u) :=
  finishes_bind finishes_get fun _ => finishes_bind (finishes_ofExcept _) fun _ =>
    finishes_modify fun _ => rfl

theorem composes_finishes : Composes Finishes where
  bind := finishes_bind
  pure := finishes_pure
  throw e other st := by
    refine ⟨?_, rfl⟩
    rintro ⟨⟩
    exact other rfl
  procedure := finishes_bind finishes_get fun _ => finishes_pure _
  query := finishes_query
  ofExcept := finishes_ofExcept
  info _ := finishes_bind finishes_get fun _ => finishes_ofExcept _
  report _ := finishes_modify fun _ => rfl

private theorem pervasive_finishes : Pervasive Finishes :=
  { composes_finishes with
    edit := fun g => finishes_bind (finishes_query g) fun _ => finishes_modify fun _ => rfl
    editWith := fun g => finishes_bind (finishes_query g) fun _ =>
      finishes_bind (finishes_modify fun _ => rfl) fun _ => finishes_pure _
    setInfo := fun b u _ _ => finishes_setInfo b u }

theorem finishes_tally (u : Stats → Stats) : Finishes (tally u) := finishes_modify fun _ => rfl

private theorem converting_finishes (t : Target) : Converting t Finishes Finishes (fun _ _ => Finishes)
    (fun _ _ => Finishes) (fun _ => Finishes) where
  toPervasive := pervasive_finishes
  made := finishes_pure true
  step := finishes_bind
  guarded := finishes_bind (pervasive_finishes.guardBlock t _ _ _ (finishes_tally _) _)
  copied := finishes_bind (pervasive_finishes.copyBlock t _ _ _ _ (finishes_tally _) _)
  retired h := finishes_bind (pervasive_finishes.retire _) fun _ => h
  looks := composes_finishes
  revisits := pervasive_finishes.revisit
  look := finishes_bind
  agreed := id
  refused := finishes_pure false
  arm {b which _ _} h := by
    refine finishes_bind (composes_finishes.info b) fun head => ?_
    refine finishes_bind (composes_finishes.armsOf head which) fun r => ?_
    obtain ⟨k, same, yes, no⟩ := h head r.1 r.2
    rw [same]
    refine finishes_bind (composes_finishes.isUsable r.1) fun usable => ?_
    cases usable with
    | false => exact no
    | true => exact yes
  arms {b _ _} h := by
    refine finishes_bind (composes_finishes.info b) fun head => ?_
    refine finishes_bind (composes_finishes.info _) fun taken => ?_
    exact finishes_bind (composes_finishes.info _) fun other =>
      h head taken other (some taken.block) fun _ => rfl

theorem finishes_convert (t : Target) (c : Candidate) : Finishes (convert t c) :=
  (converting_finishes t).convert c

section Analysis

variable (s : Setting) (b : BlockId)

theorem finishes_look : Finishes (look s b) := by
  refine finishes_bind (composes_finishes.info b) fun i => ?_
  split
  · exact finishes_pure none
  · refine finishes_bind (finishes_query _) fun j => ?_
    exact finishes_bind (finishes_setInfo b _) fun _ => finishes_pure _

theorem finishes_finish : Finishes (finish s b) := by
  refine finishes_bind (Classifying.classify (P := Finishes) { composes_finishes with
    queued := fun name => finishes_bind finishes_get fun _ => composes_finishes.report _
    enqueue := fun c => ?_ } b) fun _ => finishes_setInfo b _
  unfold enqueue
  split
  · exact finishes_pure ()
  · exact finishes_bind (finishes_modify fun _ => rfl) fun _ => finishes_setInfo _ _

end Analysis

theorem finishes_cleanUp : Finishes cleanUp := by
  refine finishes_bind composes_finishes.procedure fun f => ?_
  refine finishes_bind (finishes_modify fun _ => rfl) fun _ => finishes_bind (finishes_ofExcept _) fun r => ?_
  exact finishes_bind (finishes_modify fun _ => rfl) fun _ => finishes_pure _

end Predication.Conversion
