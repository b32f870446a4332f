import Predication.Proofs.Retirement

/-!
What steps of a conversion leave aside. A change of the state that a step neither sees nor undoes can
as well be made after the step.
-/

set_option autoImplicit false
set_option relaxedAutoImplicit false

namespace Predication.Conversion

namespace Convert

variable {α β : Type} {u : State → State}

def Commutes (u : State → State) (m : Convert α) : Prop :=
  ∀ st, m.run (u st) = ((m.run st).1, u (m.run st).2)

@[grind .] theorem commutes_pure (a : α) : Commutes u (pure a) := fun _ => rfl

@[grind .] theorem commutes_throw (e : Stop) : Commutes u (throw e : Convert α) := fun _ => rfl

@[grind .] theorem commutes_ofExcept (x : Except Fault α) : Commutes u (ofExcept x) := by
  intro st
  cases x <;> rfl

@[grind .] theorem commutes_bind {m : Convert α} {k : α → Convert β} (h : Commutes u m)
    (h' : ∀ a, Commutes u (k a)) : Commutes u (m >>= k) := by
  intro st
  rw [run_bind, run_bind, h st]
  rcases m.run st with ⟨e | a, mid⟩
  · rfl
  · exact h' a mid

theorem commutes_modify {v : State → State} (h : ∀ st, v (u st) = u (v st)) :
    Commutes u (modify v : Convert Unit) := by
  intro st
  change (Except.ok (), v (u st)) = (Except.ok (), u (v st))
  rw [h]

theorem commutes_read {k : State → Convert α} (same : ∀ st, k (u st) = k st)
    (h : ∀ st, Commutes u (k st)) : Commutes u (get >>= k) := by
  intro st
  rw [run_bind, run_bind]
  change (k (u st)).run (u st) = (((k st).run st).1, u ((k st).run st).2)
  rw [same]
  exact h st st

/-- A change of the state that leaves the procedure and the summaries alone, whatever they are, and
goes along with reports. -/
structure Aside (u : State → State) : Prop where
  procedure : ∀ st, (u st).procedure = st.procedure
  infos : ∀ st, (u st).infos = st.infos
  setProcedure : ∀ st f, { u st with procedure := f } = u { st with procedure := f }
  setInfos : ∀ st infos, { u st with infos := infos } = u { st with infos := infos }
  append : ∀ st events, { u st with log := (u st).log ++ events } =
    u { st with log := st.log ++ events }

section Steps

variable (aside : Aside u)

include aside

@[grind .] theorem commutes_procedure : Commutes u procedure :=
  commutes_read (fun st => by simp only [aside.procedure]) fun _ => commutes_pure _

@[grind .] theorem commutes_query (g : Procedure → Except Fault α) :
    Commutes u (query g) :=
  commutes_read (fun st => by simp only [aside.procedure]) fun _ => commutes_ofExcept _

@[grind .] theorem commutes_edit (g : Procedure → Except Fault Procedure) :
    Commutes u (edit g) :=
  commutes_bind (commutes_query aside g) fun f =>
    commutes_modify fun st => aside.setProcedure st f

@[grind .] theorem commutes_editWith (g : Procedure → Except Fault (Procedure × α)) :
    Commutes u (editWith g) :=
  commutes_bind (commutes_query aside g) fun r =>
    commutes_bind (commutes_modify fun st => aside.setProcedure st r.1) fun _ => commutes_pure r.2

@[grind .] theorem commutes_info (b : BlockId) : Commutes u (info b) :=
  commutes_read (fun st => by simp only [aside.infos]) fun _ => commutes_ofExcept _

@[grind .] theorem commutes_infoOf (b : Option BlockId) : Commutes u (infoOf b) :=
  commutes_info aside _

@[grind .] theorem commutes_setInfo (b : BlockId) (g : Summary → Summary) :
    Commutes u (setInfo b g) :=
  commutes_read (fun st => by simp only [aside.infos]) fun _ =>
    commutes_bind (commutes_ofExcept _) fun infos =>
      commutes_modify fun st => aside.setInfos st infos

@[grind .] theorem commutes_report (e : Event) : Commutes u (report e) := by
  refine commutes_modify fun st => ?_
  rw [Array.push_eq_append, Array.push_eq_append]
  exact aside.append st _

theorem composes_commutes : Composes (Commutes u) :=
  ⟨commutes_bind, commutes_pure, fun e _ => commutes_throw e, commutes_procedure aside, commutes_query aside,
    commutes_ofExcept, commutes_info aside, commutes_report aside⟩

theorem pervasive_commutes : Pervasive (Commutes u) :=
  { composes_commutes aside with
    edit := commutes_edit aside
    editWith := commutes_editWith aside
    setInfo := fun b g _ _ => commutes_setInfo aside b g }

end Steps

end Convert

open Predication.Conversion.Convert

theorem commutes_cleanUp {u : State → State} (aside : Aside u) : Commutes u cleanUp := by
  unfold cleanUp
  refine commutes_bind (commutes_procedure aside) fun f => ?_
  refine commutes_bind (commutes_modify fun st => aside.append st _) fun _ => ?_
  refine commutes_bind (commutes_ofExcept _) fun r => ?_
  exact commutes_bind (commutes_modify fun st => aside.setProcedure st r.1) fun _ => commutes_pure r.2

end Predication.Conversion
