import Predication.Conversion.State
import Predication.Proofs.BlockViews

/-!
Successful steps of a conversion. A step that succeeds takes apart into the steps it is made of, and
each of these says what it leaves of the procedure and of the summaries.
-/

set_option autoImplicit false
set_option relaxedAutoImplicit false

namespace Predication.Conversion

/-- The summary of a block; an id that names none stands for one that nothing is known about. -/
def infoAt (infos : Array Summary) (b : BlockId) : Summary :=
  match Arena.get infos b with
  | .ok i => i
  | .error _ => { block := b }

/-- The summary of a block of the state. -/
abbrev State.at (st : State) (b : BlockId) : Summary := infoAt st.infos b

/-- The state in which a new converter starts. -/
def blank (f : Procedure) : State := { procedure := f, infos := #[], stats := {}, log := #[] }

/-- The block is done with. -/
def State.Done (st : State) (x : BlockId) : Prop := (st.at x).done = true

theorem infoAt_eq {infos : Array Summary} {b : BlockId} {i : Summary}
    (h : Arena.get infos b = .ok i) : infoAt infos b = i := by
  simp only [infoAt, h]

theorem infoAt_update {infos infos' : Array Summary} {b : BlockId} {u : Summary → Summary}
    (h : Arena.update infos b u = .ok infos') (c : BlockId) :
    infoAt infos' c = if c = b then u (infoAt infos c) else infoAt infos c := by
  obtain ⟨i, found⟩ := Arena.get_range.mpr (Arena.update_eq_ok.mp h).1
  have view := Arena.get_update h c
  by_cases same : c = b
  · rw [if_pos same] at view ⊢
    rw [same, found] at view
    rw [same, infoAt_eq found]
    exact infoAt_eq view
  · rw [if_neg same] at view ⊢
    unfold infoAt
    rw [view]

namespace Convert

variable {α β : Type} {st st' : State}

/-- The step succeeds with a result and leaves a state. -/
def Yields (m : Convert α) (st : State) (a : α) (st' : State) : Prop := m.run st = (.ok a, st')

theorem run_info (b : BlockId) : (info b).run st =
    match Arena.get st.infos b with
    | .ok i => (.ok i, st)
    | .error e => (.error (.fault e), st) := by
  change (ofExcept (Arena.get st.infos b)).run st = _
  cases Arena.get st.infos b <;> rfl

theorem run_query (g : Procedure → Except Fault α) : (query g).run st =
    match g st.procedure with
    | .ok a => (.ok a, st)
    | .error e => (.error (.fault e), st) := by
  change (ofExcept (g st.procedure)).run st = _
  cases g st.procedure <;> rfl

theorem run_setInfo (b : BlockId) (u : Summary → Summary) : (setInfo b u).run st =
    match Arena.update st.infos b u with
    | .ok infos => (.ok (), { st with infos := infos })
    | .error e => (.error (.fault e), st) := by
  change ((ofExcept (Arena.update st.infos b u) >>= fun infos =>
    modify fun s => { s with infos := infos }) : Convert Unit).run st = _
  rw [run_bind]
  cases Arena.update st.infos b u <;> rfl

theorem yields_bind {m : Convert α} {k : α → Convert β} {b : β} :
    Yields (m >>= k) st b st' ↔ ∃ a mid, Yields m st a mid ∧ Yields (k a) mid b st' :=
  run_bind_ok

theorem yields_pure {a b : α} : Yields (pure a) st b st' ↔ a = b ∧ st = st' := by
  constructor
  · intro h
    cases h
    exact ⟨rfl, rfl⟩
  · rintro ⟨rfl, rfl⟩
    rfl

theorem not_yields_throw {e : Stop} {a : α} : ¬ Yields (throw e) st a st' := by
  intro h
  cases h

theorem yields_get {s : State} : Yields get st s st' ↔ st = s ∧ st = st' := yields_pure

theorem yields_modify {u : State → State} {x : Unit} :
    Yields (modify u) st x st' ↔ st' = u st := by
  constructor
  · intro h
    cases h
    rfl
  · rintro rfl
    rfl

theorem yields_ofExcept {x : Except Fault α} {a : α} :
    Yields (ofExcept x) st a st' ↔ x = .ok a ∧ st = st' := by
  cases x with
  | error e =>
    constructor
    · intro h
      cases h
    · rintro ⟨h, -⟩
      cases h
  | ok x =>
    refine (yields_pure (a := x) (b := a)).trans ?_
    simp

theorem yields_procedure {f : Procedure} :
    Yields procedure st f st' ↔ st.procedure = f ∧ st = st' := yields_pure

theorem yields_query {g : Procedure → Except Fault α} {a : α} :
    Yields (query g) st a st' ↔ g st.procedure = .ok a ∧ st = st' := by
  unfold query
  rw [yields_bind]
  constructor
  · rintro ⟨s, mid, first, h⟩
    obtain ⟨rfl, rfl⟩ := yields_get.mp first
    exact yields_ofExcept.mp h
  · intro h
    exact ⟨st, st, yields_get.mpr ⟨rfl, rfl⟩, yields_ofExcept.mpr h⟩

theorem yields_edit {g : Procedure → Except Fault Procedure} {x : Unit} :
    Yields (edit g) st x st' ↔
      ∃ f, g st.procedure = .ok f ∧ st' = { st with procedure := f } := by
  unfold edit
  rw [yields_bind]
  constructor
  · rintro ⟨f, mid, first, h⟩
    obtain ⟨changed, rfl⟩ := yields_query.mp first
    exact ⟨f, changed, yields_modify.mp h⟩
  · rintro ⟨f, changed, rfl⟩
    exact ⟨f, st, yields_query.mpr ⟨changed, rfl⟩, yields_modify.mpr rfl⟩

theorem yields_editWith {g : Procedure → Except Fault (Procedure × α)} {a : α} :
    Yields (editWith g) st a st' ↔
      ∃ f, g st.procedure = .ok (f, a) ∧ st' = { st with procedure := f } := by
  unfold editWith
  rw [yields_bind]
  constructor
  · rintro ⟨⟨f, b⟩, mid, first, h⟩
    obtain ⟨changed, rfl⟩ := yields_query.mp first
    obtain ⟨x, mid, second, h⟩ := yields_bind.mp h
    obtain rfl := yields_modify.mp second
    obtain ⟨rfl, rfl⟩ := yields_pure.mp h
    exact ⟨f, changed, rfl⟩
  · rintro ⟨f, changed, rfl⟩
    refine ⟨(f, a), st, yields_query.mpr ⟨changed, rfl⟩,
      yields_bind.mpr ⟨(), { st with procedure := f }, yields_modify.mpr rfl, ?_⟩⟩
    exact yields_pure.mpr ⟨rfl, rfl⟩

theorem yields_info {b : BlockId} {i : Summary} (h : Yields (info b) st i st') :
    st.at b = i ∧ st = st' := by
  unfold info at h
  obtain ⟨s, mid, first, h⟩ := yields_bind.mp h
  obtain ⟨rfl, rfl⟩ := yields_get.mp first
  obtain ⟨found, rfl⟩ := yields_ofExcept.mp h
  exact ⟨infoAt_eq found, rfl⟩

theorem yields_setInfo {b : BlockId} {u : Summary → Summary} {x : Unit}
    (h : Yields (setInfo b u) st x st') :
    st'.procedure = st.procedure ∧ st'.queue = st.queue ∧
      ∀ c, st'.at c = if c = b then u (st.at c) else st.at c := by
  unfold setInfo at h
  obtain ⟨s, mid, first, h⟩ := yields_bind.mp h
  obtain ⟨rfl, rfl⟩ := yields_get.mp first
  obtain ⟨infos, mid, second, h⟩ := yields_bind.mp h
  obtain ⟨updated, rfl⟩ := yields_ofExcept.mp second
  obtain rfl := yields_modify.mp h
  exact ⟨rfl, rfl, infoAt_update updated⟩

theorem yields_tally {u : Stats → Stats} {x : Unit} :
    Yields (tally u) st x st' ↔ st' = { st with stats := u st.stats } := yields_modify

theorem not_yields_breach {b : Option BlockId} {i : Option InstId} {reason : Reason} {a : α} :
    ¬ Yields (breach b i reason) st a st' := by
  intro h
  unfold breach at h
  obtain ⟨f, mid, -, h⟩ := yields_bind.mp h
  cases i with
  | none =>
    obtain ⟨x, mid, -, h⟩ := yields_bind.mp h
    exact not_yields_throw h
  | some id =>
    obtain ⟨x, mid, -, h⟩ := yields_bind.mp h
    exact not_yields_throw h

theorem yields_predCount {b : BlockId} {n : Nat} (h : Yields (predCount b) st n st') :
    st.procedure.block b = .ok (st.procedure.blockAt b) ∧
      (st.procedure.blockAt b).preds.length = n ∧ st = st' := by
  unfold predCount at h
  obtain ⟨l, mid, first, h⟩ := yields_bind.mp h
  obtain ⟨asked, rfl⟩ := yields_query.mp first
  obtain ⟨blk, found, same⟩ := bind_ok_iff.mp asked
  obtain ⟨rfl, rfl⟩ := yields_pure.mp h
  cases same
  rw [Procedure.blockAt_eq found]
  exact ⟨found, rfl, rfl⟩

theorem yields_ite {c : Prop} [Decidable c] {m m' : Convert α} {a : α} :
    Yields (if c then m else m') st a st' ↔
      c ∧ Yields m st a st' ∨ ¬ c ∧ Yields m' st a st' := by
  split
  · rename_i h
    simp [h]
  · rename_i h
    simp [h]

theorem yields_of_check (x : Convert Bool) (st : State) (good : State → Bool)
    (h : (match x.run st with | (.ok made, st') => made && good st' | _ => false) = true) :
    ∃ st', Yields x st true st' ∧ good st' = true := by
  rcases run : x.run st with ⟨e | made, st'⟩
  · rw [run] at h
    cases h
  · rw [run] at h
    obtain ⟨rfl, good⟩ := Bool.and_eq_true_iff.mp h
    exact ⟨st', run, good⟩

end Convert

end Predication.Conversion
