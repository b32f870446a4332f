import Predication.Proofs.BitSets
import Predication.Proofs.CodeSteps
import Predication.Proofs.Endings
import Predication.Proofs.GuardedCode
import Predication.Proofs.Scanning

/-!
Guarding the code of a block. A summary lets code through only where nothing is executed behind the
setting of a predicate, guarding narrows one instruction after the other, and so a block that was let
through runs under its condition as a whole or not at all.
-/

set_option autoImplicit false
set_option relaxedAutoImplicit false

namespace Predication

open Procedure

namespace Summary

variable {d : Datapath} {f : Procedure} {i j : Summary} {b : BlockId}

theorem scanCode_found {code : List InstId} (h : scanCode d.target f code i = .ok j)
    (free : j.unguardable = false) : ∀ id ∈ code, ∃ x, f.inst id = .ok x := by
  induction code generalizing i with
  | nil => exact fun id mem => absurd mem List.not_mem_nil
  | cons id code ih =>
    obtain ⟨x, found, ⟨-, stuck⟩ | ⟨i', -, h⟩⟩ := scanCode_cases h
    · exact absurd (stuck.symm.trans free) (by simp)
    · exact List.forall_mem_cons.mpr ⟨⟨x, found⟩, ih h⟩

/-- Code that is looked at up to its branches can be guarded, and nothing of it is executed once a
predicate is set: neither here nor, in a block that nobody guarded, before. -/
theorem scanCode_closing {front back : List InstId}
    (h : scanCode d.target f (front ++ back) i = .ok j) (free : j.unguardable = false)
    (inner : ∀ x ∈ front.filterMap f.inst?, x.op.isTerminator = false) :
    (∀ x ∈ front.filterMap f.inst?, x.op.isDebug = false →
        d.isGuardable x = true ∨ x.op = .copy ∨ x.op = .undef) ∧
      Closing d (front.filterMap f.inst?) ∧
      (i.guard = [] → i.clobbers = true → ∀ x ∈ front.filterMap f.inst?, x.op.isDebug = true) := by
  induction front generalizing i with
  | nil => exact ⟨by simp, List.Pairwise.nil, by simp⟩
  | cons id front ih =>
    obtain ⟨x, found, ⟨-, stuck⟩ | ⟨i', looks, h⟩⟩ := scanCode_cases h
    · exact absurd (stuck.symm.trans free) (by simp)
    rw [List.filterMap_cons_some (inst?_eq_some.mpr found)] at inner ⊢
    rw [List.forall_mem_cons] at inner
    obtain ⟨able, closing, after⟩ := ih h inner.2
    rw [looks.guard] at after
    refine ⟨List.forall_mem_cons.mpr ⟨fun live => looks.able live inner.1, able⟩,
      List.pairwise_cons.mpr ⟨fun y mem live sets => ?_, closing⟩, fun none clobbers => ?_⟩
    · obtain ⟨none, clobbers⟩ := looks.sets live inner.1 sets
      exact after none clobbers y mem
    · cases live : x.op.isDebug with
      | true =>
        rw [looks.debug live] at after
        exact List.forall_mem_cons.mpr ⟨live, after none clobbers⟩
      | false => exact absurd clobbers (by simp [looks.intact live inner.1 none])

private theorem scan_accepts {g : Procedure} {n : Nat} (fresh : i.done = false)
    (scanned : i.scan d.target f = .ok j) (free : j.unguardable = false)
    (removed : d.target.removeBranch f i.block = .ok (g, n))
    (inner : ∀ x ∈ g.instsAt i.block, x.op.isTerminator = false) :
    g.block i.block = .ok (g.blockAt i.block) ∧
      (∀ id ∈ (g.blockAt i.block).code, ∃ x, g.inst id = .ok x) ∧
      (∀ x ∈ g.instsAt i.block, x.op.isDebug = false →
        d.isGuardable x = true ∨ x.op = .copy ∨ x.op = .undef) ∧
      Closing d (g.instsAt i.block) := by
  obtain ⟨-, -, -, stuck | ⟨i', read⟩⟩ := scan_cases fresh scanned
  · exact absurd (stuck.symm.trans free) (by simp)
  have found := scanCode_found read free
  obtain ⟨block, front, ⟨back, code⟩, rfl, -⟩ := Datapath.removeBranch_ok (fun id mem => by
    obtain ⟨x, hx⟩ := found id mem
    exact ⟨x.role, roleAt_of_inst hx⟩) removed
  have here : ((f.setCode i.block front).blockAt i.block).code = front := by
    rw [code_setCode block, if_pos rfl]
  have insts : (f.setCode i.block front).inst? = f.inst? := by
    funext id
    rw [inst?, inst?, inst_setCode]
  have there : (f.setCode i.block front).block i.block =
      .ok ((f.setCode i.block front).blockAt i.block) := by
    have there := block_mapBlock_ok (u := fun x => { x with code := front }) (b := i.block) block
    rw [Procedure.setCode, blockAt_eq there]
    exact there
  unfold Procedure.instsAt at inner ⊢
  rw [here, insts] at inner ⊢
  obtain ⟨able, closing, -⟩ := scanCode_closing (code ▸ read) free inner
  refine ⟨there, fun id mem => ?_, able, closing⟩
  rw [inst_setCode]
  exact found id (code ▸ List.mem_append_left back mem)

end Summary

namespace Procedure

variable {d : Datapath} {f g k : Procedure} {c : Condition} {x y z : Inst} {id : InstId}

structure Narrowed (d : Datapath) (c : Condition) (ids : List InstId) (f g : Procedure) : Prop where
  blocks : g.blocks = f.blocks
  regs : g.regs = f.regs
  inst : ∀ j x, f.inst j = .ok x →
    ∃ y, g.inst j = .ok y ∧ (j ∈ ids → Narrows d f c x y) ∧ (j ∉ ids → y = x)
  old : ∀ j y, g.inst j = .ok y → ∃ x, f.inst j = .ok x

private theorem Narrowed.nil (f : Procedure) : Narrowed d c [] f f :=
  ⟨rfl, rfl, fun _ x found => ⟨x, found, by simp, by simp⟩, fun _ y found => ⟨y, found⟩⟩

private theorem Replaces.narrowed (h : Replaces id y f g) (found : f.inst id = .ok x)
    (narrows : Narrows d f c x y) : Narrowed d c [id] f g where
  blocks := h.blocks
  regs := h.regs
  inst j z there := by
    rw [h.inst]
    by_cases here : j = id
    · cases (here ▸ there).symm.trans found
      exact ⟨y, if_pos here, fun _ => narrows, by simp [here]⟩
    · exact ⟨z, by rw [if_neg here, there], by simp [here], fun _ => rfl⟩
  old j z there := by
    rw [h.inst] at there
    split at there
    · rename_i here
      exact ⟨x, here ▸ found⟩
    · exact ⟨z, there⟩

private theorem Narrowed.cons {ids : List InstId} (h : Narrowed d c [id] f g) (h' : Narrowed d c ids g k) :
    Narrowed d c (id :: ids) f k where
  blocks := h'.blocks.trans h.blocks
  regs := h'.regs.trans h.regs
  inst j x found := by
    obtain ⟨y, found', first, away⟩ := h.inst j x found
    obtain ⟨z, found'', rest, away'⟩ := h'.inst j y found'
    rw [List.mem_singleton] at first away
    refine ⟨z, found'', fun mem => ?_, fun new => ?_⟩
    · by_cases here : j = id
      · by_cases later : j ∈ ids
        · exact (first here).trans ((rest later).congr h.regs)
        · rw [away' later]
          exact first here
      · rw [← away here]
        exact (rest ((List.mem_cons.mp mem).resolve_left here)).congr h.regs
    · rw [List.mem_cons, not_or] at new
      rw [away' new.2, away new.1]
  old j z found := by
    obtain ⟨y, found⟩ := h'.old j z found
    exact h.old j y found

theorem forall₂_insts {R : Inst → Inst → Prop} {code : List InstId}
    (each : ∀ i ∈ code, ∃ x y, f.inst i = .ok x ∧ g.inst i = .ok y ∧ R x y) :
    List.Forall₂ R (code.filterMap f.inst?) (code.filterMap g.inst?) := by
  induction code with
  | nil => exact .nil
  | cons i code ih =>
    obtain ⟨⟨x, y, hx, hy, related⟩, later⟩ := List.forall_mem_cons.mp each
    rw [List.filterMap_cons_some (inst?_eq_some.mpr hx), List.filterMap_cons_some (inst?_eq_some.mpr hy)]
    exact .cons related (ih later)

private theorem Narrowed.instsAt {b : BlockId} (h : Narrowed d c (f.blockAt b).code f g)
    (found : ∀ i ∈ (f.blockAt b).code, ∃ x, f.inst i = .ok x) :
    List.Forall₂ (Narrows d f c) (f.instsAt b) (g.instsAt b) := by
  unfold Procedure.instsAt
  rw [blockAt_congr h.blocks]
  refine forall₂_insts fun i mem => ?_
  obtain ⟨x, hx⟩ := found i mem
  obtain ⟨y, hy, narrows, -⟩ := h.inst i x hx
  exact ⟨x, y, hx, hy, narrows mem⟩

end Procedure

namespace Conversion

open Predication.Conversion.Convert

variable {d : Datapath} {st st' : State} {b : BlockId} {c : Condition} {id : InstId} {x y : Inst}
  {valued valued' : BitSet} {u : Unit}

private theorem GuardsInst.narrows (h : GuardsInst d c x y) (defined : x.op ≠ .undef) (f : Procedure) :
    Narrows d f c x y := by
  cases h with
  | undef op => exact absurd op defined
  | select r v op defs uses => exact narrows_select op defs uses
  | guard able tests => exact narrows_guard x

private theorem GuardsInst.defs (h : GuardsInst d c x y) : y.defs = x.defs := by cases h <;> rfl

private theorem guardOne_replaces (found : st.procedure.inst id = .ok x) (defined : x.op ≠ .undef)
    {mid : State} (first : Yields (guardInst d.target b id c) st u mid)
    (second : Yields (noteGuarded d.target valued id) mid valued' st') :
    ∃ g y, st' = { st with procedure := g } ∧ Replaces id y st.procedure g ∧
      Narrows d st.procedure c x y := by
  obtain ⟨g, y, rfl, step, guards⟩ := guardInst_ok found first
  obtain ⟨y', k, implicits, found', rfl, note⟩ := noteGuarded_ok second
  cases step.here.symm.trans found'
  exact ⟨k, _, rfl, step.trans note, (guards.narrows defined _).implicits implicits⟩

private theorem guardCode_narrows {ids : List InstId}
    (defined : ∀ i ∈ ids, ∀ x, st.procedure.inst i = .ok x → x.op ≠ .undef)
    (h : Yields (guardCode d.target b c ids valued) st valued' st') :
    ∃ g, st' = { st with procedure := g } ∧ Narrowed d c ids st.procedure g := by
  induction ids generalizing st valued with
  | nil =>
    obtain ⟨-, rfl⟩ := yields_pure.mp h
    exact ⟨_, rfl, .nil _⟩
  | cons i ids ih =>
    unfold guardCode at h
    obtain ⟨x, mid, first, h⟩ := yields_bind.mp h
    obtain ⟨found, rfl⟩ := yields_query.mp first
    obtain ⟨here, later⟩ := List.forall_mem_cons.mp defined
    rcases yields_ite.mp h with ⟨debug, h⟩ | ⟨-, h⟩
    · obtain ⟨g, rfl, rest⟩ := ih later h
      have stays : Replaces i x st.procedure st.procedure := .refl found
      exact ⟨g, rfl, (stays.narrowed found (narrows_debug debug)).cons rest⟩
    · obtain ⟨u, mid, second, h⟩ := yields_bind.mp h
      obtain ⟨valued'', mid', third, h⟩ := yields_bind.mp h
      obtain ⟨f', y, rfl, step, narrows⟩ := guardOne_replaces found (here x found) second third
      obtain ⟨g, rfl, rest⟩ := ih (fun j hj z hz => by
        rw [step.inst] at hz
        split at hz
        · cases hz
          exact narrows.defined (here x found)
        · exact later j hj z hz) h
      exact ⟨g, rfl, (step.narrowed found narrows).cons rest⟩

structure Admissible (d : Datapath) (x : Inst) : Prop where
  defined : x.op ≠ .undef
  able : x.op.isDebug = false → d.isGuardable x = true ∨ x.op = .copy
  copy : x.op = .copy → ∃ r v, x.defs = [r] ∧ x.uses = [v]
  low : ∀ r ∈ x.defs, 0 ≤ r

def Succeeds {α : Type} (m : Convert α) (st : State) : Prop := ∃ a st', Yields m st a st'

private theorem Succeeds.bind {α β : Type} {m : Convert α} {k : α → Convert β} (a : α) {mid : State}
    (first : Yields m st a mid) (rest : Succeeds (k a) mid) : Succeeds (m >>= k) st := by
  obtain ⟨v, st', rest⟩ := rest
  exact ⟨v, st', yields_bind.mpr ⟨a, mid, first, rest⟩⟩

private theorem guardInst_returns (found : st.procedure.inst id = .ok x) (can : Admissible d x)
    (real : x.op.isDebug = false) (tests : c ≠ []) : Succeeds (guardInst d.target b id c) st := by
  unfold guardInst
  refine .bind x (yields_query.mpr ⟨found, rfl⟩) ?_
  split
  · rename_i undef
    exact absurd undef can.defined
  · rename_i copy
    obtain ⟨r, v, defs, uses⟩ := can.copy copy
    obtain ⟨g, updated, -⟩ := updateInst_gives found fun x : Inst =>
      { x with op := .sel, cond := c, uses := [v, .reg r] }
    simp only [defs, uses]
    exact .bind () (yields_edit.mpr ⟨g, updated, rfl⟩) ⟨(), _, yields_edit.mpr ⟨_, rfl, rfl⟩⟩
  · rename_i copy
    have able : d.target.guard? x c = some { x with guard := x.guard.conj c } := by
      change d.guard? x c = _
      rw [Datapath.guard?, if_pos]
      simpa [tests] using (can.able real).resolve_right copy
    obtain ⟨g, updated, -⟩ := updateInst_gives found fun _ => { x with guard := x.guard.conj c }
    simp only [able]
    exact ⟨(), _, yields_edit.mpr ⟨g, updated, rfl⟩⟩

private theorem noteDefs_returns (guarded : Bool) {l : List Reg} (low : ∀ r ∈ l, 0 ≤ r)
    (state : BitSet × List Reg) : ∃ state', noteDefs guarded l state = .ok state' := by
  induction l generalizing state with
  | nil => exact ⟨state, rfl⟩
  | cons r l ih =>
    obtain ⟨valued, implicits⟩ := state
    obtain ⟨here, later⟩ := List.forall_mem_cons.mp low
    obtain ⟨valued', added, -⟩ := BitSet.insert_gives (s := valued) here
    rw [noteDefs, added]
    exact ih later _

private theorem noteGuarded_returns (found : st.procedure.inst id = .ok y) (low : ∀ r ∈ y.defs, 0 ≤ r) :
    Succeeds (noteGuarded d.target valued id) st := by
  have all : ∀ r ∈ allDefs d.target st.procedure y, 0 ≤ r := by
    intro r mem
    rcases List.mem_append.mp mem with mem | mem
    · exact low r mem
    · obtain ⟨name, -, reg⟩ := List.mem_filterMap.mp mem
      obtain ⟨n, -, rfl⟩ := Option.map_eq_some_iff.mp reg
      exact Int.natCast_nonneg n
  obtain ⟨⟨valued', implicits⟩, noted⟩ := noteDefs_returns y.isGuarded all (valued, y.implicits)
  obtain ⟨g, updated, -⟩ := updateInst_gives found fun x : Inst => { x with implicits := implicits }
  unfold noteGuarded
  refine .bind y (yields_query.mpr ⟨found, rfl⟩) (.bind _ (yields_procedure.mpr ⟨rfl, rfl⟩) ?_)
  refine .bind _ (yields_ofExcept.mpr ⟨noted, rfl⟩) (.bind () (yields_edit.mpr ⟨g, updated, rfl⟩) ?_)
  exact ⟨valued', _, yields_pure.mpr ⟨rfl, rfl⟩⟩

private theorem guardCode_returns {ids : List InstId} (nodup : ids.Nodup) (tests : c ≠ [])
    (can : ∀ i ∈ ids, ∃ x, st.procedure.inst i = .ok x ∧ Admissible d x) :
    Succeeds (guardCode d.target b c ids valued) st := by
  induction ids generalizing st valued with
  | nil => exact ⟨valued, st, yields_pure.mpr ⟨rfl, rfl⟩⟩
  | cons i ids ih =>
    obtain ⟨new, nodup⟩ := List.nodup_cons.mp nodup
    obtain ⟨⟨x, found, able⟩, later⟩ := List.forall_mem_cons.mp can
    unfold guardCode
    refine .bind x (yields_query.mpr ⟨found, rfl⟩) ?_
    cases debug : x.op.isDebug with
    | true => exact ih nodup later
    | false =>
      obtain ⟨u, mid, first⟩ := guardInst_returns (b := b) found able debug tests
      obtain ⟨g, y, rfl, step, guards⟩ := guardInst_ok found first
      have noted : Succeeds (noteGuarded d.target valued i) { st with procedure := g } :=
        noteGuarded_returns step.here (guards.defs ▸ able.low)
      obtain ⟨valued', mid, second⟩ := noted
      obtain ⟨y', k, implicits, -, rfl, note⟩ := noteGuarded_ok second
      refine .bind () first (.bind valued' second (ih nodup fun j hj => ?_))
      obtain ⟨z, there, able'⟩ := later j hj
      have other : j ≠ i := fun here => new (here ▸ hj)
      exact ⟨z, by rw [(step.trans note).inst, if_neg other, there], able'⟩

theorem guardBlock_upTo {stop : Int} (defined : ∀ x ∈ st.procedure.instsAt b, x.op ≠ .undef)
    (h : Yields (guardBlock d.target b stop c valued) st valued' st') :
    Narrowed d c ((st.procedure.blockAt b).code.take stop.toNat) st.procedure st'.procedure := by
  obtain ⟨mid, mid', guards, noted, rfl⟩ := guardBlock_ok h
  obtain ⟨g, rfl, narrowed⟩ := guardCode_narrows
    (fun i hi x found => defined x (mem_instsAt.mpr ⟨i, List.mem_of_mem_take hi, found⟩)) guards
  change Narrowed d c _ st.procedure mid'.procedure
  rw [(yields_setInfo noted).1]
  exact narrowed

theorem guardBlock_narrows
    (defined : ∀ x ∈ st.procedure.instsAt b, x.op ≠ .undef)
    (h : Yields (guardBlock d.target b (st.procedure.blockAt b).code.length c valued) st valued' st') :
    Narrowed d c (st.procedure.blockAt b).code st.procedure st'.procedure := by
  have narrowed := guardBlock_upTo defined h
  rwa [Int.toNat_natCast, List.take_length] at narrowed

private theorem guardBlock_returns (block : st.procedure.block b = .ok (st.procedure.blockAt b))
    (nodup : (st.procedure.blockAt b).code.Nodup) (tests : c ≠ [])
    (can : ∀ i ∈ (st.procedure.blockAt b).code, ∃ x, st.procedure.inst i = .ok x ∧ Admissible d x)
    (known : 0 ≤ b ∧ b < st.infos.size) :
    Succeeds (guardBlock d.target b (st.procedure.blockAt b).code.length c valued) st := by
  have whole : Arena.upTo (st.procedure.blockAt b).code (st.procedure.blockAt b).code.length =
      .ok (st.procedure.blockAt b).code := upTo_ok.mpr (by simp)
  have guarded : Succeeds (guardCode d.target b c (st.procedure.blockAt b).code valued) st :=
    guardCode_returns nodup tests can
  obtain ⟨valued', mid, guards⟩ := guarded
  obtain ⟨g, rfl, -⟩ := guardCode_narrows (fun i hi x found => by
    obtain ⟨y, there, able⟩ := can i hi
    cases found.symm.trans there
    exact able.defined) guards
  unfold guardBlock
  refine .bind _ (yields_query.mpr ⟨bind_ok_iff.mpr ⟨_, code_ok.mpr ⟨block, rfl⟩, whole⟩, rfl⟩) ?_
  refine .bind valued' guards (.bind () (yields_bind.mpr ⟨_, _, yields_get.mpr ⟨rfl, rfl⟩, yields_bind.mpr ⟨_, _,
    yields_ofExcept.mpr ⟨Arena.update_eq_ok.mpr ⟨known, rfl⟩, rfl⟩, yields_modify.mpr rfl⟩⟩) ?_)
  exact .bind () (yields_tally.mpr rfl) ⟨valued', _, yields_pure.mpr ⟨rfl, rfl⟩⟩

/-- Guarding the code of a block whose branches are gone, after the block was looked at; a summary that
is done with is not kept up. Where the condition holds, the guarded code ends with the same registers
after the same operations, and elsewhere it does nothing. Phis are read on entry to a block and have no
part in it. Guarding succeeds where no instruction of the block comes twice: a copy that was made a
select may not let itself be guarded once more. -/
theorem runs_guarded_of_scan (st : State) (valued : BitSet) {f : Procedure} {i j : Summary} {n : Nat}
    (fresh : i.done = false) (scanned : i.scan d.target f = .ok j) (free : j.unguardable = false)
    (removed : d.target.removeBranch f i.block = .ok (st.procedure, n))
    (inner : ∀ x ∈ st.procedure.instsAt i.block, x.op.isTerminator = false ∧ x.op ≠ .undef)
    (copies : ∀ x ∈ st.procedure.instsAt i.block, x.op = .copy → x.defs.length = 1 ∧ x.uses.length = 1)
    (tests : c ≠ [])
    (sets : ∀ x ∈ st.procedure.instsAt i.block,
      (∃ t ∈ c, t.reg ∈ d.sets st.procedure x) → d.target.setsPredicate x = true) :
    (∀ valued' st', Yields (guardBlock d.target i.block
        (st.procedure.blockAt i.block).code.length c valued) st valued' st' →
      ∀ (V : Type) (m : Machine V) (label : BlockId → V) (s : Store V),
        (∃ s', d.performAll st.procedure m label (st.procedure.instsAt i.block) s = .on s') ∧
          d.performAll st'.procedure m label (st'.procedure.instsAt i.block) s =
            if m.holds s.file c then
              d.performAll st.procedure m label (st.procedure.instsAt i.block) s
            else .on s) ∧
      ((st.procedure.blockAt i.block).code.Nodup →
        (∀ x ∈ st.procedure.instsAt i.block, ∀ r ∈ x.defs, 0 ≤ r) →
        0 ≤ i.block ∧ i.block < st.infos.size →
        ∃ valued' st', Yields (guardBlock d.target i.block
          (st.procedure.blockAt i.block).code.length c valued) st valued' st') := by
  obtain ⟨block, found, able, closing⟩ :=
    Summary.scan_accepts fresh scanned free removed fun x mem => (inner x mem).1
  refine ⟨fun valued' st' guards V m label s => ?_, fun nodup low known => ?_⟩
  · have narrowed := guardBlock_narrows (fun x mem => (inner x mem).2) guards
    refine ⟨Datapath.performAll_inner fun x mem => (inner x mem).1, ?_⟩
    rw [Datapath.performAll_congr narrowed.regs]
    exact performAll_narrows (narrowed.instsAt found) closing sets
  · refine guardBlock_returns block nodup tests (fun id mem => ?_) known
    obtain ⟨x, hx⟩ := found id mem
    have member := mem_instsAt.mpr ⟨id, mem, hx⟩
    refine ⟨x, hx, (inner x member).2, fun real => ?_, fun copy => ?_, low x member⟩
    · exact (able x member real).imp_right fun h => h.resolve_right (inner x member).2
    · obtain ⟨one, one'⟩ := copies x member copy
      obtain ⟨r, defs⟩ := List.length_eq_one_iff.mp one
      obtain ⟨v, uses⟩ := List.length_eq_one_iff.mp one'
      exact ⟨r, v, defs, uses⟩

/-- A copy and a comparison that sets the register `p` of the condition itself. -/
def comparing (code : List InstId) : Procedure :=
  { name := "comparing"
    regs := #["p", "a", "b"]
    insts := #[{ op := .copy, defs := [1], uses := [.reg 2] },
      { op := .other "cmp", defs := [0], uses := [.reg 1, .imm 3] }, .jump 1, { op := .ret }]
    blocks := #[{ id := 0, name := "head", code := code, succs := [1] },
      { id := 1, name := "tail", code := [3], preds := [0] }]
    layout := [0, 1] }

def comparingState : State :=
  { procedure := comparing [0, 1], infos := #[{ block := 0 }], stats := {}, log := #[] }

theorem runs_guarded_of_scan_comparing :
    ∃ valued st', Yields (guardBlock Datapath.standard.target 0 2 [⟨0, false⟩] .empty) comparingState
        valued st' ∧
      ∀ (V : Type) (m : Machine V) (label : BlockId → V) (s : Store V),
        Datapath.standard.performAll st'.procedure m label (st'.procedure.instsAt 0) s =
          if m.holds s.file [⟨0, false⟩] then
            Datapath.standard.performAll (comparing [0, 1]) m label ((comparing [0, 1]).instsAt 0) s
          else .on s := by
  have scanned : Summary.scan Datapath.standard.target (comparing [0, 1, 2]) { block := 0 } =
      .ok { block := 0, analyzable := true, fallsThrough := true, clobbers := true, size := 3,
            taken := some 1 } := by decide +kernel
  obtain ⟨runs, succeeds⟩ := runs_guarded_of_scan comparingState .empty (n := 1)
    (c := [⟨0, false⟩]) rfl scanned rfl rfl (by decide) (by decide) (by decide) (by decide)
  obtain ⟨valued, st', guards⟩ := succeeds (by decide) (by decide) (by decide)
  exact ⟨valued, st', guards, fun V m label s => (runs valued st' guards V m label s).2⟩

end Conversion

end Predication
