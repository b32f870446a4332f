import Predication.Conversion.Joining
import Predication.Machine.Datapath
import Predication.Proofs.Meshes
import Predication.Proofs.Yields

/-!
What the steps on code do. An instruction that is guarded gets the condition, or it becomes a select if
it is a copy; it then takes note of the registers whose former value it may leave in place.
-/

set_option autoImplicit false
set_option relaxedAutoImplicit false

namespace Predication

namespace Procedure

variable {f g : Procedure} {b : BlockId} {i : InstId} {x : Inst}

theorem append_ok (h : f.append b x = .ok (g, i)) :
    f.block b = .ok (f.blockAt b) ∧ i = (f.addInst x).2 ∧
      g = (f.addInst x).1.setCode b ((f.blockAt b).code ++ [i]) := by
  obtain ⟨k, placed, same⟩ := bind_ok_iff.mp h
  cases same
  obtain ⟨block, rfl⟩ := placeLast_ok placed
  exact ⟨block, rfl, rfl⟩

end Procedure

namespace Conversion

open Predication.Conversion.Convert Procedure

variable {d : Datapath} {st st' : State} {b : BlockId} {c : Condition} {id : InstId} {x : Inst}
  {valued valued' : BitSet} {u : Unit}

inductive GuardsInst (d : Datapath) (c : Condition) (x : Inst) : Inst → Prop where
  | undef (op : x.op = .undef) : GuardsInst d c x x
  | select (r : Reg) (v : Operand) (op : x.op = .copy) (defs : x.defs = [r]) (uses : x.uses = [v]) :
      GuardsInst d c x { x with op := .sel, cond := c, uses := [v, .reg r] }
  | guard (able : d.isGuardable x = true) (tests : c ≠ []) :
      GuardsInst d c x { x with guard := x.guard.conj c }

theorem guardInst_ok (found : st.procedure.inst id = .ok x)
    (h : Yields (guardInst d.target b id c) st u st') :
    ∃ g y, st' = { st with procedure := g } ∧ Replaces id y st.procedure g ∧ GuardsInst d c x y := by
  unfold guardInst at h
  obtain ⟨x', mid, first, h⟩ := yields_bind.mp h
  obtain ⟨found', rfl⟩ := yields_query.mp first
  cases found.symm.trans found'
  cases op : x.op with
  | undef =>
    simp only [op] at h
    obtain ⟨-, rfl⟩ := yields_pure.mp h
    exact ⟨_, x, rfl, .refl found, .undef op⟩
  | copy =>
    simp only [op] at h
    split at h
    · rename_i r v defs uses
      obtain ⟨u', mid, second, h⟩ := yields_bind.mp h
      obtain ⟨g, updated, rfl⟩ := yields_edit.mp second
      obtain ⟨k, owned, rfl⟩ := yields_edit.mp h
      cases owned
      have step := replaces_updateInst found updated
      exact ⟨_, _, rfl, ⟨step.blocks, step.layout, step.regs, step.inst⟩, .select r v op defs uses⟩
    · exact absurd h not_yields_breach
  | phi | sel | br | brc | ret | switch | dbg | other name =>
    simp only [op] at h
    split at h
    · rename_i y guarded
      obtain ⟨g, updated, rfl⟩ := yields_edit.mp h
      change d.guard? x c = some y at guarded
      unfold Datapath.guard? at guarded
      split at guarded
      · rename_i can
        rw [Bool.and_eq_true, Bool.not_eq_true', List.isEmpty_eq_false_iff] at can
        cases guarded
        exact ⟨g, _, rfl, replaces_updateInst found updated, .guard can.1 can.2⟩
      · cases guarded
    · exact absurd h not_yields_breach

theorem noteGuarded_ok (h : Yields (noteGuarded d.target valued id) st valued' st') :
    ∃ y g implicits, st.procedure.inst id = .ok y ∧ st' = { st with procedure := g } ∧
      Replaces id { y with implicits := implicits } st.procedure g := by
  unfold noteGuarded at h
  obtain ⟨y, mid, first, h⟩ := yields_bind.mp h
  obtain ⟨found, rfl⟩ := yields_query.mp first
  obtain ⟨f', mid, second, h⟩ := yields_bind.mp h
  obtain ⟨rfl, rfl⟩ := yields_procedure.mp second
  obtain ⟨⟨valued'', implicits⟩, mid, third, h⟩ := yields_bind.mp h
  obtain ⟨-, rfl⟩ := yields_ofExcept.mp third
  obtain ⟨u, mid, fourth, h⟩ := yields_bind.mp h
  obtain ⟨g, updated, rfl⟩ := yields_edit.mp fourth
  obtain ⟨-, rfl⟩ := yields_pure.mp h
  exact ⟨y, g, implicits, found, rfl, replaces_updateInst found updated⟩

theorem guardBlock_ok {t : Target} {stop : Int}
    (h : Yields (guardBlock t b stop c valued) st valued' st') :
    ∃ mid mid', Yields (guardCode t b c ((st.procedure.blockAt b).code.take stop.toNat) valued) st
        valued' mid ∧
      Yields (setInfo b fun i => { i with
        guard := i.guard.conj c, size := 0, visit := .unvisited }) mid () mid' ∧
      st' = { mid' with stats := { mid'.stats with
        guardedBlocks := mid'.stats.guardedBlocks + 1 } } := by
  unfold guardBlock at h
  obtain ⟨ids, mid, first, h⟩ := yields_bind.mp h
  obtain ⟨asked, rfl⟩ := yields_query.mp first
  obtain ⟨code, read, cut⟩ := bind_ok_iff.mp asked
  obtain ⟨-, rfl⟩ := code_ok.mp read
  obtain ⟨-, rfl⟩ := upTo_ok.mp cut
  obtain ⟨valued'', mid, second, h⟩ := yields_bind.mp h
  obtain ⟨u, mid', third, h⟩ := yields_bind.mp h
  obtain ⟨u', mid'', fourth, h⟩ := yields_bind.mp h
  obtain rfl := yields_tally.mp fourth
  obtain ⟨rfl, rfl⟩ := yields_pure.mp h
  exact ⟨mid, mid', second, third, rfl⟩

theorem yields_valuedAt {blocks : List BlockId} (h : Yields (valuedAt blocks) st valued st') :
    st = st' := by
  unfold valuedAt at h
  generalize BitSet.empty = start at h
  induction blocks generalizing start st with
  | nil => exact (yields_pure.mp h).2
  | cons b blocks ih =>
    obtain ⟨next, mid, first, h⟩ := yields_bind.mp h
    obtain ⟨blk, mid', asked, first⟩ := yields_bind.mp first
    obtain ⟨-, rfl⟩ := yields_query.mp asked
    obtain ⟨-, rfl⟩ := yields_ofExcept.mp first
    exact ih next h

end Conversion

end Predication
