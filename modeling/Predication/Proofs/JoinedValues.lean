import Predication.Conversion.Phis
import Predication.Proofs.CommonEnds
import Predication.Proofs.FreshNames
import Predication.Proofs.GuardedCode
import Predication.Proofs.Meshes
import Predication.Proofs.PhiInputs
import Predication.Proofs.StrictForm

/-!
The values of phis whose inputs from two blocks are joined. The phis of a block are rewritten one after
the other: selects come into the block that stays, and a phi that is left with one value gives way to it,
in the phis that are still to come as well. Each of them takes the value that it took before.
-/

set_option autoImplicit false
set_option relaxedAutoImplicit false

namespace Predication

namespace Inst

def inflow (x : Inst) : List (Operand × BlockId) := x.phiInputs.map fun p => (p.value, p.source)

def thirds (dest source : BlockId) (x : Inst) : List (Operand × BlockId) :=
  x.inflow.filter fun p => decide (p.2 ≠ source) && decide (p.2 ≠ dest)

def Stays (dest source : BlockId) (x : Inst) : Prop :=
  x.thirds dest source ≠ [] ∨ x.phiValue? source = none ∧ x.phiValue? dest = none

end Inst

def chosen {V : Type} (first : Bool) : Option V → Option V → Option V
  | some a, some b => some (if first then a else b)
  | a?, b? => a?.or b?

/-- What becomes of the phi `x` that has the value `u?` from the two blocks. It stays and takes the value
from `dest`; or a register is read in place of its own; or anything else is copied. -/
inductive Becomes (dest source : BlockId) (σ : Reg → Reg) (x : Inst) : Option Operand → Inst → Prop
  | stays {u? : Option Operand} {y : Inst} (stays : x.Stays dest source) (op : y.op = .phi)
      (inflow : y.inflow = x.thirds dest source ++ u?.toList.map (·, dest))
      (kept : ∀ d ∈ x.defs, σ d = d) : Becomes dest source σ x u? y
  | replaced {d r : Reg} {label : BlockId} {y : Inst} (gone : ¬ x.Stays dest source) (op : y.op = .phi)
      (defs : x.defs = [d]) (read : σ d = r) : Becomes dest source σ x (some (.reg r label)) y
  | copied {d : Reg} {u : Operand} {y : Inst} (gone : ¬ x.Stays dest source) (fixed : u.reg? = none)
      (op : y.op = .copy) (uses : y.uses = [u]) (defs : x.defs = [d]) (kept : σ d = d) :
      Becomes dest source σ x (some u) y

namespace Procedure

variable (f : Procedure)

def defsOf (ids : List InstId) : List Reg := (ids.filterMap f.inst?).flatMap Inst.defs

def valueRegs (ids : List InstId) (c : Condition) : List Reg :=
  ((ids.filterMap f.inst?).flatMap Inst.inflow).filterMap (fun p => p.1.reg?) ++ c.map Term.reg

/-- The phis `ids` of `s` are such that their inputs from `dest` and `source` can be joined: each defines
one register and has one input from a block, and none of them reads a register that they define. -/
structure Joinable (s dest source : BlockId) (c : Condition) (ids : List InstId) : Prop where
  phis : f.phis s = .ok ids
  block : f.block dest = .ok (f.blockAt dest)
  found : ∀ j ∈ (f.blockAt dest).code, (f.inst? j).isSome = true
  other : dest ≠ source
  cond : c ≠ []
  single : ∀ x ∈ ids.filterMap f.inst?, x.defs.length = 1 ∧ (x.phiInputs.map PhiInput.source).Nodup
  apart : ∀ r ∈ f.valueRegs ids c, r ∉ f.defsOf ids

/-- The phis define different registers, and all registers are in the table. -/
structure Distinct (c : Condition) (ids : List InstId) : Prop where
  nodup : (f.defsOf ids).Nodup
  table : ∀ r ∈ f.defsOf ids ++ f.valueRegs ids c, r < f.regs.size

/-- The code of the blocks in parts: `s` starts with the phis `ids`, and `dest` ends with the terminators
and debug markers `tail`. -/
structure Parts (s dest : BlockId) (ids : List InstId) (base : BlockId → List InstId)
    (tail : List InstId) : Prop where
  code : ∀ a, (f.blockAt a).code =
    (if a = s then ids else []) ++ base a ++ if a = dest then tail else []
  head : ∀ j ∈ (base s).head?, ∃ x, f.inst j = .ok x ∧ x.op ≠ .phi
  last : ∀ j ∈ (base dest).getLast?, ∃ x, f.inst j = .ok x ∧ x.isWriter = true
  exits : ∀ j ∈ tail, ∃ x, f.inst j = .ok x ∧ x.isWriter = false

/-- Behind the instructions `news` the operand `u?` has the value of `v?` where the condition held before
them, and elsewhere that of `w?`, or of the only one. Nothing else is set but registers beyond the
table. -/
def Brings (d : Datapath) (g : Procedure) (news : List InstId) (c : Condition)
    (v? w? u? : Option Operand) : Prop :=
  ∀ (V : Type) (m : Machine V) (label : BlockId → V) (st : Store V), ∃ after,
    d.performAll g m label (news.filterMap g.inst?) st = .on after ∧
    (∀ r : Reg, r < f.regs.size → after.file r = st.file r) ∧
    u?.map (m.reading label after.file) = chosen (m.holds st.file c)
      (v?.map (m.reading label st.file)) (w?.map (m.reading label st.file))

/-- The inputs that the phis `ids` of `s` have from `dest` and `source` are joined in `g`. The phis `left`
stay, the phis `copies` became copies, and `news` are the selects. -/
structure PhisJoined (d : Datapath) (s dest source : BlockId) (c : Condition) (ids : List InstId)
    (g : Procedure) (left copies news : List InstId) (σ : Reg → Reg) : Prop where
  phis : g.phis s = .ok left
  order : left.Sublist ids
  code : ∃ base tail, f.Parts s dest ids base tail ∧ ∀ a, (g.blockAt a).code =
    (if a = s then left ++ copies else []) ++ base a ++ if a = dest then news ++ tail else []
  each : ∀ i ∈ ids, ∃ x y u?, f.inst i = .ok x ∧ g.inst i = .ok y ∧
    y = { x.reread σ with op := y.op, uses := y.uses } ∧ Becomes dest source σ x u? y ∧
    (i ∈ left ↔ x.Stays dest source) ∧ (i ∈ copies ↔ y.op = .copy) ∧
    f.Brings d g news c (x.phiValue? source) (x.phiValue? dest) u?
  copied : copies ⊆ ids
  others : ∀ j ∉ ids, ∀ x, f.inst j = .ok x → g.inst j = .ok (x.reread σ)
  live : ∀ a, (g.blockAt a).liveIn = (f.blockAt a).liveIn.map σ
  fixes : ∀ q ∉ f.defsOf ids, σ q = q

end Procedure

section Reading

variable {σ τ : Reg → Reg} {x : Inst} {d r : Reg}

private theorem Operand.reread_of_fixed {u : Operand} (fixed : ∀ r ∈ u.reg?, σ r = r) : u.reread σ = u := by
  cases u with
  | reg r label => exact congrArg (Operand.reg · label) (fixed r rfl)
  | imm | block => rfl

private theorem Inst.inflow_reread (σ : Reg → Reg) (x : Inst) :
    (x.reread σ).inflow = x.inflow.map fun p => (p.1.reread σ, p.2) := by
  simp [inflow, phiInputs_reread, PhiInput.source, Operand.blockId_reread]

private theorem lastValue?_eq {x : Inst} (nodup : (x.phiInputs.map PhiInput.source).Nodup) (b : BlockId) :
    Conversion.lastValue? b x.phiInputs = x.phiValue? b := by
  unfold Inst.phiValue?
  generalize x.phiInputs = inputs at nodup ⊢
  induction inputs with
  | nil => rfl
  | cons p inputs ih =>
    obtain ⟨new, later⟩ := List.nodup_cons.mp nodup
    by_cases here : p.source = b
    · have none : inputs.filter (fun q => decide (q.source = b)) = [] :=
        List.filter_eq_nil_iff.mpr fun q mem same =>
          new (here ▸ of_decide_eq_true same ▸ List.mem_map_of_mem mem)
      simp [Conversion.lastValue?, here, none]
    · simpa [Conversion.lastValue?, here] using ih later

private theorem Inst.mem_inflow {x : Inst} {b : BlockId} {v : Operand} (h : x.phiValue? b = some v) :
    (v, b) ∈ x.inflow := by
  obtain ⟨p, found, rfl⟩ := Option.map_eq_some_iff.mp h
  have same : p.source = b := by simpa using List.find?_some found
  exact List.mem_map.mpr ⟨p, List.mem_of_find?_eq_some found, by rw [same]⟩

end Reading

namespace Conversion

open Predication.Conversion.Convert
open Predication.Procedure

/-- The selects for some pairs of values, to registers from `n` on. -/
def selects (c : Condition) : Nat → List (Operand × Operand) → List Inst
  | _, [] => []
  | n, p :: picks =>
    { op := .sel, defs := [(n : Int)], uses := [p.1, p.2], cond := c } :: selects c (n + 1) picks

private theorem selects_concat (c : Condition) (n : Nat) (picks : List (Operand × Operand))
    (p : Operand × Operand) : selects c n (picks ++ [p]) = selects c n picks ++
      [{ op := .sel, defs := [((n + picks.length : Nat) : Int)], uses := [p.1, p.2], cond := c }] := by
  induction picks generalizing n with
  | nil => rfl
  | cons q picks ih =>
    rw [List.cons_append, selects, ih, selects, List.cons_append, List.length_cons]
    simp only [Nat.add_assoc, Nat.add_comm 1]

private theorem op_selects {c : Condition} {n : Nat} {picks : List (Operand × Operand)} {x : Inst}
    (mem : x ∈ selects c n picks) : x.op = .sel := by
  induction picks generalizing n with
  | nil => cases mem
  | cons p picks ih =>
    rcases List.mem_cons.mp mem with rfl | later
    · rfl
    · exact ih later

private theorem reread_selects {τ : Reg → Reg} {c : Condition} {picks : List (Operand × Operand)}
    (cond : ∀ t ∈ c, τ t.reg = t.reg)
    (plain : ∀ p ∈ picks, (∀ r ∈ p.1.reg?, τ r = r) ∧ ∀ r ∈ p.2.reg?, τ r = r) (n : Nat) :
    (selects c n picks).map (Inst.reread τ) = selects c n picks := by
  have same : c.map (fun t => { t with reg := τ t.reg }) = c :=
    (List.map_congr_left fun t mem => by rw [cond t mem]; rfl).trans (List.map_id c)
  induction picks generalizing n with
  | nil => rfl
  | cons p picks ih =>
    obtain ⟨⟨first, second⟩, later⟩ := List.forall_mem_cons.mp plain
    rw [selects, List.map_cons, ih later]
    simp [Inst.reread, same, Operand.reread_of_fixed first, Operand.reread_of_fixed second]

private theorem performAll_selects {V : Type} (d : Datapath) (g : Procedure) (m : Machine V)
    (label : BlockId → V) {c : Condition} {picks : List (Operand × Operand)} {top n : Nat}
    (bound : top ≤ n) (cond : ∀ t ∈ c, t.reg < top)
    (plain : ∀ p ∈ picks, (∀ r ∈ p.1.reg?, r < top) ∧ ∀ r ∈ p.2.reg?, r < top) (st : Store V) :
    ∃ after, d.performAll g m label (selects c n picks) st = .on after ∧
      (∀ r : Reg, r < n → after.file r = st.file r) ∧
      ∀ k v w, picks[k]? = some (v, w) → after.file ((n + k : Nat) : Int) =
        if m.holds st.file c then m.reading label st.file v else m.reading label st.file w := by
  induction picks generalizing n st with
  | nil => exact ⟨st, rfl, fun _ _ => rfl, by simp⟩
  | cons p picks ih =>
    obtain ⟨⟨first, second⟩, later⟩ := List.forall_mem_cons.mp plain
    let value := if m.holds st.file c then m.reading label st.file p.1 else m.reading label st.file p.2
    let mid := st.write [(n : Int)] fun _ => value
    have step : d.perform g m label { op := .sel, defs := [(n : Int)], uses := [p.1, p.2], cond := c }
        st = .on mid := by
      have written : (if m.holds st.file c then some (m.reading label st.file p.1)
          else some (m.reading label st.file p.2)).getD m.undefined = value := by
        simp only [value]
        split <;> rfl
      simp only [mid, ← written]
      rfl
    obtain ⟨after, ran, same, values⟩ := ih (Nat.le_succ_of_le bound) later mid
    have old : ∀ r : Reg, r < n → mid.file r = st.file r :=
      fun r low => if_neg fun mem => Int.ne_of_lt low (List.mem_singleton.mp mem)
    have low : ∀ r : Reg, r < top → mid.file r = st.file r :=
      fun r low => old r (Int.lt_of_lt_of_le low (Int.ofNat_le.mpr bound))
    have reading : ∀ u : Operand, (∀ r ∈ u.reg?, r < top) →
        m.reading label mid.file u = m.reading label st.file u := by
      intro u inside
      cases u with
      | reg r _ => exact low r (inside r rfl)
      | imm | block => rfl
    have below : ∀ r : Reg, r < n → r < (n + 1 : Nat) := fun r low => by
      rw [Int.natCast_succ]
      exact Int.lt_add_one_of_le (Int.le_of_lt low)
    refine ⟨after, ?_, fun r high => (same r (below r high)).trans (old r high), ?_⟩
    · rw [selects, Datapath.performAll, step]
      exact ran
    · intro k v w found
      cases k with
      | zero =>
        cases found
        refine (same n (Int.ofNat_lt.mpr (Nat.lt_succ_self n))).trans ?_
        exact if_pos (by simp)
      | succ k =>
        obtain ⟨inV, inW⟩ := later _ (List.mem_of_getElem? found)
        rw [← m.holds_congr (fun t mem => low t.reg (cond t mem)), ← reading v inV, ← reading w inW,
          ← values k v w found, Nat.succ_add_eq_add_succ]

/-- Where the inputs of phis are joined. -/
structure Site where
  f : Procedure
  s : BlockId
  dest : BlockId
  source : BlockId
  c : Condition
  ids : List InstId
  base : BlockId → List InstId
  tail : List InstId

/-- How far the work has come: the phis that are left in their block or are still to come, the copies, the
selects with the values that they choose from, and what is read in place of the registers. -/
structure Shape where
  line : List InstId
  copies : List InstId := []
  news : List InstId := []
  picks : List (Operand × Operand) := []
  σ : Reg → Reg := id

variable {k : Site}

structure Site.Good (k : Site) : Prop extends k.f.Joinable k.s k.dest k.source k.c k.ids,
  k.f.Distinct k.c k.ids, k.f.Parts k.s k.dest k.ids k.base k.tail

def Site.Takes (k : Site) (u : Operand) : Prop := ∀ r ∈ u.reg?, r ∈ k.f.valueRegs k.ids k.c

/-- The procedure during the work on the phis `touched`. -/
structure Midway (k : Site) (touched : List InstId) (sh : Shape) (g : Procedure) : Prop where
  inner : sh.line ++ sh.copies ⊆ k.ids
  within : touched ⊆ k.ids
  regs : g.regs.size = k.f.regs.size + sh.picks.length
  insts : k.f.insts.size ≤ g.insts.size
  block : ∀ a, k.f.block a = .ok (k.f.blockAt a) → g.block a = .ok (g.blockAt a)
  code : ∀ a, (g.blockAt a).code = (if a = k.s then sh.line ++ sh.copies else []) ++ k.base a ++
    if a = k.dest then sh.news ++ k.tail else []
  live : ∀ a, (g.blockAt a).liveIn = (k.f.blockAt a).liveIn.map sh.σ
  inst : ∀ j ∉ touched, ∀ x, k.f.inst j = .ok x → g.inst j = .ok (x.reread sh.σ)
  kinds : ∀ j ∈ k.ids, ∃ y, g.inst j = .ok y ∧ y.isWriter = true ∧
    (j ∈ sh.line → y.op = .phi) ∧ (j ∈ sh.copies → y.op = .copy)
  news : List.Forall₂ (fun n x => (k.f.insts.size : Int) ≤ n ∧ g.inst n = .ok x) sh.news
    (selects k.c k.f.regs.size sh.picks)
  plain : ∀ p ∈ sh.picks, k.Takes p.1 ∧ k.Takes p.2
  fixes : ∀ q ∉ k.f.defsOf touched, sh.σ q = q

namespace Site.Good

variable {i j : InstId} {x : Inst}

private theorem phi (good : k.Good) (mem : i ∈ k.ids) : ∃ x, k.f.inst i = .ok x ∧ x.op = .phi := by
  obtain ⟨-, front⟩ := phis_ok good.phis
  obtain ⟨rest, -, phis, -⟩ := leadingPhis_ok front
  exact phis i mem

private theorem old (good : k.Good) (mem : i ∈ k.ids) : i < k.f.insts.size := by
  obtain ⟨x, found, -⟩ := good.phi mem
  exact (Arena.get_range.mp ⟨x, found⟩).2

private theorem not_mem (good : k.Good) (found : k.f.inst j = .ok x) (other : x.op ≠ .phi) : j ∉ k.ids := by
  intro mem
  obtain ⟨y, there, phi⟩ := good.phi mem
  cases found.symm.trans there
  exact other phi

end Site.Good

private theorem mem_insts {f : Procedure} {ids : List InstId} {i : InstId} {x : Inst} (mem : i ∈ ids)
    (found : f.inst i = .ok x) : x ∈ ids.filterMap f.inst? :=
  List.mem_filterMap.mpr ⟨i, mem, inst?_eq_some.mpr found⟩

private theorem mem_defsOf {f : Procedure} {ids : List InstId} {q : Reg} :
    q ∈ f.defsOf ids ↔ ∃ i ∈ ids, ∃ x, f.inst i = .ok x ∧ q ∈ x.defs := by
  simp only [defsOf, List.mem_flatMap, List.mem_filterMap, inst?_eq_some]
  constructor
  · rintro ⟨x, ⟨i, mem, found⟩, def'⟩
    exact ⟨i, mem, x, found, def'⟩
  · rintro ⟨i, mem, x, found, def'⟩
    exact ⟨x, ⟨i, mem, found⟩, def'⟩

private theorem defsOf_append (f : Procedure) (a b : List InstId) :
    f.defsOf (a ++ b) = f.defsOf a ++ f.defsOf b := by
  simp [defsOf]

private theorem defsOf_subset {f : Procedure} {a b : List InstId} (sub : a ⊆ b) :
    f.defsOf a ⊆ f.defsOf b := by
  intro q mem
  obtain ⟨i, there, rest⟩ := mem_defsOf.mp mem
  exact mem_defsOf.mpr ⟨i, sub there, rest⟩

private theorem bodyLength_eq {f : Procedure} {back front : List InstId}
    (exits : ∀ j ∈ back, ∃ x, f.inst j = .ok x ∧ x.isWriter = false)
    (last : ∀ j ∈ front.head?, ∃ x, f.inst j = .ok x ∧ x.isWriter = true) :
    bodyLength f (back ++ front) = .ok front.length := by
  induction back with
  | nil =>
    cases front with
    | nil => rfl
    | cons j front =>
      obtain ⟨x, found, writer⟩ := last j rfl
      refine bind_ok_iff.mpr ⟨x, found, ?_⟩
      rw [if_neg (by simpa [Inst.isWriter] using writer)]
      rfl
  | cons j back ih =>
    obtain ⟨⟨x, found, exit⟩, later⟩ := List.forall_mem_cons.mp exits
    refine bind_ok_iff.mpr ⟨x, found, ?_⟩
    rw [if_pos (by simpa only [Inst.isWriter, Bool.not_eq_false'] using exit)]
    exact ih later

private theorem forall_head?_append {α : Type} {P : α → Prop} {l l' : List α} (first : ∀ a ∈ l.head?, P a)
    (second : ∀ a ∈ l'.head?, P a) : ∀ a ∈ (l ++ l').head?, P a := by
  cases l with
  | nil => exact second
  | cons => exact first

private theorem inst_renamed {g : Procedure} {j : InstId} {y : Inst} {d r : Reg} (found : g.inst j = .ok y) :
    (g.replaceReg d r).inst j = .ok (y.reread fun q => if q = d then r else q) := by
  rw [inst_replaceReg, found, ← Inst.renameReads_eq]
  rfl

namespace Midway

variable {touched : List InstId} {sh : Shape} {g : Procedure} {i : InstId} {x y : Inst}

private theorem start (good : k.Good) : Midway k [] { line := k.ids } k.f where
  inner := by simp
  within := List.nil_subset _
  regs := rfl
  insts := le_rfl
  block _ found := found
  code a := by simpa using good.code a
  live a := by simp
  inst j _ x found := by rw [found, Inst.reread_id]
  kinds j mem := by
    obtain ⟨x, found, op⟩ := good.phi mem
    exact ⟨x, found, by rw [Inst.isWriter, op]; rfl, fun _ => op, by simp⟩
  news := .nil
  plain := by simp
  fixes _ _ := rfl

private theorem writer (h : Midway k touched sh g) (found : k.f.inst i = .ok x) (writer : x.isWriter = true) :
    ∃ y, g.inst i = .ok y ∧ y.isWriter = true := by
  by_cases mem : i ∈ touched
  · obtain ⟨y, there, writer, -⟩ := h.kinds i (h.within mem)
    exact ⟨y, there, writer⟩
  · exact ⟨_, h.inst i mem x found, writer⟩

private theorem copied (h : Midway k touched sh g) (mem : i ∈ sh.copies) (found : g.inst i = .ok y) :
    y.op = .copy := by
  obtain ⟨y', found', -, -, copy⟩ := h.kinds i (h.inner (List.mem_append_right _ mem))
  cases found.symm.trans found'
  exact copy mem

private theorem touch (h : Midway k touched sh g) (mem : i ∈ k.ids) : Midway k (touched ++ [i]) sh g :=
  { h with
    within := List.append_subset.mpr ⟨h.within, by simpa using mem⟩
    inst := fun j away => h.inst j fun there => away (List.mem_append_left _ there)
    fixes := fun q away => h.fixes q fun there =>
      away (defsOf_subset (List.subset_append_left _ _) there) }

/-- A phi that is being worked on is changed. -/
private theorem update (good : k.Good) (h : Midway k touched sh g) (mem : i ∈ touched)
    (found : g.inst i = .ok y) {u : Inst → Inst} (writer : (u y).isWriter = true)
    (lined : i ∈ sh.line → (u y).op = .phi) (fresh : i ∉ sh.copies) :
    ∃ g', g.updateInst i u = .ok g' ∧ Replaces i (u y) g g' ∧ Midway k touched sh g' := by
  obtain ⟨g', updated, -⟩ := updateInst_gives found u
  have new := replaces_updateInst found updated
  have block : ∀ a, g'.block a = g.block a := fun a => by
    unfold Procedure.block
    rw [new.blocks]
  have blockAt := blockAt_congr new.blocks
  refine ⟨g', updated, new, { h with
    regs := by rw [new.regs, h.regs]
    insts := by rw [(updateInst_ok updated).2.2.1]; exact h.insts
    block := fun a there => by rw [block, blockAt, h.block a there]
    code := fun a => by rw [blockAt, h.code]
    live := fun a => by rw [blockAt, h.live]
    inst := fun j away x there => by
      rw [new.inst, if_neg fun same : j = i => away (same ▸ mem), h.inst j away x there]
    kinds := fun j there => ?_
    news := h.news.imp fun n x there => ⟨there.1, ?_⟩ }⟩
  · rw [new.inst]
    split
    · rename_i same
      exact ⟨_, rfl, writer, fun there => lined (same ▸ there), fun there => absurd (same ▸ there) fresh⟩
    · exact h.kinds j there
  · have other : n ≠ i := fun same => absurd there.1 (same ▸ Int.not_le.mpr (good.old (h.within mem)))
    rw [new.inst, if_neg other, there.2]

/-- The phis of the block are set anew. -/
private theorem setCode (h : Midway k touched sh g) (there : k.f.block k.s = .ok (k.f.blockAt k.s))
    {line copies : List InstId} (inner : line ++ copies ⊆ k.ids) {code : List InstId}
    (lined : line ⊆ sh.line) (copied : ∀ j ∈ copies, ∀ y, g.inst j = .ok y → y.op = .copy)
    (shape : code = line ++ copies ++ k.base k.s ++ if k.s = k.dest then sh.news ++ k.tail else []) :
    Midway k touched { sh with line := line, copies := copies } (g.setCode k.s code) :=
  { h with
    inner := inner
    regs := by rw [Procedure.setCode, regs_mapBlock]; exact h.regs
    insts := by rw [Procedure.setCode, insts_mapBlock]; exact h.insts
    block := fun a found => block_setCode (h.block a found) _ _
    code := fun a => by
      rw [code_setCode (h.block _ there)]
      split
      · rename_i here
        rw [shape, here]
      · rename_i other
        rw [h.code, if_neg other]
    live := fun a => by
      rw [blockAt_setCode (h.block _ there), ← h.live]
      split <;> rfl
    inst := fun j away x found => by rw [inst_setCode, h.inst j away x found]
    kinds := fun j mem => by
      obtain ⟨y, found, writer, phi, -⟩ := h.kinds j mem
      rw [inst_setCode]
      exact ⟨y, found, writer, fun there => phi (lined there), fun there => copied j there y found⟩
    news := h.news.imp fun n x there => by rwa [inst_setCode] }

/-- A register that a phi defined is replaced everywhere. -/
private theorem rename (good : k.Good) (h : Midway k touched sh g) {d r : Reg}
    (mem : d ∈ k.f.defsOf touched) :
    Midway k touched { sh with σ := (fun q => if q = d then r else q) ∘ sh.σ } (g.replaceReg d r) := by
  have away : ∀ q ∉ k.f.defsOf k.ids, (if q = d then r else q) = q :=
    fun q out => if_neg fun same : q = d => out (same ▸ defsOf_subset h.within mem)
  refine { h with
    insts := by simpa [replaceReg] using h.insts
    block := fun a found => ?_
    code := fun a => by rw [blockAt_replaceReg]; exact h.code a
    live := fun a => by rw [blockAt_replaceReg, h.live, List.map_map]
    inst := fun j away x found => by rw [inst_renamed (h.inst j away x found), Inst.reread_reread]
    kinds := fun j there => ?_
    news := ?_
    fixes := fun q out => ?_ }
  · have there := h.block a found
    rw [blockAt_replaceReg]
    unfold Procedure.block at there ⊢
    rw [replaceReg, Arena.get_map, there]
    rfl
  · obtain ⟨y, found, kinds⟩ := h.kinds j there
    exact ⟨_, inst_renamed found, kinds⟩
  · rw [← reread_selects (fun t mem => away _ (good.apart _ (by simp [valueRegs]; grind)))
      (fun p mem => ⟨fun q read => away _ (good.apart _ ((h.plain p mem).1 q read)),
        fun q read => away _ (good.apart _ ((h.plain p mem).2 q read))⟩)]
    exact List.forall₂_map_right_iff.mpr (h.news.imp fun n x there => ⟨there.1, inst_renamed there.2⟩)
  · change (if sh.σ q = d then r else sh.σ q) = q
    rw [h.fixes q out]
    exact if_neg fun here : q = d => out (here ▸ mem)

private theorem selected (h : Midway k touched sh g) (mem : i ∈ sh.news) :
    ∃ y, g.inst i = .ok y ∧ y.op = .sel := by
  obtain ⟨y, there, -, found⟩ := exists_right_of_forall₂ h.news mem
  exact ⟨y, found, op_selects there⟩

/-- A select is added. -/
private theorem select (good : k.Good) (h : Midway k touched sh g) {v w : Operand}
    (plain : k.Takes v ∧ k.Takes w) {st : State} (here : st.procedure = g) :
    ∃ g' n, Yields (addSelect k.dest k.c v w) st ((k.f.regs.size + sh.picks.length : Nat) : Int)
        { st with procedure := g' } ∧
      Midway k touched { sh with news := sh.news ++ [n], picks := sh.picks ++ [(v, w)] } g' ∧
      ∀ j y, g.inst j = .ok y → g'.inst j = .ok y := by
  obtain ⟨tries, -, name, -, added⟩ := newReg_search g
  let r : Reg := (g.regs.size : Int)
  let sel : Inst := { op := .sel, defs := [r], uses := [v, w], cond := k.c }
  let g₁ : Procedure := { g with regs := g.regs.push name }
  let g₂ : Procedure := { g₁ with insts := g.insts.push sel }
  let front := (if k.dest = k.s then sh.line ++ sh.copies else []) ++ k.base k.dest ++ sh.news
  have split : (g.blockAt k.dest).code = front ++ k.tail := by
    rw [h.code, if_pos rfl, List.append_assoc _ sh.news]
  have length : bodyLength g₁ (front ++ k.tail).reverse = .ok front.length := by
    rw [List.reverse_append, ← List.length_reverse]
    refine bodyLength_eq (fun j mem => ?_) ?_
    · obtain ⟨x, found, exit⟩ := good.exits j (List.mem_reverse.mp mem)
      have away := good.not_mem found fun op => by rw [Inst.isWriter, op] at exit; cases exit
      exact ⟨_, h.inst j (fun touched => away (h.within touched)) x found, exit⟩
    · rw [List.reverse_append, List.reverse_append]
      refine forall_head?_append (fun j mem => ?_) (forall_head?_append (fun j mem => ?_) fun j mem => ?_)
      · obtain ⟨y, found, op⟩ := h.selected (List.mem_reverse.mp (List.mem_of_head? mem))
        exact ⟨y, found, by rw [Inst.isWriter, op]; rfl⟩
      · rw [List.head?_reverse] at mem
        obtain ⟨x, found, writer⟩ := good.last j mem
        exact h.writer found writer
      · have mem := List.mem_reverse.mp (List.mem_of_head? mem)
        split at mem
        · obtain ⟨y, found, writer, -⟩ := h.kinds j (h.inner mem)
          exact ⟨y, found, writer⟩
        · cases mem
  have there : g.block k.dest = .ok (g.blockAt k.dest) := h.block _ good.block
  have there₂ : g₂.block k.dest = .ok (g₂.blockAt k.dest) := there
  let n : InstId := (g.insts.size : Int)
  let g₃ := g₂.setCode k.dest (front ++ n :: k.tail)
  have placed : g₂.placeAt k.dest front.length n = .ok g₃ := placeAt_eq there₂ split n
  have old : ∀ j y, g.inst j = .ok y → g₃.inst j = .ok y :=
    fun j y found => (inst_setCode _ _ _ _).trans (Arena.get_push found sel)
  refine ⟨g₃, n, ?_, ?_, old⟩
  · subst here
    refine yields_bind.mpr ⟨r, _, yields_editWith.mpr ⟨g₁, congrArg Except.ok added, rfl⟩, ?_⟩
    refine yields_bind.mpr ⟨front.length, _, yields_query.mpr ⟨bind_ok_iff.mpr
      ⟨_, code_ok.mpr ⟨there, rfl⟩, ?_⟩, rfl⟩, ?_⟩
    · rw [← length, ← split]
      rfl
    · refine yields_bind.mpr ⟨(), _, yields_edit.mpr ⟨g₃, bind_ok_iff.mpr
        ⟨(g₃, n), bind_ok_iff.mpr ⟨g₃, placed, rfl⟩, rfl⟩, rfl⟩, ?_⟩
      exact yields_pure.mpr ⟨congrArg Int.ofNat h.regs, rfl⟩
  · have register : r = ((k.f.regs.size + sh.picks.length : Nat) : Int) := congrArg Int.ofNat h.regs
    refine { h with
      regs := ?_
      insts := ?_
      block := fun a found => block_setCode (f := g₂) (h.block a found) _ _
      code := fun a => ?_
      live := fun a => ?_
      inst := fun j away x found => old _ _ (h.inst j away x found)
      kinds := fun j mem => ?_
      news := ?_
      plain := ?_ }
    · rw [show g₃.regs = g.regs.push name from regs_mapBlock _ _ _, Array.size_push, h.regs,
        List.length_append]
      rfl
    · rw [show g₃.insts = g.insts.push sel from insts_mapBlock _ _ _, Array.size_push]
      exact Nat.le_succ_of_le h.insts
    · rw [code_setCode there₂]
      split
      · rename_i same
        simp [front, same]
      · rename_i other
        exact (h.code a).trans (by rw [if_neg other])
    · rw [blockAt_setCode there₂]
      split <;> exact h.live a
    · obtain ⟨y, found, kinds⟩ := h.kinds j mem
      exact ⟨y, old j y found, kinds⟩
    · rw [selects_concat, ← register]
      refine List.rel_append (h.news.imp fun j y there => ⟨there.1, old j y there.2⟩) (.cons ⟨?_, ?_⟩ .nil)
      · exact Int.ofNat_le.mpr h.insts
      · exact (inst_setCode _ _ _ _).trans (Arena.get_push_size _ _)
    · intro p mem
      rcases List.mem_append.mp mem with former | new
      · exact h.plain p former
      · rw [List.mem_singleton.mp new]
        exact plain

private theorem phis (good : k.Good) (h : Midway k touched sh g) : g.phis k.s = .ok sh.line := by
  obtain ⟨there, -⟩ := phis_ok good.phis
  refine bind_ok_iff.mpr ⟨_, code_ok.mpr ⟨h.block _ there, rfl⟩, ?_⟩
  rw [h.code, if_pos rfl, List.append_assoc, List.append_assoc]
  have plain : ∀ {j x}, k.f.inst j = .ok x → x.op ≠ .phi → ∃ y, g.inst j = .ok y ∧ y.op ≠ .phi :=
    fun found other => ⟨_, h.inst _ (fun mem => good.not_mem found other (h.within mem)) _ found, other⟩
  have lined : ∀ j ∈ sh.line, ∃ y, g.inst j = .ok y ∧ y.op = .phi := fun j mem => by
    obtain ⟨y, found, -, phi, -⟩ := h.kinds j (h.inner (List.mem_append_left _ mem))
    exact ⟨y, found, phi mem⟩
  refine leadingPhis_eq lined (forall_head?_append (fun j mem => ?_)
    (forall_head?_append (fun j mem => ?_) fun j mem => ?_))
  · have mem := List.mem_of_mem_head? mem
    obtain ⟨y, found, -⟩ := h.kinds j (h.inner (List.mem_append_right _ mem))
    exact ⟨y, found, by rw [h.copied mem found]; decide⟩
  · obtain ⟨x, found, other⟩ := good.head j mem
    exact plain found other
  · have mem := List.mem_of_mem_head? mem
    split at mem
    · rcases List.mem_append.mp mem with new | old
      · obtain ⟨y, found, op⟩ := h.selected new
        exact ⟨y, found, by rw [op]; decide⟩
      · obtain ⟨x, found, exit⟩ := good.exits j old
        exact plain found fun op => by rw [Inst.isWriter, op] at exit; cases exit
    · cases mem

end Midway

/-- The value `u?` stands for `v?` and `w?` where these pairs were picked from. -/
inductive Stands (n : Nat) (picks : List (Operand × Operand)) :
    (v? w? u? : Option Operand) → Prop
  | neither : Stands n picks none none none
  | first (v : Operand) : Stands n picks (some v) none (some v)
  | second (w : Operand) : Stands n picks none (some w) (some w)
  | same (v : Operand) : Stands n picks (some v) (some v) (some v)
  | pick {v w : Operand} {k : Nat} (here : picks[k]? = some (v, w)) :
      Stands n picks (some v) (some w) (some (.reg ((n + k : Nat) : Int)))

private theorem Stands.mono {n : Nat} {picks picks' : List (Operand × Operand)} {v? w? u? : Option Operand}
    (h : Stands n picks v? w? u?) (more : picks <+: picks') : Stands n picks' v? w? u? := by
  cases h with
  | neither => exact .neither
  | first v => exact .first v
  | second w => exact .second w
  | same v => exact .same v
  | pick here =>
    obtain ⟨rest, rfl⟩ := more
    exact .pick ((List.getElem?_append_left (List.getElem?_eq_some_iff.mp here).1).trans here)

/-- The value that is made of two, and the state it is made in. -/
inductive Chooses (dest : BlockId) (c : Condition) (st : State) :
    (v? w? u? : Option Operand) → State → Prop
  | neither : Chooses dest c st none none none st
  | first (v : Operand) : Chooses dest c st (some v) none (some v) st
  | second (w : Operand) : Chooses dest c st none (some w) (some w) st
  | same (v : Operand) : Chooses dest c st (some v) (some v) (some v) st
  | select {v w : Operand} {r : Reg} {st' : State} (other : v ≠ w)
      (run : Yields (addSelect dest c v w) st r st') :
      Chooses dest c st (some v) (some w) (some (.reg r)) st'

/-- What is done to a phi when the value from the two blocks is known. -/
def settle (s dest : BlockId) (i : InstId) : Option Operand → Convert Unit
  | none => return ()
  | some u => do
    if (← query (·.inst i)).uses.isEmpty then
      replacePhi s i u
    else
      edit (·.updateInst i (Inst.addPhiInput u dest))

private theorem yields_joinPhi {s dest source : BlockId} {c : Condition} {i : InstId} {st st₂ st₃ : State}
    {z : Inst} {g₁ : Procedure} {u? : Option Operand} (other : dest ≠ source) (cond : c ≠ [])
    (found : st.procedure.inst i = .ok z)
    (updated : st.procedure.updateInst i (fun x => { x with
      uses := PhiInput.toUses (z.phiInputs.filter fun x =>
        decide (x.source ≠ source) && decide (x.source ≠ dest)) }) = .ok g₁)
    (chosen : Chooses dest c { st with procedure := g₁ } (lastValue? source z.phiInputs)
      (lastValue? dest z.phiInputs) u? st₂) (last : Yields (settle s dest i u?) st₂ () st₃) :
    Yields (joinPhi s dest source c i) st () st₃ := by
  refine yields_bind.mpr ⟨z, st, yields_query.mpr ⟨found, rfl⟩, ?_⟩
  refine yields_bind.mpr ⟨(), _, yields_edit.mpr ⟨g₁, updated, rfl⟩, ?_⟩
  rw [if_neg other]
  generalize lastValue? source z.phiInputs = v?, lastValue? dest z.phiInputs = w? at chosen
  have given : ∀ a, Yields (pure a : Convert (Option Operand)) st₂ a st₂ := fun _ => rfl
  cases chosen with
  | neither => exact yields_bind.mpr ⟨_, _, given _, last⟩
  | first v => exact yields_bind.mpr ⟨_, _, given _, last⟩
  | second w => exact yields_bind.mpr ⟨_, _, given _, last⟩
  | same v =>
    simp only [if_pos]
    exact yields_bind.mpr ⟨_, _, given _, last⟩
  | select distinct run =>
    simp only [if_neg distinct]
    rw [if_neg (by simpa using cond)]
    exact yields_bind.mpr ⟨_, _, run, yields_bind.mpr ⟨_, _, given _, last⟩⟩

def Answered (k : Site) (left : List InstId) (sh : Shape) (g : Procedure) (i : InstId) : Prop :=
  ∃ x y u?, k.f.inst i = .ok x ∧ g.inst i = .ok y ∧
    y = { x.reread sh.σ with op := y.op, uses := y.uses } ∧ Becomes k.dest k.source sh.σ x u? y ∧
    (i ∈ left ↔ x.Stays k.dest k.source) ∧ (i ∈ sh.copies ↔ y.op = .copy) ∧
    Stands k.f.regs.size sh.picks (x.phiValue? k.source) (x.phiValue? k.dest) u?

/-- Work on the phi `i` goes on. All other phis are as they were, but for the register that it defined. -/
structure Moves (k : Site) (i : InstId) (left : List InstId) (sh : Shape) (g : Procedure)
    (left' : List InstId) (sh' : Shape) (g' : Procedure) (τ : Reg → Reg) : Prop where
  σ : sh'.σ = τ ∘ sh.σ
  fixes : ∀ q ∉ k.f.defsOf [i], τ q = q
  inst : ∀ j ≠ i, ∀ y, g.inst j = .ok y → g'.inst j = .ok (y.reread τ)
  left : ∀ j ≠ i, (j ∈ left' ↔ j ∈ left)
  copies : ∀ j ≠ i, (j ∈ sh'.copies ↔ j ∈ sh.copies)
  picks : sh.picks <+: sh'.picks

section Answers

variable {left left' : List InstId} {sh sh' : Shape} {g g' : Procedure} {i j : InstId} {τ : Reg → Reg}

private theorem Site.takes {x : Inst} {p : Operand × BlockId} (mem : i ∈ k.ids) (found : k.f.inst i = .ok x)
    (input : p ∈ x.inflow) : k.Takes p.1 := by
  intro r read
  refine List.mem_append_left _ (List.mem_filterMap.mpr ⟨p, List.mem_flatMap.mpr ⟨x, ?_, input⟩, read⟩)
  exact mem_insts mem found

private theorem Stands.clear (good : k.Good) {x : Inst} {u : Operand} (mem : i ∈ k.ids)
    (found : k.f.inst i = .ok x)
    (h : Stands k.f.regs.size sh.picks (x.phiValue? k.source) (x.phiValue? k.dest) (some u)) :
    ∀ r ∈ u.reg?, r ∉ k.f.defsOf k.ids := by
  have old : ∀ {b v}, x.phiValue? b = some v → ∀ r ∈ v.reg?, r ∉ k.f.defsOf k.ids :=
    fun value r read => good.apart r (Site.takes mem found (Inst.mem_inflow value) r read)
  generalize hv : x.phiValue? k.source = v?, hw : x.phiValue? k.dest = w? at h
  cases h with
  | first => exact old hv
  | second => exact old hw
  | same => exact old hw
  | pick =>
    rintro r ⟨⟩ def'
    have low := good.table _ (List.mem_append_left _ def')
    exact Int.not_le.mpr low (Int.ofNat_le.mpr (Nat.le_add_right _ _))

/-- What was said of another phi still holds. -/
private theorem Answered.keep (good : k.Good) (h : Answered k left sh g j) (mem : j ∈ k.ids) (other : j ≠ i)
    (apart : ∀ q ∈ k.f.defsOf [j], q ∉ k.f.defsOf [i]) (member : i ∈ k.ids)
    (moves : Moves k i left sh g left' sh' g' τ) : Answered k left' sh' g' j := by
  obtain ⟨x, y, u?, found, here, rest, becomes, stays, copied, stands⟩ := h
  have clear : ∀ u : Operand, (∀ r ∈ u.reg?, r ∉ k.f.defsOf k.ids) → u.reread τ = u :=
    fun u out => Operand.reread_of_fixed fun r read => moves.fixes r fun def' =>
      out r read (defsOf_subset (by simpa using member) def')
  have defs : ∀ d ∈ x.defs, τ d = d := fun d def' => moves.fixes d
    (apart d (mem_defsOf.mpr ⟨j, by simp, x, found, def'⟩))
  refine ⟨x, y.reread τ, u?, found, moves.inst j other y here, ?_, ?_, (moves.left j other).trans stays,
    (moves.copies j other).trans copied, stands.mono moves.picks⟩
  · rw [rest, moves.σ, ← Inst.reread_reread]
    rfl
  · rw [moves.σ]
    cases becomes with
    | stays stays op inflow kept =>
      refine .stays stays op ?_ fun d def' => (congrArg τ (kept d def')).trans (defs d def')
      rw [Inst.inflow_reread, inflow]
      refine (List.map_congr_left fun p input => ?_).trans (List.map_id _)
      refine Prod.ext (clear p.1 ?_) rfl
      rcases List.mem_append.mp input with third | joined
      · exact fun r read => good.apart r (Site.takes mem found (List.mem_of_mem_filter third) r read)
      · obtain ⟨u, given, rfl⟩ := List.mem_map.mp joined
        rw [Option.mem_toList.mp given] at stands
        exact stands.clear good mem found
    | replaced gone op single read =>
      have fixed := clear _ (stands.clear good mem found)
      injection fixed with fixed
      exact .replaced gone op single ((congrArg τ read).trans fixed)
    | copied gone fixed op uses single kept =>
      refine .copied gone fixed op ?_ single ((congrArg τ kept).trans (defs _ (by simp [single])))
      simp [Inst.reread, uses, clear _ (stands.clear good mem found)]

private theorem Moves.plain (σ : sh'.σ = sh.σ) (inst : ∀ j ≠ i, ∀ y, g.inst j = .ok y → g'.inst j = .ok y)
    (stay : ∀ j ≠ i, (j ∈ left' ↔ j ∈ left)) (copies : ∀ j ≠ i, (j ∈ sh'.copies ↔ j ∈ sh.copies))
    (picks : sh.picks <+: sh'.picks) : Moves k i left sh g left' sh' g' id where
  σ := σ
  fixes _ _ := rfl
  inst j other y found := by rw [inst j other y found, Inst.reread_id]
  left := stay
  copies := copies
  picks := picks

private theorem Midway.choose {touched : List InstId} (v? w? : Option Operand) (st : State) (good : k.Good)
    (h : Midway k touched sh g) (here : st.procedure = g)
    (plain : ∀ u, u ∈ v? ∨ u ∈ w? → k.Takes u) :
    ∃ g' news picks u?, Chooses k.dest k.c st v? w? u? { st with procedure := g' } ∧
      Stands k.f.regs.size picks v? w? u? ∧
      Midway k touched { sh with news := news, picks := picks } g' ∧ sh.picks <+: picks ∧
      ∀ j y, g.inst j = .ok y → g'.inst j = .ok y := by
  subst here
  match v?, w? with
  | none, none => exact ⟨_, _, _, _, .neither, .neither, h, List.prefix_rfl, fun _ _ found => found⟩
  | some v, none => exact ⟨_, _, _, _, .first v, .first v, h, List.prefix_rfl, fun _ _ found => found⟩
  | none, some w => exact ⟨_, _, _, _, .second w, .second w, h, List.prefix_rfl, fun _ _ found => found⟩
  | some v, some w =>
    by_cases same : v = w
    · subst same
      exact ⟨_, _, _, _, .same v, .same v, h, List.prefix_rfl, fun _ _ found => found⟩
    · obtain ⟨g', n, run, later, old⟩ := h.select good ⟨plain v (.inl rfl), plain w (.inr rfl)⟩ rfl
      exact ⟨g', _, _, _, .select same run, .pick (by simp), later, List.prefix_append _ _, old⟩

/-- What is left of the phi `x` when its inputs from the two blocks are gone. -/
structure Pared (k : Site) (i : InstId) (left todo : List InstId) (sh : Shape) (g : Procedure)
    (x z : Inst) : Prop where
  found : k.f.inst i = .ok x
  here : g.inst i = .ok z
  rest : z = { x.reread sh.σ with op := z.op, uses := z.uses }
  op : z.op = .phi
  uses : z.uses = PhiInput.toUses z.phiInputs
  inflow : z.inflow = x.thirds k.dest k.source
  line : sh.line = left ++ i :: todo
  new : i ∉ left ++ todo
  kept : ∀ d ∈ x.defs, sh.σ d = d

/-- The work on the phi `i` is done, and the phis `todo` are still to come. -/
structure Concludes (k : Site) (i : InstId) (touched left todo : List InstId) (sh : Shape) (g : Procedure)
    (left' : List InstId) (sh' : Shape) (g' : Procedure) : Prop where
  line : sh'.line = left' ++ todo
  order : left'.Sublist (left ++ [i])
  midway : Midway k touched sh' g'
  moves : ∃ τ, Moves k i left sh g left' sh' g' τ
  answered : Answered k left' sh' g' i

section Conclusion

variable {touched todo : List InstId} {x z y : Inst} {u? : Option Operand} {st : State}

private theorem Pared.not_copy (t : Pared k i left todo sh g x z) (h : Midway k touched sh g) :
    i ∉ sh.copies := by
  intro mem
  exact absurd (t.op.symm.trans (h.copied mem t.here)) (by decide)

private theorem Pared.stay (t : Pared k i left todo sh g x z) (h : Midway k touched sh g')
    (stays : x.Stays k.dest k.source) (new : Replaces i y g g')
    (rest : y = { x.reread sh.σ with op := y.op, uses := y.uses }) (op : y.op = .phi)
    (inflow : y.inflow = x.thirds k.dest k.source ++ u?.toList.map (·, k.dest))
    (stands : Stands k.f.regs.size sh.picks (x.phiValue? k.source) (x.phiValue? k.dest) u?)
    (fresh : i ∉ sh.copies) : Concludes k i touched left todo sh g (left ++ [i]) sh g' where
  line := by rw [t.line, List.append_assoc]; rfl
  order := .refl _
  midway := h
  moves := ⟨id, .plain rfl (fun j other y found => by rw [new.inst, if_neg other, found])
    (fun j other => by simp [other]) (fun _ _ => .rfl) List.prefix_rfl⟩
  answered := ⟨x, y, u?, t.found, new.here, rest, .stays stays op inflow t.kept, by simp [stays],
    by simp [fresh, op], stands⟩

private theorem Pared.erase (good : k.Good) (t : Pared k i left todo sh g x z) (h : Midway k touched sh g) :
    i ∈ (g.blockAt k.s).code ∧ Midway k touched { sh with line := left ++ todo }
      (g.setCode k.s ((g.blockAt k.s).code.erase i)) := by
  obtain ⟨there, -⟩ := phis_ok good.phis
  have code := h.code k.s
  rw [if_pos rfl, t.line] at code
  have inner : left ++ i :: todo ++ sh.copies ⊆ k.ids := t.line ▸ h.inner
  have fewer : left ++ todo ⊆ left ++ i :: todo := by grind
  refine ⟨by simp [code], h.setCode there (fun j mem => inner (by grind)) (t.line ▸ fewer)
    (fun j mem y found => h.copied mem found) ?_⟩
  have first : i ∉ left := fun mem => t.new (List.mem_append_left _ mem)
  rw [code, List.append_assoc, List.append_assoc, List.append_assoc, List.erase_append_right _ first,
    List.cons_append, List.erase_cons_head]
  simp

private theorem yields_replacePhi {s : BlockId} {d : Reg} {v : Operand} {st' : State}
    (found : st.procedure.inst i = .ok z) (defs : z.defs = [d])
    (there : st.procedure.block s = .ok (st.procedure.blockAt s))
    (mem : i ∈ (st.procedure.blockAt s).code)
    (last : Yields (match v with
      | .reg r _ => edit fun f => .ok (f.replaceReg d r)
      | _ => do
        edit (·.updateInst i fun x => { x with op := .copy, uses := [v] })
        edit fun f => do f.placeAt s (← f.phis s).length i)
      { st with procedure := st.procedure.setCode s ((st.procedure.blockAt s).code.erase i) } () st') :
    Yields (replacePhi s i v) st () st' := by
  refine yields_bind.mpr ⟨z, st, yields_query.mpr ⟨found, rfl⟩, ?_⟩
  simp only [defs]
  refine yields_bind.mpr ⟨_, st, yields_query.mpr ⟨code_ok.mpr ⟨there, rfl⟩, rfl⟩, ?_⟩
  rw [if_pos mem]
  refine yields_bind.mpr ⟨(), _, yields_edit.mpr ⟨_, updateBlock_eq there _, rfl⟩, ?_⟩
  rw [mapBlock_congr (v := fun x => { x with code := (st.procedure.blockAt s).code.erase i }) there rfl]
  exact last

private theorem Pared.replace (good : k.Good) (t : Pared k i left todo sh g x z) (h : Midway k touched sh g)
    (member : i ∈ touched) {d r : Reg} {label : BlockId} (defs : x.defs = [d])
    (gone : ¬ x.Stays k.dest k.source)
    (stands : Stands k.f.regs.size sh.picks (x.phiValue? k.source) (x.phiValue? k.dest)
      (some (.reg r label))) (here : st.procedure = g) :
    ∃ left' sh' g', Yields (replacePhi k.s i (.reg r label)) st () { st with procedure := g' } ∧
      Concludes k i touched left todo sh g left' sh' g' := by
  subst here
  obtain ⟨mem, erased⟩ := t.erase good h
  have own : d ∈ k.f.defsOf [i] := mem_defsOf.mpr ⟨i, by simp, x, t.found, by simp [defs]⟩
  have inst : ∀ j y, st.procedure.inst j = .ok y → (((st.procedure.setCode k.s
      ((st.procedure.blockAt k.s).code.erase i)).replaceReg d r).inst j) =
        .ok (y.reread fun q => if q = d then r else q) :=
    fun j y found => inst_renamed ((inst_setCode _ _ _ _).trans found)
  refine ⟨left, _, _, yields_replacePhi t.here (by rw [t.rest]; exact defs)
    (h.block _ (phis_ok good.phis).1) mem (yields_edit.mpr ⟨_, rfl, rfl⟩), rfl,
    List.sublist_append_left _ _, erased.rename good (defsOf_subset (by simpa using member) own),
    ⟨_, rfl, fun q out => if_neg fun same : q = d => out (same ▸ own), fun j _ => inst j,
      fun _ _ => .rfl, fun _ _ => .rfl, List.prefix_rfl⟩,
    x, _, _, t.found, inst i z t.here, ?_, .replaced gone t.op defs ?_, ?_, ?_, stands⟩
  · nth_rewrite 1 [t.rest]
    rw [← Inst.reread_reread]
    rfl
  · simp [t.kept d (by simp [defs])]
  · exact iff_of_false (fun there => t.new (List.mem_append_left _ there)) gone
  · exact iff_of_false (t.not_copy h) fun copy => absurd (t.op.symm.trans copy) (by decide)

/-- The phi becomes a copy behind the phis. -/
private theorem Pared.copy (good : k.Good) (t : Pared k i left todo sh g x z) (h : Midway k touched sh g)
    (member : i ∈ touched) {d : Reg} {u : Operand} (fixed : u.reg? = none) (defs : x.defs = [d])
    (gone : ¬ x.Stays k.dest k.source)
    (stands : Stands k.f.regs.size sh.picks (x.phiValue? k.source) (x.phiValue? k.dest) (some u))
    (here : st.procedure = g) :
    ∃ left' sh' g', Yields (replacePhi k.s i u) st () { st with procedure := g' } ∧
      Concludes k i touched left todo sh g left' sh' g' := by
  subst here
  obtain ⟨there, -⟩ := phis_ok good.phis
  obtain ⟨mem, erased⟩ := t.erase good h
  obtain ⟨g₂, updated, new, copied⟩ := erased.update good member ((inst_setCode _ _ _ _).trans t.here)
    (u := fun x => { x with op := .copy, uses := [u] }) rfl (fun there => absurd there t.new) (t.not_copy h)
  let back := sh.copies ++ k.base k.s ++ if k.s = k.dest then sh.news ++ k.tail else []
  have code : (g₂.blockAt k.s).code = (left ++ todo) ++ back := by
    rw [copied.code, if_pos rfl]
    simp [back]
  have inst : ∀ code j, (g₂.setCode k.s code).inst j =
      if j = i then .ok { z with op := .copy, uses := [u] } else st.procedure.inst j :=
    fun code j => by rw [inst_setCode, new.inst, inst_setCode]
  refine ⟨left, { sh with line := left ++ todo, copies := i :: sh.copies },
    g₂.setCode k.s (left ++ todo ++ i :: back),
    yields_replacePhi t.here (by rw [t.rest]; exact defs) (h.block _ there) mem ?_, rfl,
    List.sublist_append_left _ _, copied.setCode there ?_ (List.Subset.refl _) ?_ (by simp [back]),
    ⟨id, ?_⟩, x, _, _, t.found, (inst _ i).trans (if_pos rfl), ?_, .copied gone fixed rfl rfl defs ?_, ?_, ?_,
    stands⟩
  · have last : Yields (do
        edit (·.updateInst i fun x => { x with op := .copy, uses := [u] })
        edit fun f => do f.placeAt k.s (← f.phis k.s).length i)
        { st with procedure := st.procedure.setCode k.s ((st.procedure.blockAt k.s).code.erase i) } ()
        { st with procedure := g₂.setCode k.s (left ++ todo ++ i :: back) } :=
      yields_bind.mpr ⟨(), _, yields_edit.mpr ⟨g₂, updated, rfl⟩, yields_edit.mpr
        ⟨_, bind_ok_iff.mpr ⟨_, copied.phis good, placeAt_eq (copied.block _ there) code i⟩, rfl⟩⟩
    cases u with
    | reg => cases fixed
    | imm | block => simpa using last
  · have old := copied.inner
    have := h.within member
    grind
  · intro j mem y found
    rcases List.mem_cons.mp mem with rfl | old
    · cases new.here.symm.trans found
      rfl
    · exact copied.copied old found
  · exact .plain rfl (fun j other y found => by rw [inst, if_neg other, found]) (fun _ _ => .rfl)
      (fun j other => by simp [other]) List.prefix_rfl
  · rw [t.rest]
  · exact t.kept d (by simp [defs])
  · exact iff_of_false (fun there => t.new (List.mem_append_left _ there)) gone
  · exact iff_of_true (List.mem_cons_self ..) rfl

private theorem Inst.inflow_addPhiInput (even : z.uses = PhiInput.toUses z.phiInputs) (u : Operand)
    (b : BlockId) :
    (z.addPhiInput u b).inflow = z.inflow ++ [(u, b)] := by
  have length : z.uses.length % 2 = 0 := by rw [even, PhiInput.length_toUses, Nat.mul_mod_right]
  simp [Inst.inflow, Inst.phiInputs, Inst.addPhiInput, PhiInput.ofUses_append length, PhiInput.source,
    Operand.blockId]

/-- The phi takes its value, or gives way to it. -/
private theorem Pared.settle (good : k.Good) (t : Pared k i left todo sh g x z) (h : Midway k touched sh g)
    (member : i ∈ touched)
    (stands : Stands k.f.regs.size sh.picks (x.phiValue? k.source) (x.phiValue? k.dest) u?)
    (st : State) (here : st.procedure = g) :
    ∃ left' sh' g', Yields (settle k.s k.dest i u?) st () { st with procedure := g' } ∧
      Concludes k i touched left todo sh g left' sh' g' := by
  obtain ⟨d, defs⟩ := List.length_eq_one_iff.mp (good.single x (mem_insts (h.within member) t.found)).1
  subst here
  cases u? with
  | none =>
    refine ⟨_, _, st.procedure, yields_pure.mpr ⟨rfl, rfl⟩, t.stay h (.inr ?_) (.refl t.here) t.rest t.op
      (by simpa using t.inflow) stands (t.not_copy h)⟩
    generalize x.phiValue? k.source = v?, x.phiValue? k.dest = w? at stands
    cases stands
    exact ⟨rfl, rfl⟩
  | some u =>
    by_cases empty : x.thirds k.dest k.source = []
    · have bare : z.uses.isEmpty = true := by
        rw [t.uses, List.map_eq_nil_iff.mp (t.inflow.trans empty)]
        rfl
      have gone : ¬ x.Stays k.dest k.source := by
        rintro (third | ⟨first, second⟩)
        · exact third empty
        · rw [first, second] at stands
          cases stands
      obtain ⟨left', sh', g', run, settles⟩ : ∃ left' sh' g',
          Yields (replacePhi k.s i u) st () { st with procedure := g' } ∧
            Concludes k i touched left todo sh st.procedure left' sh' g' := by
        cases u with
        | reg => exact t.replace good h member defs gone stands rfl
        | imm | block => exact t.copy good h member rfl defs gone stands rfl
      refine ⟨left', sh', g', yields_bind.mpr ⟨z, st, yields_query.mpr ⟨t.here, rfl⟩, ?_⟩, settles⟩
      rwa [if_pos bare]
    · have full : ¬ z.uses.isEmpty = true := by
        intro bare
        apply empty
        rw [← t.inflow, Inst.inflow, Inst.phiInputs, List.isEmpty_iff.mp bare]
        rfl
      obtain ⟨g', updated, new, later⟩ := h.update good member t.here (u := Inst.addPhiInput u k.dest)
        (by rw [Inst.isWriter, Inst.addPhiInput, t.op]; rfl) (fun _ => t.op) (t.not_copy h)
      refine ⟨_, _, g', yields_bind.mpr ⟨z, st, yields_query.mpr ⟨t.here, rfl⟩, ?_⟩,
        t.stay later (.inl empty) new ?_ t.op ?_ stands (t.not_copy h)⟩
      · rw [if_neg full]
        exact yields_edit.mpr ⟨g', updated, rfl⟩
      · rw [t.rest]
        rfl
      · rw [Inst.inflow_addPhiInput t.uses, t.inflow]
        rfl

end Conclusion

structure Going (k : Site) (done left todo : List InstId) (sh : Shape) (g : Procedure) : Prop where
  ids : k.ids = done ++ todo
  line : sh.line = left ++ todo
  order : left.Sublist done
  midway : Midway k done sh g
  answers : ∀ j ∈ done, Answered k left sh g j

section Run

variable {done todo : List InstId} {st : State}

private theorem Going.apart (good : k.Good) (h : Going k done left (i :: todo) sh g) :
    (∀ q ∈ k.f.defsOf [i], q ∉ k.f.defsOf done) ∧ i ∉ done ++ todo := by
  have nodup := good.nodup
  rw [h.ids, List.append_cons, defsOf_append, defsOf_append, List.nodup_append'] at nodup
  obtain ⟨first, -, second⟩ := nodup
  have ahead := (List.nodup_append'.mp first).2.2
  obtain ⟨x, found, -⟩ := good.phi (i := i) (by simp [h.ids])
  obtain ⟨d, defs⟩ := List.length_eq_one_iff.mp (good.single x (mem_insts (by simp [h.ids]) found)).1
  have own : ∀ l, i ∈ l → d ∈ k.f.defsOf l :=
    fun l there => mem_defsOf.mpr ⟨i, there, x, found, by simp [defs]⟩
  refine ⟨fun q mem there => ahead there mem, fun mem => ?_⟩
  rcases List.mem_append.mp mem with old | new
  · exact ahead (own _ old) (own _ (by simp))
  · exact second (List.mem_append_right _ (own _ (by simp))) (own _ new)

private theorem Going.step (good : k.Good) (h : Going k done left (i :: todo) sh g)
    (here : st.procedure = g) :
    ∃ left' sh' g', Yields (joinPhi k.s k.dest k.source k.c i) st () { st with procedure := g' } ∧
      Going k (done ++ [i]) left' todo sh' g' := by
  subst here
  have mem : i ∈ k.ids := by simp [h.ids]
  have member : i ∈ done ++ [i] := by simp
  obtain ⟨apart, new⟩ := h.apart good
  obtain ⟨x, found, op⟩ := good.phi mem
  obtain ⟨-, sources⟩ := good.single x (mem_insts mem found)
  -- what the phi takes is not replaced, so that it reads now what it read before
  have values : ∀ p ∈ x.inflow, p.1.reread sh.σ = p.1 := fun p input => Operand.reread_of_fixed
    fun r read => h.midway.fixes r fun def' => good.apart r (Site.takes mem found input r read)
      (defsOf_subset h.midway.within def')
  let now := x.reread sh.σ
  have inflow : now.inflow = x.inflow := by
    rw [Inst.inflow_reread]
    refine (List.map_congr_left fun p input => ?_).trans (List.map_id _)
    exact Prod.ext (values p input) rfl
  have value : ∀ b, lastValue? b now.phiInputs = x.phiValue? b := by
    intro b
    rw [lastValue?_eq, Inst.phiValue?_reread]
    · cases taken : x.phiValue? b with
      | none => rfl
      | some v => exact congrArg some (values _ (Inst.mem_inflow taken))
    · have same : now.phiInputs.map PhiInput.source = x.phiInputs.map PhiInput.source := by
        simpa [Inst.inflow, Function.comp_def] using congrArg (List.map Prod.snd) inflow
      exact same ▸ sources
  let trim := fun y : Inst => { y with uses := PhiInput.toUses (now.phiInputs.filter fun x =>
    decide (x.source ≠ k.source) && decide (x.source ≠ k.dest)) }
  have current := h.midway.inst i (fun old => new (List.mem_append_left _ old)) x found
  have fresh : i ∉ sh.copies := fun copy =>
    absurd ((h.midway.copied copy current).symm.trans op) (by decide)
  obtain ⟨g₁, updated, trimmed, midway₁⟩ := (h.midway.touch mem).update good member current (u := trim)
    (by rw [Inst.isWriter]; exact op ▸ rfl) (fun _ => op) fresh
  obtain ⟨g₂, news, picks, u?, chooses, stands, midway₂, more, old⟩ := midway₁.choose
    (x.phiValue? k.source) (x.phiValue? k.dest) { st with procedure := g₁ } good rfl
    (by rintro u (value | value) <;> exact Site.takes mem found (Inst.mem_inflow value))
  have t : Pared k i left todo { sh with news := news, picks := picks } g₂ x (trim now) :=
    { found, line := h.line
      here := old _ _ trimmed.here
      rest := rfl
      op := op
      uses := congrArg PhiInput.toUses (PhiInput.ofUses_toUses _).symm
      inflow := by
        rw [Inst.thirds, ← inflow, Inst.inflow, Inst.inflow, List.filter_map]
        exact congrArg _ (PhiInput.ofUses_toUses _)
      new := fun there => new (List.append_subset.mpr ⟨fun _ left => List.mem_append_left _
        (h.order.subset left), List.subset_append_right _ _⟩ there)
      kept := fun d def' => h.midway.fixes d (apart d (mem_defsOf.mpr ⟨i, by simp, x, found, def'⟩)) }
  obtain ⟨left', sh', g', run, settles⟩ := t.settle good midway₂ member stands
    { st with procedure := g₂ } rfl
  refine ⟨left', sh', g', yields_joinPhi good.other good.cond current updated ?_ run, ?_, settles.line,
    settles.order.trans (h.order.append_right _), settles.midway, fun j there => ?_⟩
  · rw [value, value]
    exact chooses
  · rw [h.ids, List.append_cons]
  · rcases List.mem_append.mp there with before | own
    · have other : j ≠ i := fun same => new (List.mem_append_left _ (same ▸ before))
      have away : ∀ q ∈ k.f.defsOf [j], q ∉ k.f.defsOf [i] := fun q def' mine =>
        apart q mine (defsOf_subset (by simpa using before) def')
      have inner := h.midway.within before
      have moves : Moves k i left sh st.procedure left { sh with news := news, picks := picks } g₂ id :=
        .plain rfl (fun j other y found =>
          old j y (by rw [trimmed.inst, if_neg other, found])) (fun _ _ => .rfl) (fun _ _ => .rfl) more
      obtain ⟨τ, last⟩ := settles.moves
      exact ((h.answers j before).keep good inner other away mem moves).keep good inner other away mem last
    · rw [List.mem_singleton.mp own]
      exact settles.answered

private theorem Going.run (good : k.Good) (h : Going k done left todo sh g) (here : st.procedure = g) :
    ∃ left' sh' g', Yields (todo.forM (joinPhi k.s k.dest k.source k.c)) st () { st with procedure := g' } ∧
      Going k k.ids left' [] sh' g' := by
  induction todo generalizing done left sh g st with
  | nil => exact ⟨left, sh, g, yields_pure.mpr ⟨rfl, here ▸ rfl⟩, (by simpa using h.ids : k.ids = done) ▸ h⟩
  | cons i todo ih =>
    obtain ⟨left₁, sh₁, g₁, first, next⟩ := h.step good here
    obtain ⟨left', sh', g', rest, last⟩ := ih next (show State.procedure { st with procedure := g₁ } = g₁ from rfl)
    exact ⟨left', sh', g', yields_bind.mpr ⟨(), _, first, rest⟩, last⟩

end Run

end Answers

private theorem exists_exits {f : Procedure} (code : List InstId) (found : f.Found code) :
    ∃ front back, code = front ++ back ∧
      (∀ j ∈ front.getLast?, ∃ x, f.inst j = .ok x ∧ x.isWriter = true) ∧
      ∀ j ∈ back, ∃ x, f.inst j = .ok x ∧ x.isWriter = false := by
  induction code using List.reverseRecOn with
  | nil => exact ⟨[], [], rfl, by simp, by simp⟩
  | append_singleton code i ih =>
    obtain ⟨x, there⟩ := found i (by simp)
    cases writer : x.isWriter with
    | true => exact ⟨code ++ [i], [], by simp, by simpa using ⟨x, there, writer⟩, by simp⟩
    | false =>
      obtain ⟨front, back, rfl, last, exits⟩ := ih fun j mem => found j (List.mem_append_left _ mem)
      refine ⟨front, back ++ [i], by simp, last, fun j mem => ?_⟩
      rcases List.mem_append.mp mem with old | new
      · exact exits j old
      · exact List.mem_singleton.mp new ▸ ⟨x, there, writer⟩

private theorem exists_parts {f : Procedure} {s dest source : BlockId} {c : Condition} {ids : List InstId}
    (h : f.Joinable s dest source c ids) : ∃ base tail, f.Parts s dest ids base tail := by
  obtain ⟨-, front⟩ := phis_ok h.phis
  obtain ⟨rest, split, -, first⟩ := leadingPhis_ok front
  let body := fun a => if a = s then rest else (f.blockAt a).code
  have whole : ∀ a, (f.blockAt a).code = (if a = s then ids else []) ++ body a := by
    intro a
    simp only [body]
    split
    · rename_i here
      rw [here, split]
    · rfl
  obtain ⟨front, back, cut, last, exits⟩ := exists_exits (body dest) fun j mem => by
    have found := h.found j (by rw [whole]; exact List.mem_append_right _ mem)
    obtain ⟨x, there⟩ := Option.isSome_iff_exists.mp found
    exact ⟨x, inst?_eq_some.mp there⟩
  refine ⟨fun a => if a = dest then front else body a, back, fun a => ?_, fun j mem => ?_,
    by simpa using last, exits⟩
  · rw [whole, List.append_assoc]
    congr 1
    split
    · rename_i here
      rw [here, cut]
    · simp
  · have own : body s = rest := if_pos rfl
    refine first j ?_
    rw [← own]
    split at mem
    · rename_i same
      rw [same, cut, List.head?_append, Option.mem_def.mp mem]
      rfl
    · exact mem

private theorem Midway.brings {touched : List InstId} {sh : Shape} {g : Procedure} {v? w? u? : Option Operand}
    (good : k.Good) (h : Midway k touched sh g) (d : Datapath)
    (plain : ∀ u, u ∈ v? ∨ u ∈ w? → k.Takes u)
    (stands : Stands k.f.regs.size sh.picks v? w? u?) : k.f.Brings d g sh.news k.c v? w? u? := by
  intro V m label st
  have code : sh.news.filterMap g.inst? = selects k.c k.f.regs.size sh.picks := by
    have news := h.news
    generalize sh.news = ids, selects k.c k.f.regs.size sh.picks = insts at news ⊢
    induction news with
    | nil => rfl
    | cons here _ ih => rw [List.filterMap_cons_some (inst?_eq_some.mpr here.2), ih]
  have low : ∀ r ∈ k.f.valueRegs k.ids k.c, r < k.f.regs.size :=
    fun r mem => good.table r (List.mem_append_right _ mem)
  obtain ⟨after, ran, same, values⟩ := performAll_selects d g m label (Nat.le_refl k.f.regs.size)
    (fun t mem => low _ (List.mem_append_right _ (List.mem_map_of_mem mem)))
    (fun p mem => ⟨fun r read => low r ((h.plain p mem).1 r read),
      fun r read => low r ((h.plain p mem).2 r read)⟩) st
  have reading : ∀ u, u ∈ v? ∨ u ∈ w? →
      m.reading label after.file u = m.reading label st.file u := by
    intro u value
    cases u with
    | reg r _ => exact same r (low r (plain _ value r rfl))
    | imm | block => rfl
  refine ⟨after, code ▸ ran, same, ?_⟩
  cases stands with
  | neither => rfl
  | first v => exact congrArg some (reading v (.inl rfl))
  | second w => exact congrArg some (reading w (.inr rfl))
  | same v => simp [chosen, reading v (.inl rfl)]
  | pick here => exact congrArg some (values _ _ _ here)

/-- Where the inputs of phis from two blocks are joined, each phi takes the value that it took before: from
the block that stays it takes the value of a select that tells the two blocks apart, a register or constant
is read in place of a phi without other inputs, and no phi that comes later is disturbed by this. -/
theorem joinPhis_values {f : Procedure} {s dest source : BlockId} {c : Condition} {ids : List InstId}
    (joinable : f.Joinable s dest source c ids) (distinct : f.Distinct c ids) (d : Datapath) (st : State)
    (here : st.procedure = f) :
    ∃ g left copies news σ, Yields (joinPhis s dest source c) st () { st with procedure := g } ∧
      f.PhisJoined d s dest source c ids g left copies news σ := by
  obtain ⟨base, tail, parts⟩ := exists_parts joinable
  let k : Site := { f, s, dest, source, c, ids, base, tail }
  have good : k.Good := { joinable, distinct, parts with }
  have start : Going k [] [] ids { line := ids } f :=
    ⟨rfl, rfl, .slnil, .start good, by simp⟩
  obtain ⟨left, sh, g, run, last⟩ := start.run good here
  have line : sh.line = left := by simpa using last.line
  refine ⟨g, left, sh.copies, sh.news, sh.σ, yields_bind.mpr ⟨ids, st, yields_query.mpr
    ⟨here ▸ joinable.phis, rfl⟩, run⟩,
    { phis := line ▸ last.midway.phis good
      order := last.order
      code := ⟨base, tail, parts, line ▸ last.midway.code⟩
      each := fun i mem => ?_
      copied := fun j mem => last.midway.inner (List.mem_append_right _ mem)
      others := last.midway.inst
      live := last.midway.live
      fixes := last.midway.fixes }⟩
  obtain ⟨x, y, u?, found, there, rest, becomes, stays, copied, stands⟩ := last.answers i mem
  refine ⟨x, y, u?, found, there, rest, becomes, stays, copied, last.midway.brings good d ?_ stands⟩
  rintro u (value | value) <;> exact Site.takes (k := k) mem found (Inst.mem_inflow value)

/-- A phi with values from the first two blocks and maybe others. -/
def joining (d : Reg) (v w : Operand) (others : List Operand := []) : Inst where
  op := .phi
  defs := [d]
  uses := [v, .block 0, w, .block 1] ++ others

/-- A block where two others meet in phis. -/
def meeting (phis : List Inst) (regs : Array String) : Procedure where
  name := "meeting"
  blocks := #[{ id := 0, name := "H" }, { id := 1, name := "T" },
    { id := 2, name := "N", code := (List.range phis.length).map Int.ofNat }]
  insts := phis.toArray
  regs := regs

def mixed : Procedure :=
  meeting [joining 5 (.reg 1) (.reg 2), joining 6 (.reg 3) (.reg 4) [.reg 1, .block 3],
    joining 7 (.imm 3) (.imm 3)] #["c", "a", "b", "x", "y", "p", "q", "k"]

theorem joinPhis_values_mixed :
    mixed.Joinable 2 0 1 [⟨0, false⟩] [0, 1, 2] ∧ mixed.Distinct [⟨0, false⟩] [0, 1, 2] ∧
      ∃ g left copies news σ, Yields (joinPhis 2 0 1 [⟨0, false⟩]) (blank mixed) () (blank g) ∧
        mixed.PhisJoined .standard 2 0 1 [⟨0, false⟩] [0, 1, 2] g left copies news σ := by
  have joinable : mixed.Joinable 2 0 1 [⟨0, false⟩] [0, 1, 2] := by constructor <;> decide
  have distinct : mixed.Distinct [⟨0, false⟩] [0, 1, 2] := by constructor <;> decide
  exact ⟨joinable, distinct, joinPhis_values joinable distinct .standard (blank mixed) rfl⟩

/-- Two phis define one register. -/
def twins : Procedure :=
  meeting [joining 5 (.reg 1) (.reg 2), joining 5 (.reg 3) (.reg 4)] #["c", "a", "b", "x", "y", "d"]

/-- The second phi takes a register that the table gets for the first. -/
def stray : Procedure :=
  meeting [joining 3 (.reg 1) (.reg 2), joining 4 (.reg 1) (.reg 5)] #["c", "a", "b", "p", "q"]

def counting : Machine Int where
  constant _ := 0
  isTrue _ := true
  undefined := 0
  choose _ := 0
  result _ _ := 0

/-- What is read in place of a phi that has values from two blocks only, where each register holds its
own number. -/
private theorem taken_of_phisJoined {f g : Procedure} {d : Datapath} {ids left copies news : List InstId}
    {σ : Reg → Reg} (h : f.PhisJoined d 2 0 1 [⟨0, false⟩] ids g left copies news σ) {i : InstId}
    (mem : i ∈ ids) {p v w : Reg} (found : f.inst i = .ok (joining p (.reg v) (.reg w))) (other : w ≠ 0) :
    ∃ after, d.performAll g counting (fun _ => 0) (news.filterMap g.inst?) ⟨id, []⟩ = .on after ∧
      after.file (σ p) = w := by
  obtain ⟨x, y, u?, there, -, -, becomes, -, -, brings⟩ := h.each i mem
  cases found.symm.trans there
  obtain ⟨after, ran, -, value⟩ := brings Int counting (fun _ => 0) ⟨id, []⟩
  have value : u?.map (counting.reading (fun _ => 0) after.file) = some w := value
  refine ⟨after, ran, ?_⟩
  cases becomes with
  | stays stays => exact absurd stays (by simp [Inst.Stays]; exact ⟨rfl, fun none => nomatch none⟩)
  | replaced gone op defs read =>
    cases defs
    rw [read]
    exact Option.some.inj value
  | @copied _ u _ gone fixed =>
    cases u with
    | reg => cases fixed
    | imm | block => exact absurd (Option.some.inj value).symm other

/-- Phis that define the same register are not told apart, and a select may overwrite a register that is
not in the table. -/
theorem joinPhis_clash :
    (twins.Joinable 2 0 1 [⟨0, false⟩] [0, 1] ∧ ¬ ∃ g left copies news σ,
      Yields (joinPhis 2 0 1 [⟨0, false⟩]) (blank twins) () (blank g) ∧
        twins.PhisJoined .standard 2 0 1 [⟨0, false⟩] [0, 1] g left copies news σ) ∧
    stray.Joinable 2 0 1 [⟨0, false⟩] [0, 1] ∧ ¬ ∃ g left copies news σ,
      Yields (joinPhis 2 0 1 [⟨0, false⟩]) (blank stray) () (blank g) ∧
        stray.PhisJoined .standard 2 0 1 [⟨0, false⟩] [0, 1] g left copies news σ := by
  refine ⟨⟨by constructor <;> decide, ?_⟩, by constructor <;> decide, ?_⟩
  · rintro ⟨g, left, copies, news, σ, -, joined⟩
    obtain ⟨after, ran, first⟩ := taken_of_phisJoined joined (i := 0) (by simp) rfl (by decide)
    obtain ⟨after', ran', second⟩ := taken_of_phisJoined joined (i := 1) (by simp) rfl (by decide)
    cases ran.symm.trans ran'
    exact absurd (first.symm.trans second) (by decide)
  · rintro ⟨g, left, copies, news, σ, run, joined⟩
    obtain rfl : g = ((joinPhis 2 0 1 [⟨0, false⟩]).run (blank stray)).2.procedure := by rw [run]; rfl
    obtain ⟨base, tail, parts, code⟩ := joined.code
    have before : [] = base 0 ++ tail := parts.code 0
    have selects : (((joinPhis 2 0 1 [⟨0, false⟩]).run (blank stray)).2.procedure.blockAt 0).code =
        [2, 3] := by
      decide +kernel
    have insts : [2, 3].filterMap ((joinPhis 2 0 1 [⟨0, false⟩]).run (blank stray)).2.procedure.inst? =
      Conversion.selects [⟨0, false⟩] 5 [(.reg 2, .reg 1), (.reg 5, .reg 1)] := by
      decide +kernel
    obtain ⟨empty, rfl⟩ := List.append_eq_nil_iff.mp before.symm
    obtain rfl : [2, 3] = news := by simpa [empty, selects] using code 0
    obtain ⟨after, ran, second⟩ := taken_of_phisJoined joined (i := 1) (by simp) rfl (by decide)
    rw [insts] at ran
    injection ran with ran
    rw [← ran] at second
    change (if σ 4 ∈ [6] then (2 : Int) else if σ 4 ∈ [5] then 2 else σ 4) = 5 at second
    grind

end Conversion

end Predication
