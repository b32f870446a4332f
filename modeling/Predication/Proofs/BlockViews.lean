import Predication.Procedure.Edit
import Predication.Proofs.FlowEdges

/-!
Procedures as total maps: an id that names no block stands for a removed one, and the code of a block
is read as its instructions. What the edits of a procedure do is said in these terms, once for each
of them.
-/

set_option autoImplicit false
set_option relaxedAutoImplicit false

namespace Predication

theorem bind_ok_iff {α β ε : Type} {x : Except ε α} {k : α → Except ε β} {y : β} :
    (x >>= k) = .ok y ↔ ∃ a, x = .ok a ∧ k a = .ok y := by
  cases x with
  | error e =>
    constructor
    · intro h
      cases h
    · rintro ⟨a, h, -⟩
      cases h
  | ok a =>
    constructor
    · intro h
      exact ⟨a, rfl, h⟩
    · rintro ⟨b, h, h'⟩
      cases h
      exact h'

theorem map_ok_iff {α β ε : Type} {x : Except ε α} {k : α → β} {y : β} :
    x.map k = .ok y ↔ ∃ a, x = .ok a ∧ k a = y := by
  cases x <;> simp [Except.map]

theorem run_bind {α β ε σ : Type} (m : ExceptT ε (StateM σ) α) (k : α → ExceptT ε (StateM σ) β) (st : σ) :
    (m >>= k).run st = match m.run st with
      | (.ok a, mid) => (k a).run mid
      | (.error e, mid) => (.error e, mid) := by
  change (ExceptT.bindCont k (m.run st).1 : StateM σ (Except ε β)) (m.run st).2 = _
  rcases m.run st with ⟨e | a, mid⟩ <;> rfl

/-- A step and then another one end in a state that is good if the first one stops early in such a
state, and the second one always ends in one. -/
theorem state_bind {α β ε σ : Type} {m : ExceptT ε (StateM σ) α} {k : α → ExceptT ε (StateM σ) β} {st : σ}
    {P : σ → Prop} (stop : P (m.run st).2) (onward : ∀ a, P ((k a).run (m.run st).2).2) :
    P ((m >>= k).run st).2 := by
  rw [run_bind]
  generalize m.run st = first at *
  rcases first with ⟨e | a, mid⟩
  · exact stop
  · exact onward a

theorem run_bind_ok {α β ε σ : Type} {m : ExceptT ε (StateM σ) α} {k : α → ExceptT ε (StateM σ) β} {b : β}
    {st st' : σ} :
    (m >>= k).run st = (.ok b, st') ↔ ∃ a mid, m.run st = (.ok a, mid) ∧ (k a).run mid = (.ok b, st') := by
  rw [run_bind]
  rcases m.run st with ⟨e | a, mid⟩
  · constructor
    · intro h
      cases h
    · rintro ⟨a, mid', h, -⟩
      cases h
  · constructor
    · intro h
      exact ⟨a, mid, rfl, h⟩
    · rintro ⟨a', mid', h, h'⟩
      cases h
      exact h'

namespace Procedure

/-- The block that an id names; one that names none stands for a removed block. -/
def blockAt (f : Procedure) (b : BlockId) : Block :=
  match f.block b with
  | .ok blk => blk
  | .error _ => { id := b, name := "", dead := true }

/-- The instruction that an id names, if it names one. -/
def inst? (f : Procedure) (i : InstId) : Option Inst := (f.inst i).toOption

/-- The instructions of a block. -/
def instsAt (f : Procedure) (b : BlockId) : List Inst := (f.blockAt b).code.filterMap f.inst?

variable {f g : Procedure} {b c s : BlockId} {blk : Block} {i j : InstId} {x : Inst}

theorem blockAt_eq (h : f.block b = .ok blk) : f.blockAt b = blk := by
  simp only [blockAt, h]

theorem blockAt_none (h : ¬ (0 ≤ b ∧ b < f.blocks.size)) :
    f.blockAt b = { id := b, name := "", dead := true } := by
  unfold blockAt block
  rw [Arena.get_error.mpr ⟨rfl, h⟩]

theorem block_of_live (live : (f.blockAt b).dead = false) : f.block b = .ok (f.blockAt b) := by
  unfold blockAt at live ⊢
  cases h : f.block b with
  | ok x => rfl
  | error e =>
    simp only [h] at live
    cases live

theorem inst?_eq_some : f.inst? i = some x ↔ f.inst i = .ok x := by
  unfold inst?
  cases f.inst i <;> simp [Except.toOption]

theorem mem_instsAt : x ∈ f.instsAt b ↔ ∃ i ∈ (f.blockAt b).code, f.inst i = .ok x := by
  simp only [instsAt, List.mem_filterMap, inst?_eq_some]

/-- The procedure with the code of one block set anew. -/
def setCode (f : Procedure) (b : BlockId) (code : List InstId) : Procedure :=
  f.mapBlock b fun x => { x with code := code }

theorem blockAt_congr (h : g.blocks = f.blocks) (b : BlockId) : g.blockAt b = f.blockAt b := by
  unfold blockAt block
  rw [h]

theorem blockAt_mapBlock (found : f.block b = .ok blk) (u : Block → Block) (c : BlockId) :
    (f.mapBlock b u).blockAt c = if c = b then u (f.blockAt c) else f.blockAt c := by
  by_cases same : c = b
  · rw [if_pos same, same, blockAt_eq found]
    refine blockAt_eq ?_
    rw [block_mapBlock, if_pos rfl, found]
    rfl
  · rw [if_neg same]
    unfold blockAt
    rw [block_mapBlock, if_neg same]

theorem updateBlock_ok {u : Block → Block} (h : f.updateBlock b u = .ok g) :
    f.block b = .ok (f.blockAt b) ∧ g = f.mapBlock b u := by
  have found : ∃ blk, f.block b = .ok blk := by
    obtain ⟨blocks, updated, -⟩ := bind_ok_iff.mp h
    exact Arena.get_range.mpr (Arena.update_eq_ok.mp updated).1
  obtain ⟨blk, found⟩ := found
  rw [updateBlock_eq found] at h
  rw [blockAt_eq found]
  exact ⟨found, (Except.ok.inj h).symm⟩

theorem block_mapBlock_ok {u : Block → Block} (found : f.block c = .ok blk) :
    (f.mapBlock b u).block c = .ok (if c = b then u blk else blk) := by
  rw [block_mapBlock, found]
  split <;> rfl

theorem updateInst_ok {u : Inst → Inst} (h : f.updateInst i u = .ok g) :
    (∃ x, f.inst i = .ok x) ∧ (∀ j, g.inst j = if j = i then (f.inst j).map u else f.inst j) ∧
      g.insts.size = f.insts.size ∧ g = { f with insts := g.insts } := by
  obtain ⟨insts, updated, same⟩ := bind_ok_iff.mp h
  cases same
  exact ⟨Arena.get_range.mpr (Arena.update_eq_ok.mp updated).1, Arena.get_update updated,
    Arena.size_update updated, rfl⟩

theorem updateInst_gives (found : f.inst i = .ok x) (u : Inst → Inst) :
    ∃ g, f.updateInst i u = .ok g ∧ g.blocks = f.blocks ∧ g.layout = f.layout ∧
      g.sharing = f.sharing ∧ ∀ j, g.inst j = if j = i then (f.inst j).map u else f.inst j := by
  have range := Arena.get_range.mp ⟨x, found⟩
  have updated : Arena.update f.insts i u = .ok (f.insts.modify i.toNat u) :=
    Arena.update_eq_ok.mpr ⟨range, rfl⟩
  have run : f.updateInst i u = .ok { f with insts := f.insts.modify i.toNat u } := by
    rw [updateInst, updated]
    rfl
  obtain ⟨-, inst, -, -⟩ := updateInst_ok run
  exact ⟨_, run, rfl, rfl, rfl, inst⟩

structure Replaces (i : InstId) (y : Inst) (f g : Procedure) : Prop where
  blocks : g.blocks = f.blocks
  layout : g.layout = f.layout
  regs : g.regs = f.regs
  inst : ∀ j, g.inst j = if j = i then .ok y else f.inst j

theorem Replaces.refl (found : f.inst i = .ok x) : Replaces i x f f :=
  ⟨rfl, rfl, rfl, fun j => by split <;> simp_all⟩

theorem Replaces.trans {k : Procedure} {y z : Inst} (h : Replaces i y f g) (h' : Replaces i z g k) :
    Replaces i z f k where
  blocks := h'.blocks.trans h.blocks
  layout := h'.layout.trans h.layout
  regs := h'.regs.trans h.regs
  inst j := by
    rw [h'.inst]
    split
    · rfl
    · rename_i other
      rw [h.inst, if_neg other]

theorem Replaces.here {y : Inst} (h : Replaces i y f g) : g.inst i = .ok y := by
  rw [h.inst, if_pos rfl]

theorem replaces_updateInst {u : Inst → Inst} (found : f.inst i = .ok x)
    (h : f.updateInst i u = .ok g) : Replaces i (u x) f g := by
  obtain ⟨-, view, -, same⟩ := updateInst_ok h
  refine ⟨by rw [same], by rw [same], by rw [same], fun j => ?_⟩
  rw [view]
  split
  · rename_i here
    rw [here, found]
    rfl
  · rfl

private theorem updateEnds_ok {u v : Block → Block}
    (h : (do (← f.updateBlock b u).updateBlock s v) = .ok g) :
    f.block s = .ok (f.blockAt s) ∧ g = (f.mapBlock b u).mapBlock s v := by
  obtain ⟨k, first, h⟩ := bind_ok_iff.mp h
  obtain ⟨found, rfl⟩ := updateBlock_ok first
  obtain ⟨there, rfl⟩ := updateBlock_ok h
  refine ⟨?_, rfl⟩
  rw [block_mapBlock] at there
  split at there
  · rename_i same
    rw [same]
    exact found
  · rw [there, blockAt_eq there]

theorem addSucc_ok (h : f.addSucc b s = .ok g) :
    f.block b = .ok (f.blockAt b) ∧ ((s ∈ (f.blockAt b).succs ∧ g = f) ∨
      s ∉ (f.blockAt b).succs ∧ f.block s = .ok (f.blockAt s) ∧
        g = (f.mapBlock b fun x => { x with succs := x.succs ++ [s] }).mapBlock s
          fun x => { x with preds := x.preds ++ [b] }) := by
  obtain ⟨there, asked, h⟩ := bind_ok_iff.mp h
  obtain ⟨blk, found, answer⟩ := bind_ok_iff.mp asked
  rw [blockAt_eq found]
  refine ⟨found, ?_⟩
  cases answer
  by_cases mem : s ∈ blk.succs
  · rw [if_pos (by simpa using mem)] at h
    exact Or.inl ⟨mem, (Except.ok.inj h).symm⟩
  · rw [if_neg (by simpa using mem)] at h
    exact Or.inr ⟨mem, updateEnds_ok h⟩

theorem removeSucc_ok (h : f.removeSucc b s = .ok g) :
    f.block b = .ok (f.blockAt b) ∧ ((s ∉ (f.blockAt b).succs ∧ g = f) ∨
      s ∈ (f.blockAt b).succs ∧ f.block s = .ok (f.blockAt s) ∧
        g = (f.mapBlock b fun x => { x with succs := x.succs.erase s }).mapBlock s
          fun x => { x with preds := x.preds.erase b }) := by
  obtain ⟨there, asked, h⟩ := bind_ok_iff.mp h
  obtain ⟨blk, found, answer⟩ := bind_ok_iff.mp asked
  rw [blockAt_eq found]
  refine ⟨found, ?_⟩
  cases answer
  by_cases mem : s ∈ blk.succs
  · rw [if_pos (by simpa using mem)] at h
    exact Or.inr ⟨mem, updateEnds_ok h⟩
  · rw [if_neg (by simpa using mem)] at h
    exact Or.inl ⟨mem, (Except.ok.inj h).symm⟩

theorem code_ok {code : List InstId} :
    f.code b = .ok code ↔ f.block b = .ok (f.blockAt b) ∧ code = (f.blockAt b).code := by
  constructor
  · intro h
    obtain ⟨blk, found, same⟩ := bind_ok_iff.mp h
    rw [blockAt_eq found]
    exact ⟨found, (Except.ok.inj same).symm⟩
  · rintro ⟨found, rfl⟩
    simp only [code, found]
    rfl

theorem upTo_ok {α : Type} {xs ys : List α} {i : Int} :
    Arena.upTo xs i = .ok ys ↔ (0 ≤ i ∧ i ≤ xs.length) ∧ ys = xs.take i.toNat := by
  unfold Arena.upTo
  split
  · rename_i inside
    simp [inside, eq_comm]
  · rename_i outside
    simp [outside]

theorem since_ok {α : Type} {xs ys : List α} {i : Int} :
    Arena.since xs i = .ok ys ↔ (0 ≤ i ∧ i ≤ xs.length) ∧ ys = xs.drop i.toNat := by
  unfold Arena.since
  split
  · rename_i inside
    simp [inside, eq_comm]
  · rename_i outside
    simp [outside]

theorem mapBlock_congr {u v : Block → Block} (found : f.block b = .ok blk) (same : u blk = v blk) :
    f.mapBlock b u = f.mapBlock b v := by
  refine ext_block ?_ ?_ ?_ ?_ ?_ fun c => ?_
  · simp only [name_mapBlock]
  · simp only [insts_mapBlock]
  · simp only [layout_mapBlock]
  · simp only [regs_mapBlock]
  · simp only [sharing_mapBlock]
  · rw [block_mapBlock, block_mapBlock]
    split
    · rename_i here
      rw [here, found]
      exact congrArg Except.ok same
    · rfl

theorem placeLast_ok (h : f.placeLast b i = .ok g) :
    f.block b = .ok (f.blockAt b) ∧ g = f.setCode b ((f.blockAt b).code ++ [i]) := by
  obtain ⟨found, rfl⟩ := updateBlock_ok h
  exact ⟨found, mapBlock_congr found rfl⟩

theorem placeAt_ok {pos : Int} (h : f.placeAt b pos i = .ok g) :
    f.block b = .ok (f.blockAt b) ∧ (0 ≤ pos ∧ pos ≤ (f.blockAt b).code.length) ∧
      g = f.setCode b
        ((f.blockAt b).code.take pos.toNat ++ i :: (f.blockAt b).code.drop pos.toNat) := by
  obtain ⟨code, asked, h⟩ := bind_ok_iff.mp h
  obtain ⟨found, rfl⟩ := code_ok.mp asked
  obtain ⟨before, upTo, h⟩ := bind_ok_iff.mp h
  obtain ⟨after, since, h⟩ := bind_ok_iff.mp h
  obtain ⟨inside, rfl⟩ := upTo_ok.mp upTo
  obtain ⟨-, rfl⟩ := since_ok.mp since
  obtain ⟨-, rfl⟩ := updateBlock_ok h
  exact ⟨found, inside, rfl⟩

theorem placeAt_eq {front back : List InstId} (found : f.block b = .ok (f.blockAt b))
    (split : (f.blockAt b).code = front ++ back) (i : InstId) :
    f.placeAt b front.length i = .ok (f.setCode b (front ++ i :: back)) := by
  refine bind_ok_iff.mpr ⟨_, code_ok.mpr ⟨found, rfl⟩, ?_⟩
  have inside : (0 : Int) ≤ front.length ∧ (front.length : Int) ≤ (f.blockAt b).code.length := by
    rw [split, List.length_append]
    omega
  refine bind_ok_iff.mpr ⟨_, upTo_ok.mpr ⟨inside, rfl⟩, bind_ok_iff.mpr ⟨_, since_ok.mpr ⟨inside, rfl⟩, ?_⟩⟩
  rw [updateBlock_eq found, split, Int.toNat_natCast, List.take_left, List.drop_left]
  rfl

theorem eraseCode_ok {k l : Int} (h : f.eraseCode b k l = .ok g) :
    f.block b = .ok (f.blockAt b) ∧ (0 ≤ k ∧ k ≤ (f.blockAt b).code.length) ∧
      (0 ≤ l ∧ l ≤ (f.blockAt b).code.length) ∧
      g = f.setCode b ((f.blockAt b).code.take k.toNat ++ (f.blockAt b).code.drop l.toNat) := by
  obtain ⟨code, asked, h⟩ := bind_ok_iff.mp h
  obtain ⟨found, rfl⟩ := code_ok.mp asked
  obtain ⟨before, upTo, h⟩ := bind_ok_iff.mp h
  obtain ⟨after, since, h⟩ := bind_ok_iff.mp h
  obtain ⟨inside, rfl⟩ := upTo_ok.mp upTo
  obtain ⟨inside', rfl⟩ := since_ok.mp since
  obtain ⟨-, rfl⟩ := updateBlock_ok h
  exact ⟨found, inside, inside', rfl⟩

theorem moveCode_ok {l : Int} (other : s ≠ b) (h : f.moveCode b s 0 l = .ok g) :
    f.block b = .ok (f.blockAt b) ∧ f.block s = .ok (f.blockAt s) ∧
      (0 ≤ l ∧ l ≤ (f.blockAt s).code.length) ∧
      g = (f.setCode b ((f.blockAt b).code ++ (f.blockAt s).code.take l.toNat)).setCode s
        ((f.blockAt s).code.drop l.toNat) := by
  obtain ⟨code, asked, h⟩ := bind_ok_iff.mp h
  obtain ⟨found, rfl⟩ := code_ok.mp asked
  obtain ⟨before, upTo, h⟩ := bind_ok_iff.mp h
  obtain ⟨moved, since, h⟩ := bind_ok_iff.mp h
  obtain ⟨inside, rfl⟩ := upTo_ok.mp upTo
  obtain ⟨-, rfl⟩ := since_ok.mp since
  obtain ⟨k, placed, h⟩ := bind_ok_iff.mp h
  obtain ⟨there, rfl⟩ := updateBlock_ok placed
  obtain ⟨-, -, -, rfl⟩ := eraseCode_ok h
  refine ⟨there, found, inside, ?_⟩
  rw [blockAt_mapBlock there, if_neg other]
  have code : (f.mapBlock b fun x => { x with code :=
      x.code ++ ((f.blockAt s).code.take l.toNat).drop (0 : Int).toNat }) =
      f.setCode b ((f.blockAt b).code ++ (f.blockAt s).code.take l.toNat) :=
    mapBlock_congr there rfl
  rw [code]
  rfl

theorem blockAt_replaceReg (f : Procedure) (d r : Reg) (a : BlockId) :
    (f.replaceReg d r).blockAt a =
      { f.blockAt a with liveIn := (f.blockAt a).liveIn.map fun q => if q = d then r else q } := by
  unfold blockAt block replaceReg
  simp only [Arena.get_map]
  cases Arena.get f.blocks a <;> rfl

theorem inst_replaceReg (f : Procedure) (d r : Reg) (i : InstId) :
    (f.replaceReg d r).inst i = (f.inst i).map (Inst.renameReads d r) :=
  Arena.get_map f.insts _ i

theorem inst_addInst {y : Inst} (h : f.inst i = .ok x) : (f.addInst y).1.inst i = .ok x :=
  Arena.get_push h y

theorem phis_ok {ids : List InstId} (h : f.phis b = .ok ids) :
    f.block b = .ok (f.blockAt b) ∧ f.leadingPhis (f.blockAt b).code = .ok ids := by
  obtain ⟨code, asked, h⟩ := bind_ok_iff.mp h
  obtain ⟨found, rfl⟩ := code_ok.mp asked
  exact ⟨found, h⟩

theorem leadingPhis_ok {code ids : List InstId} (h : f.leadingPhis code = .ok ids) :
    ∃ rest, code = ids ++ rest ∧ (∀ i ∈ ids, ∃ x, f.inst i = .ok x ∧ x.op = .phi) ∧
      ∀ i ∈ rest.head?, ∃ x, f.inst i = .ok x ∧ x.op ≠ .phi := by
  induction code generalizing ids with
  | nil =>
    cases h
    exact ⟨[], rfl, by simp, by simp⟩
  | cons i code ih =>
    obtain ⟨x, found, h⟩ := bind_ok_iff.mp h
    by_cases phi : x.op = .phi
    · rw [if_pos phi] at h
      obtain ⟨more, front, h⟩ := bind_ok_iff.mp h
      cases h
      obtain ⟨rest, rfl, phis, other⟩ := ih front
      refine ⟨rest, rfl, ?_, other⟩
      intro j hj
      rcases List.mem_cons.mp hj with rfl | hj
      · exact ⟨x, found, phi⟩
      · exact phis j hj
    · rw [if_neg phi] at h
      cases h
      exact ⟨i :: code, rfl, by simp, by simpa using ⟨x, found, phi⟩⟩

theorem leadingPhis_eq {front back : List InstId}
    (phis : ∀ j ∈ front, ∃ x, f.inst j = .ok x ∧ x.op = .phi)
    (head : ∀ j ∈ back.head?, ∃ x, f.inst j = .ok x ∧ x.op ≠ .phi) :
    f.leadingPhis (front ++ back) = .ok front := by
  induction front with
  | nil =>
    cases back with
    | nil => rfl
    | cons j back =>
      obtain ⟨x, found, other⟩ := head j rfl
      exact bind_ok_iff.mpr ⟨x, found, by rw [if_neg other]; rfl⟩
  | cons j front ih =>
    obtain ⟨⟨x, found, phi⟩, later⟩ := List.forall_mem_cons.mp phis
    refine bind_ok_iff.mpr ⟨x, found, ?_⟩
    rw [if_pos phi]
    exact bind_ok_iff.mpr ⟨front, ih later, rfl⟩

end Procedure

end Predication
