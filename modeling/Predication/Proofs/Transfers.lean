import Predication.Proofs.CodeSteps
import Predication.Proofs.Retouching
import Predication.Proofs.Untouched

/-!
Instructions that are followed through a conversion. Only where two blocks are joined do they move;
all other steps leave them in their block and in their order, and change no more about them than the
registers that a replaced phi had set. Such a phi stood in a block that was joined to the head, or in
one that such a block led to.
-/

set_option autoImplicit false
set_option relaxedAutoImplicit false

namespace Predication

/-- What is read for a register, where the second register of each pair is read in place of the first, one
pair after the other. -/
def readAs (names : List (Reg × Reg)) (r : Reg) : Reg :=
  names.foldl (fun r p => if r = p.1 then p.2 else r) r

private theorem readAs_concat (names : List (Reg × Reg)) (d r : Reg) :
    readAs (names ++ [(d, r)]) = (fun q => if q = d then r else q) ∘ readAs names := by
  funext q
  rw [readAs, List.foldl_append]
  rfl

namespace Procedure

def PhiAt (f : Procedure) (i : InstId) : Prop := ∃ x, f.inst i = .ok x ∧ x.op = .phi

def PhiNear (f : Procedure) (near : BlockId → Prop) (y : Inst) : Prop :=
  ∃ a i, near a ∧ i ∈ (f.blockAt a).code ∧ f.inst i = .ok y ∧ y.op = .phi

def Homed (f : Procedure) (b : BlockId) (near : BlockId → Prop) (a : BlockId) (i : InstId) : Prop :=
  i ∈ (f.blockAt a).code ∨ a = b ∧ ∃ c, near c ∧ i ∈ (f.blockAt c).code

private theorem Homed.near {f : Procedure} {a b : BlockId} {near : BlockId → Prop} {i : InstId}
    (h : Homed f b near a i) (here : near a) : ∃ c, near c ∧ i ∈ (f.blockAt c).code := by
  rcases h with mem | ⟨-, there⟩
  · exact ⟨a, here, mem⟩
  · exact there

/-- What comes of the phi `y`: one of its inputs, as it is read by then, or what a select chooses from what
comes of the phi. The select was added to the head `b`, and its register may be read as another one too. -/
inductive Drawn (f g : Procedure) (b : BlockId) (names : List (Reg × Reg)) (y : Inst) : Operand → Prop
  | input {p : PhiInput} (mem : p ∈ y.phiInputs) : Drawn f g b names y (p.value.reread (readAs names))
  | select {i : InstId} {z : Inst} {r : Reg} {v w : Operand} {later : List (Reg × Reg)}
      (added : ∀ x, f.inst i ≠ .ok x) (here : i ∈ (g.blockAt b).code) (found : g.inst i = .ok z)
      (op : z.op = .sel) (defs : z.defs = [r]) (uses : z.uses = [v, w]) (first : Drawn f g b names y v)
      (second : Drawn f g b names y w) (suffix : later <:+ names) :
      Drawn f g b names y (.reg (readAs later r))

/-- Only a register that a phi of the blocks `near` sets is read as another one, and that one comes of the
phi. -/
structure Sourced (f g : Procedure) (b : BlockId) (near : BlockId → Prop) (names : List (Reg × Reg)) :
    Prop where
  sets : ∀ p ∈ names, ∃ y, f.PhiNear near y ∧ p.1 ∈ y.defs
  reads : ∀ r, readAs names r = r ∨ ∃ y, f.PhiNear near y ∧ r ∈ y.defs ∧
    ∃ label, Drawn f g b names y (.reg (readAs names r) label)

def KeepsAdded (f : Procedure) (b : BlockId) (g g' : Procedure) : Prop :=
  ∀ i z, (∀ x, f.inst i ≠ .ok x) → i ∈ (g.blockAt b).code → g.inst i = .ok z →
    i ∈ (g'.blockAt b).code ∧ g'.inst i = .ok z

private theorem mem_take_cons_drop {l : List InstId} {i j : InstId} (n : Nat) (mem : j ∈ l) :
    j ∈ l.take n ++ i :: l.drop n := by
  rw [← List.take_append_drop n l] at mem
  exact List.mem_append.mpr ((List.mem_append.mp mem).imp_right (List.mem_cons_of_mem i))

section Drawing

variable {f g g' : Procedure} {b : BlockId} {near : BlockId → Prop} {names : List (Reg × Reg)} {y : Inst}
  {v : Operand}

theorem Drawn.mono (h : Drawn f g b names y v) (keeps : KeepsAdded f b g g') : Drawn f g' b names y v := by
  induction h with
  | input mem => exact .input mem
  | select added here found op defs uses _ _ suffix first second =>
    obtain ⟨here, found⟩ := keeps _ _ added here found
    exact .select added here found op defs uses first second suffix

theorem Sourced.mono (h : Sourced f g b near names) (keeps : KeepsAdded f b g g') :
    Sourced f g' b near names := by
  refine ⟨h.sets, fun r => ?_⟩
  rcases h.reads r with same | ⟨y, phi, sets, label, drawn⟩
  · exact .inl same
  · exact .inr ⟨y, phi, sets, label, drawn.mono keeps⟩

theorem Drawn.of_start {f' : Procedure} (h : Drawn f g b names y v)
    (old : ∀ i x, f'.inst i = .ok x → ∃ y, f.inst i = .ok y) : Drawn f' g b names y v := by
  induction h with
  | input mem => exact .input mem
  | select added here found op defs uses _ _ suffix first second =>
    refine .select (fun x there => ?_) here found op defs uses first second suffix
    obtain ⟨y, there⟩ := old _ x there
    exact added y there

theorem Sourced.of_start {f' : Procedure} (h : Sourced f g b near names)
    (old : ∀ i x, f'.inst i = .ok x → ∃ y, f.inst i = .ok y)
    (phis : ∀ y, f.PhiNear near y → f'.PhiNear near y) : Sourced f' g b near names := by
  refine ⟨fun p mem => ?_, fun r => ?_⟩
  · obtain ⟨y, phi, sets⟩ := h.sets p mem
    exact ⟨y, phis y phi, sets⟩
  · rcases h.reads r with same | ⟨y, phi, sets, label, drawn⟩
    · exact .inl same
    · exact .inr ⟨y, phis y phi, sets, label, drawn.of_start old⟩

theorem Drawn.replaceReg (h : Drawn f g b names y v) (d r : Reg) :
    Drawn f (g.replaceReg d r) b (names ++ [(d, r)]) y (v.reread fun q => if q = d then r else q) := by
  induction h with
  | input mem =>
    rw [Operand.reread_reread, ← readAs_concat]
    exact .input mem
  | @select i z q v w later added here found op defs uses _ _ suffix first second =>
    obtain ⟨earlier, rfl⟩ := suffix
    have renamed : (g.replaceReg d r).inst i = .ok (z.renameReads d r) := by rw [inst_replaceReg, found]; rfl
    have uses : (z.renameReads d r).uses =
        [v.reread fun q => if q = d then r else q, w.reread fun q => if q = d then r else q] := by
      simp [Inst.renameReads, uses, Operand.renameReg_eq]
    have suffix : later ++ [(d, r)] <:+ earlier ++ later ++ [(d, r)] :=
      ⟨earlier, (List.append_assoc _ _ _).symm⟩
    have read := Drawn.select added (by rwa [blockAt_replaceReg]) renamed op defs uses first second suffix
    rwa [readAs_concat] at read

theorem Sourced.replaceReg {d r : Reg} {label : BlockId} (h : Sourced f g b near names)
    (phi : f.PhiNear near y) (sets : d ∈ y.defs) (drawn : Drawn f g b names y (.reg r label)) :
    Sourced f (g.replaceReg d r) b near (names ++ [(d, r)]) := by
  refine ⟨fun p mem => ?_, fun q => ?_⟩
  · rcases List.mem_append.mp mem with former | new
    · exact h.sets p former
    · rw [List.mem_singleton.mp new]
      exact ⟨y, phi, sets⟩
  rw [readAs_concat, Function.comp_apply]
  rcases h.reads q with same | ⟨y', phi', sets', label', drawn'⟩
  · rw [same]
    by_cases here : q = d
    · have drawn := drawn.replaceReg d r
      simp only [Operand.reread, ite_self] at drawn
      rw [if_pos here]
      exact .inr ⟨y, phi, here ▸ sets, label, drawn⟩
    · exact .inl (if_neg here)
  · exact .inr ⟨y', phi', sets', label', drawn'.replaceReg d r⟩

private theorem keepsAdded_updateInst {i : InstId} {u : Inst → Inst} (b : BlockId) (phi : f.PhiAt i)
    (updated : g.updateInst i u = .ok g') : KeepsAdded f b g g' := by
  obtain ⟨-, view, -, same⟩ := updateInst_ok updated
  obtain ⟨y, old, -⟩ := phi
  intro j z added here found
  have other : j ≠ i := fun here => added y (here ▸ old)
  rw [view, if_neg other, blockAt_congr (by rw [same])]
  exact ⟨here, found⟩

private theorem keepsAdded_erase {a : BlockId} {i : InstId} (phi : f.PhiAt i)
    (erased : g.updateBlock a (fun x => { x with code := x.code.erase i }) = .ok g') :
    KeepsAdded f b g g' := by
  obtain ⟨block, rfl⟩ := updateBlock_ok erased
  obtain ⟨y, old, -⟩ := phi
  intro j z added here found
  refine ⟨?_, (congrArg (Arena.get · j) (insts_mapBlock g a _)).trans found⟩
  rw [blockAt_mapBlock block]
  split
  · rename_i same
    have other : j ≠ i := fun gone => added y (gone ▸ old)
    exact (List.mem_erase_of_ne other).mpr (same ▸ here)
  · exact here

private theorem insert_view {a : BlockId} {i : InstId} {x : Inst} {pos : Int}
    (inserted : g.insert a pos x = .ok (g', i)) :
    (g.addInst x).2 = i ∧ g'.inst i = .ok x ∧ i ∈ (g'.blockAt a).code ∧
      (∀ j z, g.inst j = .ok z → g'.inst j = .ok z) ∧ ∀ j ∈ (g.blockAt a).code, j ∈ (g'.blockAt a).code := by
  obtain ⟨k, placed, same⟩ := bind_ok_iff.mp inserted
  cases same
  obtain ⟨block, -, rfl⟩ := placeAt_ok placed
  refine ⟨rfl, ?_, ?_, fun j z found => ?_, fun j mem => ?_⟩
  · rw [inst_setCode]
    exact Arena.get_push_size _ _
  · simp [code_setCode block]
  · rw [inst_setCode]
    exact inst_addInst found
  · rw [code_setCode block, if_pos rfl]
    change j ∈ ((g.addInst x).1.blockAt a).code at mem
    exact mem_take_cons_drop pos.toNat mem

end Drawing

/-- The instructions `ids` of `f`, none of them a phi, stand in `g` in the blocks and in the order that
`places` tells. They are as they were, but for registers that phis of the blocks `near` had set, and
these are read as `names` tells. Code and edges have come to the head `b` only, and phis from the blocks
`near` only. What a phi still takes comes of the phi that it was. -/
structure Follows (f : Procedure) (b : BlockId) (near : BlockId → Prop) (ids : List InstId)
    (names : List (Reg × Reg)) (places : BlockId → List InstId) (g : Procedure) : Prop where
  plain : ∀ i ∈ ids, ∃ x, f.inst i = .ok x ∧ x.op ≠ .phi
  renamed : ∀ i ∈ ids, g.inst i = (f.inst i).map (Inst.reread (readAs names))
  sourced : Sourced f g b near names
  values : ∀ i x y, f.inst i = .ok y → y.op = .phi → g.inst i = .ok x →
    ∀ p ∈ x.phiInputs, Drawn f g b names y p.value
  phi : ∀ i, g.PhiAt i → f.PhiAt i
  defs : ∀ i x, f.inst i = .ok x → ∃ y, g.inst i = .ok y ∧ y.defs = x.defs
  places : ∀ c, (g.blockAt c).code.filter (· ∈ ids) = places c
  homed : ∀ a i, i ∈ (g.blockAt a).code → f.PhiAt i → Homed f b near a i
  succs : ∀ a, a ≠ b → (g.blockAt a).succs ⊆ (f.blockAt a).succs

namespace Follows

variable {f g g' : Procedure} {near : BlockId → Prop} {ids : List InstId} {names : List (Reg × Reg)}
  {places : BlockId → List InstId} {a b s : BlockId} {i : InstId} {x : Inst}

theorem refl (plain : ∀ i ∈ ids, ∃ x, f.inst i = .ok x ∧ x.op ≠ .phi) :
    Follows f b near ids [] (fun c => (f.blockAt c).code.filter (· ∈ ids)) f where
  plain := plain
  renamed i _ := by
    cases f.inst i with
    | error e => rfl
    | ok x => exact congrArg Except.ok x.reread_id.symm
  sourced := ⟨nofun, fun _ => .inl rfl⟩
  values i x y found _ there p mem := by
    cases found.symm.trans there
    exact p.value.reread_id ▸ .input mem
  phi _ phi := phi
  defs _ x found := ⟨x, found, rfl⟩
  places _ := rfl
  homed _ _ mem _ := .inl mem
  succs _ _ := List.Subset.refl _

private theorem not_mem (h : Follows f b near ids names places g) (phi : f.PhiAt i) : i ∉ ids := by
  intro mem
  obtain ⟨x, found, other⟩ := h.plain i mem
  obtain ⟨y, there, phi⟩ := phi
  cases found.symm.trans there
  exact other phi

theorem insts_places (h : Follows f b near ids names places g) (a : BlockId) :
    (places a).filterMap g.inst? = ((places a).filterMap f.inst?).map (Inst.reread (readAs names)) := by
  rw [List.map_filterMap]
  refine List.filterMap_congr fun i mem => ?_
  rw [← h.places] at mem
  rw [inst?, h.renamed i (by simpa using List.of_mem_filter mem), inst?]
  cases f.inst i <;> rfl

private theorem of_insts (h : Follows f b near ids names places g) (inst : ∀ i, g'.inst i = g.inst i)
    {places' : BlockId → List InstId}
    (code : ∀ c, (g'.blockAt c).code.filter (· ∈ ids) = places' c)
    (homed : ∀ a i, i ∈ (g'.blockAt a).code → f.PhiAt i → Homed f b near a i)
    (kept : ∀ i, (∀ x, f.inst i ≠ .ok x) → i ∈ (g.blockAt b).code → i ∈ (g'.blockAt b).code)
    (succs : ∀ a, a ≠ b → (g'.blockAt a).succs ⊆ (g.blockAt a).succs) :
    Follows f b near ids names places' g' := by
  have keeps : KeepsAdded f b g g' := fun i z added here found =>
    ⟨kept i added here, (inst i).trans found⟩
  refine ⟨h.plain, fun i mem => (inst i).trans (h.renamed i mem), h.sourced.mono keeps,
    fun i x y found phi there p mem => ?_, fun i phi => h.phi i ?_, fun i x found => ?_, code, homed,
    fun a other => List.Subset.trans (succs a other) (h.succs a other)⟩
  · exact (h.values i x y found phi ((inst i).symm.trans there) p mem).mono keeps
  · unfold PhiAt at phi ⊢
    rwa [← inst]
  · rw [inst]
    exact h.defs i x found

private theorem of_same (h : Follows f b near ids names places g) (same : SameCode g g')
    (succs : ∀ a, a ≠ b → (g'.blockAt a).succs ⊆ (g.blockAt a).succs) :
    Follows f b near ids names places g' :=
  h.of_insts same.inst (fun c => by rw [same.code, h.places])
    (fun a i mem => h.homed a i (same.code a ▸ mem)) (fun _ _ here => same.code b ▸ here) succs

private theorem setCode (h : Follows f b near ids names places g) (block : g.block a = .ok (g.blockAt a))
    {code : List InstId} (same : code.filter (· ∈ ids) = (g.blockAt a).code.filter (· ∈ ids))
    (homed : ∀ i ∈ code, f.PhiAt i → Homed f b near a i)
    (kept : ∀ i, (∀ x, f.inst i ≠ .ok x) → i ∈ (g.blockAt a).code → i ∈ code) :
    Follows f b near ids names places (g.setCode a code) := by
  refine h.of_insts (inst_setCode g a code) (fun c => ?_) (fun c i mem phi => ?_)
    (fun i added here => ?_) fun c _ => ?_
  · rw [code_setCode block, ← h.places]
    split
    · rename_i here
      rw [same, here]
    · rfl
  · rw [code_setCode block] at mem
    split at mem
    · rename_i here
      rw [here]
      exact homed i mem phi
    · exact h.homed c i mem phi
  · rw [code_setCode block]
    split
    · rename_i head
      exact kept i added (head ▸ here)
    · exact here
  · rw [(sameLinks_setCode block code).succs]
    exact List.Subset.refl _

private theorem addInst (h : Follows f b near ids names places g) (other : x.op ≠ .phi) :
    Follows f b near ids names places (g.addInst x).1 := by
  have keeps : KeepsAdded f b g (g.addInst x).1 := fun i z _ here found => ⟨here, inst_addInst found⟩
  refine ⟨h.plain, fun i mem => ?_, h.sourced.mono keeps, fun i z y found phi there p mem => ?_,
    fun i phi => ?_, fun i y found => ?_, h.places, h.homed, h.succs⟩
  · obtain ⟨y, found, -⟩ := h.plain i mem
    have here := h.renamed i mem
    rw [found] at here ⊢
    exact inst_addInst here
  · obtain ⟨z', there', -⟩ := h.defs i y found
    cases there.symm.trans (inst_addInst there')
    exact (h.values i z y found phi there' p mem).mono keeps
  · obtain ⟨y, found, phi⟩ := phi
    rcases Arena.get_push_cases found with ⟨-, rfl⟩ | found
    · exact absurd phi other
    · exact h.phi i ⟨y, found, phi⟩
  · obtain ⟨z, there, defs⟩ := h.defs i y found
    exact ⟨z, inst_addInst there, defs⟩

private theorem inst_new (h : Follows f b near ids names places g) (x y : Inst) : f.inst
    (g.addInst x).2 ≠ .ok y := by
  intro found
  obtain ⟨z, there, -⟩ := h.defs _ y found
  obtain ⟨-, below⟩ := Arena.get_range.mp ⟨z, there⟩
  exact absurd below (by simp [Procedure.addInst])

private theorem new_not_mem (h : Follows f b near ids names places g) (x : Inst) : (g.addInst x).2 ∉ ids := by
  intro mem
  obtain ⟨y, found, -⟩ := h.plain _ mem
  exact h.inst_new x y found

private theorem new_not_phi (h : Follows f b near ids names places g) (x : Inst) : ¬ f.PhiAt
    (g.addInst x).2 := by
  rintro ⟨y, found, -⟩
  exact h.inst_new x y found

private theorem erase (h : Follows f b near ids names places g) (phi : f.PhiAt i)
    (erased : g.updateBlock a (fun x => { x with code := x.code.erase i }) = .ok g') :
    Follows f b near ids names places g' := by
  obtain ⟨block, rfl⟩ := updateBlock_ok erased
  rw [mapBlock_congr (v := fun x => { x with code := (g.blockAt a).code.erase i }) block rfl]
  refine h.setCode block ?_ (fun j mem => h.homed a j (List.mem_of_mem_erase mem)) fun j added here => ?_
  · by_cases mem : i ∈ (g.blockAt a).code
    · obtain ⟨front, back, -, code, left⟩ := List.exists_erase_eq mem
      rw [left, code, List.filter_append, List.filter_append,
        List.filter_cons_of_neg (by simpa using h.not_mem phi)]
    · rw [List.erase_of_not_mem mem]
  · refine (List.mem_erase_of_ne fun same => ?_).mpr here
    obtain ⟨y, found, -⟩ := phi
    exact added y (same ▸ found)

private theorem placeAt {pos : Int} (h : Follows f b near ids names places g) (away : i ∉ ids)
    (home : f.PhiAt i → Homed f b near a i) (placed : g.placeAt a pos i = .ok g') :
    Follows f b near ids names places g' := by
  obtain ⟨block, -, rfl⟩ := placeAt_ok placed
  refine h.setCode block ?_ (fun j mem phi => ?_) fun j _ here => mem_take_cons_drop pos.toNat here
  · rw [List.filter_append, List.filter_cons_of_neg (by simpa using away), ← List.filter_append,
      List.take_append_drop]
  · rcases List.mem_append.mp mem with mem | mem
    · exact h.homed a j (List.mem_of_mem_take mem) phi
    · rcases List.mem_cons.mp mem with rfl | mem
      · exact home phi
      · exact h.homed a j (List.mem_of_mem_drop mem) phi

private theorem insert {pos : Int} (h : Follows f b near ids names places g) (other : x.op ≠ .phi)
    (inserted : g.insert a pos x = .ok (g', i)) : Follows f b near ids names places g' := by
  obtain ⟨k, placed, same⟩ := bind_ok_iff.mp inserted
  cases same
  exact (h.addInst other).placeAt (h.new_not_mem x) (fun phi => absurd phi (h.new_not_phi x)) placed

private theorem append (h : Follows f b near ids names places g) (other : x.op ≠ .phi)
    (appended : g.append a x = .ok (g', i)) : Follows f b near ids names places g' := by
  obtain ⟨block, rfl, rfl⟩ := append_ok appended
  refine (h.addInst other).setCode block ?_ (fun j mem phi => ?_) fun j _ here =>
    List.mem_append_left _ here
  · rw [List.filter_append, List.filter_cons_of_neg (by simpa using h.new_not_mem x), List.filter_nil,
      List.append_nil]
    rfl
  · rcases List.mem_append.mp mem with mem | mem
    · exact h.homed a j mem phi
    · rw [List.mem_singleton.mp mem] at phi
      exact absurd phi (h.new_not_phi x)

/-- What a phi takes may change to something else that comes of it. -/
private theorem updateInst {u : Inst → Inst} (h : Follows f b near ids names places g) (phi : f.PhiAt i)
    (updated : g.updateInst i u = .ok g') (defs : ∀ x, (u x).defs = x.defs)
    (op : ∀ x, (u x).op = .phi → x.op = .phi)
    (values : ∀ x y, f.inst i = .ok y → g.inst i = .ok x →
      ∀ p ∈ (u x).phiInputs, Drawn f g b names y p.value) :
    Follows f b near ids names places g' := by
  obtain ⟨-, view, -, same⟩ := updateInst_ok updated
  have blocks : g'.blocks = g.blocks := by rw [same]
  have keeps := keepsAdded_updateInst b phi updated
  refine ⟨h.plain, fun j mem => ?_, h.sourced.mono keeps, fun j z y found isPhi there p mem => ?_,
    fun j phi => ?_, fun j x found => ?_, fun c => ?_, fun c j mem => ?_, fun c => ?_⟩
  · have other : j ≠ i := fun here => h.not_mem phi (here ▸ mem)
    rw [view, if_neg other, h.renamed j mem]
  · rw [view] at there
    split at there
    · rename_i here
      subst here
      obtain ⟨x, before, rfl⟩ := map_ok_iff.mp there
      exact (values x y found before p mem).mono keeps
    · exact (h.values j z y found isPhi there p mem).mono keeps
  · obtain ⟨y, found, phi⟩ := phi
    rw [view] at found
    split at found
    · obtain ⟨z, there, rfl⟩ := map_ok_iff.mp found
      exact h.phi j ⟨z, there, op z phi⟩
    · exact h.phi j ⟨y, found, phi⟩
  · obtain ⟨y, there, same⟩ := h.defs j x found
    rw [view, there]
    split
    · exact ⟨u y, rfl, (defs y).trans same⟩
    · exact ⟨y, rfl, same⟩
  · rw [blockAt_congr blocks, h.places]
  · rw [blockAt_congr blocks] at mem
    exact h.homed c j mem
  · rw [blockAt_congr blocks]
    exact h.succs c

/-- The register of a phi is read as what comes of the phi. -/
theorem replaceReg {d r : Reg} {y : Inst} {label : BlockId} (h : Follows f b near ids names places g)
    (phi : f.PhiNear near y) (sets : d ∈ y.defs) (drawn : Drawn f g b names y (.reg r label)) :
    Follows f b near ids (names ++ [(d, r)]) places (g.replaceReg d r) := by
  refine ⟨h.plain, fun j mem => ?_, h.sourced.replaceReg phi sets drawn,
    fun j z y found isPhi there p mem => ?_, fun j phi => ?_, fun j x found => ?_, fun c => ?_,
    fun c j mem => ?_, fun c => ?_⟩
  · rw [inst_replaceReg, h.renamed j mem, readAs_concat]
    cases f.inst j with
    | error e => rfl
    | ok x =>
      refine congrArg Except.ok ?_
      rw [Inst.renameReads_eq, Inst.reread_reread]
  · rw [inst_replaceReg] at there
    obtain ⟨x, before, rfl⟩ := map_ok_iff.mp there
    rw [Inst.renameReads_eq, Inst.phiInputs_reread] at mem
    obtain ⟨q, former, rfl⟩ := List.mem_map.mp mem
    exact (h.values j x y found isPhi before q former).replaceReg d r
  · obtain ⟨y, found, phi⟩ := phi
    rw [inst_replaceReg] at found
    obtain ⟨z, there, rfl⟩ := map_ok_iff.mp found
    exact h.phi j ⟨z, there, phi⟩
  · obtain ⟨y, there, same⟩ := h.defs j x found
    rw [inst_replaceReg, there]
    exact ⟨y.renameReads d r, rfl, same⟩
  · rw [blockAt_replaceReg, h.places]
  · rw [blockAt_replaceReg] at mem
    exact h.homed c j mem
  · rw [blockAt_replaceReg]
    exact h.succs c

private theorem phis (h : Follows f b near ids names places g) {phis : List InstId}
    (asked : g.phis a = .ok phis) :
    ∀ i ∈ phis, f.PhiAt i ∧ Homed f b near a i := by
  obtain ⟨-, leading⟩ := phis_ok asked
  obtain ⟨rest, code, phi, -⟩ := leadingPhis_ok leading
  intro i mem
  have phi := h.phi i (phi i mem)
  exact ⟨phi, h.homed a i (code ▸ List.mem_append_left rest mem) phi⟩

private theorem removeSucc (h : Follows f b near ids names places g) (removed : g.removeSucc a s = .ok g') :
    Follows f b near ids names places g' := by
  obtain ⟨known, ⟨-, rfl⟩ | ⟨-, known', rfl⟩⟩ := removeSucc_ok removed
  · exact h
  · refine h.of_same
      (sameCode_ends known known' (fun _ => ⟨rfl, rfl⟩) (fun _ => ⟨rfl, rfl⟩) fun _ => ⟨rfl, rfl⟩)
      fun c _ => ?_
    rw [blockAt_mapBlock (block_mapBlock_ok (b := a) (u := fun x => { x with succs := x.succs.erase s })
      known'), blockAt_mapBlock known]
    split <;> split
    · exact List.erase_subset
    · exact List.Subset.refl _
    · exact List.erase_subset
    · exact List.Subset.refl _

private theorem addSucc (h : Follows f b near ids names places g) (added : g.addSucc b s = .ok g') :
    Follows f b near ids names places g' := by
  obtain ⟨same, succs, -⟩ := addSucc_view added
  refine h.of_same same fun c other => ?_
  rw [succs, if_neg fun here => other here.1]
  exact List.Subset.refl _

private theorem removePhiInputs {p : BlockId} (h : Follows f b near ids names places g)
    (removed : g.removePhiInputs a p = .ok g') : Follows f b near ids names places g' := by
  obtain ⟨phis, asked, updates⟩ := bind_ok_iff.mp removed
  have all := h.phis asked
  clear asked removed
  induction phis generalizing g with
  | nil =>
    cases updates
    exact h
  | cons i phis ih =>
    obtain ⟨here, later⟩ := List.forall_mem_cons.mp all
    obtain ⟨k, updated, updates⟩ := bind_ok_iff.mp updates
    have fewer : ∀ x y, f.inst i = .ok y → g.inst i = .ok x →
        ∀ q ∈ (x.dropPhiInputs p).phiInputs, Drawn f g b names y q.value := by
      obtain ⟨y', found', isPhi⟩ := here.1
      intro x y found there q mem
      cases found.symm.trans found'
      rw [Inst.dropPhiInputs, Inst.phiInputs, PhiInput.ofUses_toUses] at mem
      exact h.values i x _ found isPhi there q (List.mem_of_mem_filter mem)
    exact ih (h.updateInst here.1 updated (fun _ => rfl) (fun _ phi => phi) fewer) updates later

private theorem removeSuccs {l : List BlockId} (h : Follows f b near ids names places g)
    (removed : l.foldlM (fun g s => g.removeSucc a s) g = .ok g') : Follows f b near ids names places g' := by
  induction l generalizing g with
  | nil =>
    cases removed
    exact h
  | cons s l ih =>
    obtain ⟨k, first, rest⟩ := bind_ok_iff.mp removed
    exact ih (h.removeSucc first) rest

/-- A block that has none of the instructions can be removed. -/
private theorem removeBlock (h : Follows f b near ids names places g) (other : a ≠ b) (none : places a = [])
    (removed : g.removeBlock a = .ok g') : Follows f b near ids names places g' := by
  obtain ⟨blk, -, removed⟩ := bind_ok_iff.mp removed
  split at removed
  · obtain ⟨k, unlinked, removed⟩ := bind_ok_iff.mp removed
    obtain ⟨k', cleared, same⟩ := bind_ok_iff.mp removed
    cases same
    have unlinked := h.removeSuccs unlinked
    obtain ⟨block, rfl⟩ := updateBlock_ok cleared
    have view := blockAt_mapBlock block fun x => { x with code := [], dead := true }
    refine unlinked.of_insts (fun i => ?_) (fun c => ?_) (fun c i mem phi => ?_) (fun i _ here => ?_)
      fun c _ => ?_
    · exact congrArg (Arena.get · i) (insts_mapBlock k a _)
    · change (((k.mapBlock a _).blockAt c).code.filter (· ∈ ids)) = _
      rw [view]
      split
      · rename_i here
        rw [here, none]
        rfl
      · exact unlinked.places c
    · change i ∈ ((k.mapBlock a _).blockAt c).code at mem
      rw [view] at mem
      split at mem
      · cases mem
      · exact unlinked.homed c i mem phi
    · change i ∈ ((k.mapBlock a _).blockAt b).code
      rwa [view, if_neg other.symm]
    · change ((k.mapBlock a _).blockAt c).succs ⊆ _
      rw [view]
      split <;> exact List.Subset.refl _
  · cases removed

private theorem moveCode (h : Follows f b near ids names places g) (other : s ≠ b) (here : near s)
    (moved : g.moveCode b s 0 (g.blockAt s).code.length = .ok g') :
    Follows f b near ids names
      (fun c => if c = s then [] else if c = b then places b ++ places s else places c) g' := by
  have moved := moved_moveCode other moved
  refine h.of_insts moved.inst (fun c => ?_) (fun c i mem phi => ?_) (fun i _ here => ?_) fun c _ => ?_
  · rw [moved.code]
    split
    · rfl
    · split
      · rw [List.filter_append, h.places, h.places]
      · exact h.places c
  · obtain ⟨a, old, rfl⟩ := moved.origin other mem
    split
    · rename_i head
      exact .inr ⟨rfl, (h.homed s i (head ▸ old) phi).near here⟩
    · exact h.homed a i old phi
  · rw [moved.code, if_neg other.symm, if_pos rfl]
    exact List.mem_append_left _ here
  · rw [moved.links.succs]
    exact List.Subset.refl _

end Follows

end Procedure

namespace Conversion

open Procedure Predication.Conversion.Convert

variable {α β : Type} {f : Procedure} {near : BlockId → Prop} {ids : List InstId} {names : List (Reg × Reg)}
  {places : BlockId → List InstId} {st st' : State} {a b dest source s : BlockId} {c : Condition}
  {id : InstId}

def Rests (f : Procedure) (b : BlockId) (near : BlockId → Prop) (ids : List InstId) (m : Convert α) : Prop :=
  ∀ names places st a st', Yields m st a st' → Follows f b near ids names places st.procedure →
    ∃ names', Follows f b near ids names' places st'.procedure

theorem rests_of_reads {m : Convert α} (h : Reads m) : Rests f b near ids m := by
  intro names places st a st' run follows
  rw [(h st a st' run).procedure]
  exact ⟨names, follows⟩

theorem rests_bind {m : Convert α} {k : α → Convert β} (h : Rests f b near ids m)
    (h' : ∀ a, Rests f b near ids (k a)) : Rests f b near ids (m >>= k) := by
  intro names places st b st' run follows
  obtain ⟨a, mid, first, rest⟩ := yields_bind.mp run
  obtain ⟨names, follows⟩ := h names places st a mid first follows
  exact h' a names places mid b st' rest follows

private theorem rests_bind_query {e : Procedure → Except Fault α} {k : α → Convert β}
    (h : ∀ names places g a, Follows f b near ids names places g → e g = .ok a → Rests f b near ids (k a)) :
    Rests f b near ids (query e >>= k) := by
  intro names places st b st' run follows
  obtain ⟨a, mid, first, rest⟩ := yields_bind.mp run
  obtain ⟨found, rfl⟩ := yields_query.mp first
  exact h names places st.procedure a follows found names places st b st' rest follows

private theorem rests_edit {e : Procedure → Except Fault Procedure}
    (h : ∀ names places g g', Follows f b near ids names places g → e g = .ok g' →
      Follows f b near ids names places g') : Rests f b near ids (edit e) := by
  intro names places st x st' run follows
  obtain ⟨g, edited, rfl⟩ := yields_edit.mp run
  exact ⟨names, h names places st.procedure g follows edited⟩

private theorem rests_editWith {e : Procedure → Except Fault (Procedure × α)}
    (h : ∀ names places g g' a, Follows f b near ids names places g → e g = .ok (g', a) →
      Follows f b near ids names places g') : Rests f b near ids (editWith e) := by
  intro names places st x st' run follows
  obtain ⟨g, edited, rfl⟩ := yields_editWith.mp run
  exact ⟨names, h names places st.procedure g x follows edited⟩

private theorem composes_rests : Composes (Rests f b near ids) where
  bind := rests_bind
  pure a := rests_of_reads (reads_pure a)
  throw e _ := rests_of_reads (reads_throw e)
  procedure := rests_of_reads reads_procedure
  query g := rests_of_reads (reads_query g)
  ofExcept x := rests_of_reads (composes_reads.ofExcept x)
  info b := rests_of_reads (reads_info b)
  report e := rests_of_reads (reads_report e)

private theorem rests_forM {k : α → Convert Unit} {l : List α} (h : ∀ a ∈ l, Rests f b near ids (k a)) :
    Rests f b near ids (l.forM k) := by
  induction l with
  | nil => exact rests_of_reads (reads_pure ())
  | cons a l ih =>
    obtain ⟨here, later⟩ := List.forall_mem_cons.mp h
    exact rests_bind here fun _ => ih later

private theorem addSelect_follows {y : Inst} {v w : Operand} {r : Reg}
    (follows : Follows f b near ids names places st.procedure)
    (first : Drawn f st.procedure b names y v) (second : Drawn f st.procedure b names y w)
    (h : Yields (addSelect b c v w) st r st') :
    Follows f b near ids names places st'.procedure ∧ Drawn f st'.procedure b names y (.reg r) ∧
      ∀ i x, st.procedure.inst i = .ok x → st'.procedure.inst i = .ok x := by
  obtain ⟨r', mid, fresh, h⟩ := yields_bind.mp h
  obtain ⟨g, made, rfl⟩ := yields_editWith.mp fresh
  cases made
  obtain ⟨pos, mid, asked, h⟩ := yields_bind.mp h
  obtain ⟨-, rfl⟩ := yields_query.mp asked
  obtain ⟨u, mid, placed, h⟩ := yields_bind.mp h
  obtain ⟨g, edited, rfl⟩ := yields_edit.mp placed
  obtain ⟨rfl, rfl⟩ := yields_pure.mp h
  obtain ⟨⟨g', i⟩, inserted, same⟩ := bind_ok_iff.mp edited
  cases same
  have follows : Follows f b near ids names places (st.procedure.newReg "").1 :=
    follows.of_insts (fun i => show (st.procedure.newReg "").1.inst i = _ from rfl) follows.places
      follows.homed (fun _ _ here => here) fun _ _ => List.Subset.refl _
  obtain ⟨new, found, here, old, stays⟩ := insert_view inserted
  have keeps : KeepsAdded f b st.procedure g' := fun i z _ here found => ⟨stays i here, old i z found⟩
  have added : ∀ x, f.inst i ≠ .ok x := fun x => new ▸ follows.inst_new _ x
  have chosen := Drawn.select added here found rfl rfl rfl (first.mono keeps) (second.mono keeps)
    (List.nil_suffix (l := names))
  exact ⟨follows.insert (by simp) inserted, chosen, old⟩

private theorem replacePhi_follows {y : Inst} {v : Operand} {u : Unit} (here : near a)
    (there : f.inst id = .ok y)
    (isPhi : y.op = .phi) (home : Homed f b near a id)
    (follows : Follows f b near ids names places st.procedure)
    (drawn : Drawn f st.procedure b names y v) (h : Yields (replacePhi a id v) st u st') :
    ∃ names', Follows f b near ids names' places st'.procedure := by
  have phi : f.PhiAt id := ⟨y, there, isPhi⟩
  obtain ⟨x, mid, first, h⟩ := yields_bind.mp h
  obtain ⟨found, rfl⟩ := yields_query.mp first
  have defs : x.defs = y.defs := by
    obtain ⟨z, here, defs⟩ := follows.defs id y there
    cases here.symm.trans found
    exact defs
  split at h
  · rename_i d single
    obtain ⟨code, mid, asked, h⟩ := yields_bind.mp h
    obtain ⟨-, rfl⟩ := yields_query.mp asked
    rcases yields_ite.mp h with ⟨-, h⟩ | ⟨-, h⟩
    · obtain ⟨u, mid, second, h⟩ := yields_bind.mp h
      obtain ⟨g, erased, rfl⟩ := yields_edit.mp second
      have drawn : Drawn f g b names y v := drawn.mono (keepsAdded_erase phi erased)
      have follows := follows.erase phi erased
      split at h
      · obtain ⟨c, close, mem⟩ := home.near here
        obtain ⟨k, replaced, rfl⟩ := yields_edit.mp h
        cases replaced
        exact ⟨_, follows.replaceReg ⟨c, id, close, mem, there, isPhi⟩ (by simp [← defs, single]) drawn⟩
      · obtain ⟨u, mid, third, h⟩ := yields_bind.mp h
        obtain ⟨g', copied, rfl⟩ := yields_edit.mp third
        have follows : Follows f b near ids names places g' :=
          follows.updateInst phi copied (fun _ => rfl) (fun _ copy => by cases copy)
            fun _ _ _ _ p mem => by cases mem
        obtain ⟨k, placed, rfl⟩ := yields_edit.mp h
        obtain ⟨phis, -, placed⟩ := bind_ok_iff.mp placed
        exact ⟨names, follows.placeAt (follows.not_mem phi) (fun _ => home) placed⟩
    · obtain ⟨u, mid, stops, -⟩ := yields_bind.mp h
      cases stops
  · exact absurd h not_yields_breach

private theorem mem_of_lastValue? {inputs : List PhiInput} {v : Operand} (h : lastValue? s inputs = some v) :
    ∃ p ∈ inputs, p.value = v := by
  obtain ⟨p, last, rfl⟩ := Option.map_eq_some_iff.mp h
  exact ⟨p, List.mem_of_mem_filter (List.mem_of_getLast? last), rfl⟩

/-- A phi whose inputs are in pairs gets one more, or gives way to it where it is the only one. -/
private theorem settlePhi_follows {y z : Inst} {v : Operand} {left : List PhiInput} {u : Unit}
    (here : near s) (there : f.inst id = .ok y) (isPhi : y.op = .phi) (home : Homed f b near s id)
    (follows : Follows f b near ids names places st.procedure)
    (drawn : Drawn f st.procedure b names y v)
    (rest : st.procedure.inst id = .ok { z with uses := PhiInput.toUses left })
    (h : Yields (do
      if (← query (·.inst id)).uses.isEmpty then
        replacePhi s id v
      else
        edit (·.updateInst id (Inst.addPhiInput v b))) st u st') :
    ∃ names', Follows f b near ids names' places st'.procedure := by
  obtain ⟨x, mid, asked, h⟩ := yields_bind.mp h
  obtain ⟨-, rfl⟩ := yields_query.mp asked
  rcases yields_ite.mp h with ⟨-, h⟩ | ⟨-, h⟩
  · exact replacePhi_follows here there isPhi home follows drawn h
  · obtain ⟨g, extended, rfl⟩ := yields_edit.mp h
    refine ⟨names, follows.updateInst ⟨y, there, isPhi⟩ extended (fun _ => rfl) (fun _ phi => phi) ?_⟩
    intro x y' there' found p mem
    cases there.symm.trans there'
    cases rest.symm.trans found
    have even : (PhiInput.toUses left).length % 2 = 0 := by
      rw [PhiInput.length_toUses, Nat.mul_mod_right]
    rw [Inst.addPhiInput, Inst.phiInputs, PhiInput.ofUses_append even] at mem
    rcases List.mem_append.mp mem with former | new
    · exact follows.values id _ y there isPhi rest p former
    · rw [List.mem_singleton.mp new]
      exact drawn

private theorem joinPhi_follows {y : Inst} {u : Unit} (here : near s) (there : f.inst id = .ok y)
    (isPhi : y.op = .phi) (home : Homed f b near s id)
    (follows : Follows f b near ids names places st.procedure)
    (h : Yields (joinPhi s b source c id) st u st') :
    ∃ names', Follows f b near ids names' places st'.procedure := by
  have phi : f.PhiAt id := ⟨y, there, isPhi⟩
  obtain ⟨z, mid, first, h⟩ := yields_bind.mp h
  obtain ⟨found, rfl⟩ := yields_query.mp first
  have values := follows.values id z y there isPhi found
  extract_lets inputs v? w? finish at h
  obtain ⟨u, mid, second, h⟩ := yields_bind.mp h
  obtain ⟨g, updated, rfl⟩ := yields_edit.mp second
  have keeps := keepsAdded_updateInst b phi updated
  have drawn : ∀ v, v ∈ v? ∨ v ∈ w? → Drawn f g b names y v := by
    intro v given
    obtain ⟨p, mem, rfl⟩ : ∃ p ∈ inputs, p.value = v := by
      rcases given with given | given
      · exact mem_of_lastValue? given
      · simp only [w?] at given
        split at given
        · cases given
        · exact mem_of_lastValue? given
    exact (values p mem).mono keeps
  obtain ⟨left, fewer, rest⟩ : ∃ left : List PhiInput, left ⊆ inputs ∧
      g.inst id = .ok { z with uses := PhiInput.toUses left } := by
    obtain ⟨-, view, -, -⟩ := updateInst_ok updated
    exact ⟨_, List.filter_subset_self .., by rw [view, if_pos rfl, found]; rfl⟩
  have follows : Follows f b near ids names places g := by
    refine follows.updateInst phi updated (fun _ => rfl) (fun _ phi => phi) fun x y' there' _ p mem => ?_
    cases there.symm.trans there'
    rw [Inst.phiInputs, PhiInput.ofUses_toUses] at mem
    exact values p (List.mem_of_mem_filter mem)
  have last : ∀ {mid : State} (v : Operand), Follows f b near ids names places mid.procedure →
      Drawn f mid.procedure b names y v →
      mid.procedure.inst id = .ok { z with uses := PhiInput.toUses left } →
      Yields (finish (some v)) mid u st' → ∃ names', Follows f b near ids names' places st'.procedure :=
    fun v follows drawn rest h => settlePhi_follows here there isPhi home follows drawn rest h
  clear_value v? w?
  match v?, w? with
  | none, none =>
    obtain ⟨-, rfl⟩ := yields_pure.mp h
    exact ⟨names, follows⟩
  | some v, none => exact last v follows (drawn v (.inl rfl)) rest h
  | none, some w => exact last w follows (drawn w (.inr rfl)) rest h
  | some v, some w =>
    rcases yields_ite.mp h with ⟨-, h⟩ | ⟨-, h⟩
    · exact last w follows (drawn w (.inr rfl)) rest h
    rcases yields_ite.mp h with ⟨-, h⟩ | ⟨-, h⟩
    · obtain ⟨f', mid, -, h⟩ := yields_bind.mp h
      obtain ⟨joined, mid, broken, -⟩ := yields_bind.mp h
      exact absurd broken not_yields_breach
    · obtain ⟨r, mid, added, h⟩ := yields_bind.mp h
      obtain ⟨follows, chosen, old⟩ := addSelect_follows follows (drawn v (.inl rfl)) (drawn w (.inr rfl)) added
      exact last (.reg r) follows chosen (old id _ rest) h

private theorem rests_joinPhis (here : near s) : Rests f b near ids (joinPhis s b source c) := by
  refine rests_bind_query fun _ _ _ _ follows asked => rests_forM fun i mem => ?_
  obtain ⟨⟨y, there, isPhi⟩, home⟩ := follows.phis asked i mem
  exact fun _ _ _ _ _ run follows => joinPhi_follows here there isPhi home follows run

private theorem rests_collapsePhis (here : near a) : Rests f b near ids (collapsePhis a) := by
  refine rests_bind_query fun _ _ _ _ follows asked => rests_forM fun i mem => ?_
  obtain ⟨⟨y, there, isPhi⟩, home⟩ := follows.phis asked i mem
  intro names places st u st' run follows
  obtain ⟨x, mid, first, run⟩ := yields_bind.mp run
  obtain ⟨found, rfl⟩ := yields_query.mp first
  split at run
  · rename_i v label rest uses
    rcases yields_ite.mp run with ⟨-, run⟩ | ⟨-, run⟩
    · have mem : ⟨v, label⟩ ∈ x.phiInputs := by
        rw [Inst.phiInputs, uses, PhiInput.ofUses]
        exact List.mem_cons_self ..
      exact replacePhi_follows here there isPhi home follows
        (follows.values i x y there isPhi found _ mem) run
    · exact absurd run not_yields_breach
  · exact absurd run not_yields_breach

private theorem rests_removeSucc : Rests f b near ids (edit (·.removeSucc a s)) :=
  rests_edit fun _ _ _ _ follows removed => follows.removeSucc removed

private theorem rests_addSucc : Rests f b near ids (edit (·.addSucc b s)) :=
  rests_edit fun _ _ _ _ follows added => follows.addSucc added

theorem join_follows {keep : Bool} {u : Unit} (other : source ≠ b) (here : near source)
    (around : ∀ s ∈ (f.blockAt source).succs, near s) (follows : Follows f b near ids names places st.procedure)
    (h : Yields (join b source c keep) st u st') :
    ∃ names', Follows f b near ids names'
      (fun a => if a = source then [] else if a = b then places b ++ places source else places a)
      st'.procedure := by
  unfold join at h
  obtain ⟨u₁, mid, first, h⟩ := yields_bind.mp h
  obtain ⟨names₁, follows₁⟩ := rests_collapsePhis here names places st u₁ mid first follows
  obtain ⟨i, mid, second, h⟩ := yields_bind.mp h
  obtain ⟨-, rfl⟩ := yields_info second
  obtain ⟨f₁, mid, third, h⟩ := yields_bind.mp h
  obtain ⟨rfl, rfl⟩ := yields_procedure.mp third
  obtain ⟨u₂, mid, fourth, h⟩ := yields_bind.mp h
  obtain ⟨f₂, moved, rfl⟩ := yields_edit.mp fourth
  obtain ⟨code, asked, moved⟩ := bind_ok_iff.mp moved
  obtain ⟨-, rfl⟩ := code_ok.mp asked
  have follows₂ := follows₁.moveCode other here moved
  obtain ⟨succs, mid, fifth, h⟩ := yields_bind.mp h
  obtain ⟨asked, rfl⟩ := yields_query.mp fifth
  obtain ⟨blk, found, same⟩ := bind_ok_iff.mp asked
  cases same
  obtain ⟨u₃, mid, sixth, h⟩ := yields_bind.mp h
  have around : ∀ s ∈ blk.succs, near s := fun s mem =>
    around s (follows₂.succs source other (blockAt_eq found ▸ mem))
  obtain ⟨names₃, follows₃⟩ := composes_rests.handOver (fun s mem => rests_joinPhis (around s mem))
    (fun _ => rests_addSucc) (fun _ => rests_removeSucc) _ _ _ _ _ u₃ mid sixth follows₂
  obtain ⟨u₄, mid, seventh, h⟩ := yields_bind.mp h
  obtain ⟨names₄, follows₄⟩ := rests_removeSucc _ _ _ u₄ mid seventh follows₃
  obtain ⟨preds, mid, eighth, h⟩ := yields_bind.mp h
  obtain ⟨-, -, rfl⟩ := yields_predCount eighth
  rcases yields_ite.mp h with ⟨-, h⟩ | ⟨-, h⟩
  · obtain ⟨u₅, mid, broken, -⟩ := yields_bind.mp h
    exact absurd broken not_yields_breach
  obtain ⟨u₆, mid, ninth, h⟩ := yields_bind.mp h
  obtain ⟨f₅, removed, rfl⟩ := yields_edit.mp ninth
  have follows₅ := follows₄.removeBlock other (if_pos rfl) removed
  exact rests_of_reads (reads_bind (reads_info source) fun _ => reads_bind (reads_setInfo b _) fun _ =>
    reads_setInfo source _) _ _ _ u st' h follows₅

variable (d : Datapath)

private theorem rests_jumpTo : Rests f b near ids (jumpTo d.target a dest) := by
  refine rests_bind (rests_editWith fun names places g g' n follows inserted => ?_) fun _ =>
    rests_of_reads (reads_setInfo a _)
  obtain ⟨⟨k, i⟩, appended, same⟩ := bind_ok_iff.mp inserted
  cases same
  exact follows.append (by simp [Inst.jump]) appended

theorem rests_dropExtraEdges : Rests f b near ids (dropExtraEdges d.target a) := by
  refine rests_bind (composes_rests.query _) fun br => ?_
  split
  · refine rests_bind (composes_rests.query _) fun flow => rests_bind (composes_rests.query _) fun succs =>
      composes_rests.forM _ fun s => rests_bind rests_removeSucc fun _ => ?_
    exact rests_edit fun _ _ _ _ follows removed => follows.removePhiInputs removed
  · exact composes_rests.pure ()

theorem rests_invalidatePreds : Rests f b near ids (invalidatePreds a) := by
  refine rests_bind (composes_rests.query _) fun preds => composes_rests.forM _ fun p => ?_
  refine rests_bind (composes_rests.info p) fun i => ?_
  split
  · exact composes_rests.pure ()
  · exact rests_of_reads (reads_setInfo p _)

theorem reachTail_follows {tail : BlockId} {u : Unit} (here : near tail)
    (around : ∀ s ∈ (f.blockAt tail).succs, near s) (follows : Follows f b near ids names places st.procedure)
    (none : tail ≠ b → places tail = []) (h : Yields (reachTail d.target b tail) st u st') :
    ∃ names', Follows f b near ids names' places st'.procedure := by
  unfold reachTail at h
  obtain ⟨i, mid, first, h⟩ := yields_bind.mp h
  obtain ⟨-, rfl⟩ := yields_info first
  extract_lets finish at h
  obtain ⟨n, mid, second, h⟩ := yields_bind.mp h
  obtain ⟨-, -, rfl⟩ := yields_predCount second
  have jumps : Yields (pure false >>= finish) st u st' →
      ∃ names', Follows f b near ids names' places st'.procedure := by
    intro h
    obtain ⟨alone, mid, told, h⟩ := yields_bind.mp h
    obtain ⟨rfl, rfl⟩ := yields_pure.mp told
    exact rests_bind rests_addSucc (fun _ => rests_jumpTo d) _ _ _ u st' h follows
  rcases yields_ite.mp h with ⟨-, h⟩ | ⟨other, h⟩
  · exact jumps h
  rcases yields_ite.mp h with ⟨-, h⟩ | ⟨-, h⟩
  · exact jumps h
  obtain ⟨runsOn, mid, third, h⟩ := yields_bind.mp h
  obtain ⟨names₁, follows₁⟩ :=
    rests_of_reads (composes_reads.mayRunOn d.target tail) _ _ _ _ mid third follows
  obtain ⟨alone, mid, fourth, h⟩ := yields_bind.mp h
  obtain ⟨-, rfl⟩ := yields_pure.mp fourth
  rcases yields_ite.mp h with ⟨-, h⟩ | ⟨-, h⟩
  · obtain ⟨u₁, mid, fifth, h⟩ := yields_bind.mp h
    obtain ⟨names₂, follows₂⟩ := rests_of_reads (reads_setInfo tail _) _ _ _ _ mid fifth follows₁
    obtain ⟨u₂, mid, sixth, h⟩ := yields_bind.mp h
    obtain ⟨names₃, follows₃⟩ := join_follows other here around follows₂ sixth
    obtain ⟨names₄, follows₄⟩ := rests_of_reads (reads_setInfo tail _) _ _ _ _ st' h follows₃
    refine ⟨names₄, follows₄.of_insts (fun _ => rfl) (fun c => ?_) follows₄.homed (fun _ _ here => here)
      fun _ _ => List.Subset.refl _⟩
    rw [follows₄.places]
    have none := none other
    split
    · rename_i here
      rw [here, none]
    · split
      · rename_i here
        rw [none, List.append_nil, here]
      · rfl
  · exact rests_bind rests_addSucc (fun _ => rests_jumpTo d) _ _ _ u st' h follows₁

end Conversion

end Predication
