import Predication.Proofs.Outcomes
import Predication.Proofs.WellFormed

/-!
The edges of a procedure that is being changed. Their two ends know of each other and the layout has
every live block once; but unlike in a proper graph, edges may lead to removed blocks and need not be
those that the code speaks of.
-/

set_option autoImplicit false
set_option relaxedAutoImplicit false

namespace Predication.Procedure

/-- The layout has every live block once, removed blocks have no code and lead nowhere, and the ends
of every edge know of each other. -/
structure Meshed (f : Procedure) : Prop where
  laid : ∀ b, b ∈ f.layout ↔ (f.blockAt b).dead = false
  nodup : f.layout.Nodup
  numbered : ∀ b, (f.blockAt b).id = b
  removed : ∀ b, (f.blockAt b).dead = true → (f.blockAt b).succs = [] ∧ (f.blockAt b).code = []
  mutual_ends : ∀ b s, s ∈ (f.blockAt b).succs ↔ b ∈ (f.blockAt s).preds
  succs : ∀ b, (f.blockAt b).succs.Nodup
  preds : ∀ b, (f.blockAt b).preds.Nodup

/-- Both ends of every edge know of it, and know of it once. An id that names no block has no ends, so
edges lead from and to blocks that are there. -/
structure Paired (f : Procedure) : Prop where
  ends : ∀ b s, s ∈ (f.blockAt b).succs ↔ b ∈ (f.blockAt s).preds
  succs : ∀ b, (f.blockAt b).succs.Nodup
  preds : ∀ b, (f.blockAt b).preds.Nodup

variable {f g k : Procedure} {b c s t : BlockId} {blk : Block} {l l' : List BlockId}

theorem Meshed.paired (h : f.Meshed) : f.Paired := ⟨h.mutual_ends, h.succs, h.preds⟩

theorem Linked.meshed (h : f.Linked) : f.Meshed :=
  ⟨h.laid, h.nodup, h.numbered, fun b dead => ⟨(h.removed b dead).1, (h.removed b dead).2.2⟩,
    h.mutual_ends, h.succs, h.preds⟩

theorem Meshed.linked (h : f.Meshed)
    (live : ∀ b, ∀ s ∈ (f.blockAt b).succs, (f.blockAt s).dead = false) : f.Linked := by
  refine ⟨h.laid, h.nodup, h.numbered, fun b dead => ⟨(h.removed b dead).1, ?_, (h.removed b dead).2⟩,
    h.mutual_ends, h.succs, h.preds⟩
  rw [List.eq_nil_iff_forall_not_mem]
  intro p hp
  rw [live p b ((h.mutual_ends p b).mpr hp)] at dead
  cases dead

theorem Meshed.live (h : f.Meshed) (edge : s ∈ (f.blockAt b).succs) : (f.blockAt b).dead = false := by
  by_contra dead
  rw [(h.removed b (by simpa using dead)).1] at edge
  cases edge

/-- Only code differs. -/
structure SameLinks (f g : Procedure) : Prop where
  layout : g.layout = f.layout
  id : ∀ b, (g.blockAt b).id = (f.blockAt b).id
  dead : ∀ b, (g.blockAt b).dead = (f.blockAt b).dead
  succs : ∀ b, (g.blockAt b).succs = (f.blockAt b).succs
  preds : ∀ b, (g.blockAt b).preds = (f.blockAt b).preds

theorem SameLinks.refl (f : Procedure) : SameLinks f f :=
  ⟨rfl, fun _ => rfl, fun _ => rfl, fun _ => rfl, fun _ => rfl⟩

theorem SameLinks.trans (h : SameLinks f g) (h' : SameLinks g k) : SameLinks f k where
  layout := h'.layout.trans h.layout
  id b := (h'.id b).trans (h.id b)
  dead b := (h'.dead b).trans (h.dead b)
  succs b := (h'.succs b).trans (h.succs b)
  preds b := (h'.preds b).trans (h.preds b)

theorem sameLinks_of_blocks (blocks : g.blocks = f.blocks) (layout : g.layout = f.layout) :
    SameLinks f g := by
  refine ⟨layout, fun b => ?_, fun b => ?_, fun b => ?_, fun b => ?_⟩
  all_goals rw [blockAt_congr blocks]

theorem SameLinks.next? (h : SameLinks f g) (b : BlockId) : g.next? b = f.next? b := by
  unfold Procedure.next?
  rw [h.layout]

theorem Meshed.recode (h : f.Meshed) (same : SameLinks f g)
    (empty : ∀ b, (f.blockAt b).dead = true → (g.blockAt b).code = []) : g.Meshed where
  laid b := by rw [same.layout, same.dead, h.laid]
  nodup := same.layout ▸ h.nodup
  numbered b := by rw [same.id, h.numbered]
  removed b dead := by
    rw [same.dead] at dead
    rw [same.succs]
    exact ⟨(h.removed b dead).1, empty b dead⟩
  mutual_ends b s := by rw [same.succs, same.preds, h.mutual_ends]
  succs b := by rw [same.succs]; exact h.succs b
  preds b := by rw [same.preds]; exact h.preds b

theorem blockAt_setCode (found : f.block b = .ok blk) (code : List InstId) (c : BlockId) :
    (f.setCode b code).blockAt c =
      if c = b then { f.blockAt c with code := code } else f.blockAt c :=
  blockAt_mapBlock found _ c

theorem code_setCode (found : f.block b = .ok blk) (code : List InstId) (c : BlockId) :
    ((f.setCode b code).blockAt c).code = if c = b then code else (f.blockAt c).code := by
  rw [blockAt_setCode found]
  split <;> rfl

theorem block_setCode {c : BlockId} (found : f.block c = .ok (f.blockAt c)) (b : BlockId)
    (code : List InstId) : (f.setCode b code).block c = .ok ((f.setCode b code).blockAt c) := by
  have there := block_mapBlock_ok (b := b) (u := fun x => { x with code := code }) found
  rw [Procedure.setCode, blockAt_eq there]
  exact there

theorem setCode_self (found : f.block b = .ok (f.blockAt b)) :
    f.setCode b (f.blockAt b).code = f := by
  refine ext_block (name_mapBlock f b _) (insts_mapBlock f b _) (layout_mapBlock f b _)
    (regs_mapBlock f b _) (sharing_mapBlock f b _) fun c => ?_
  rw [setCode, block_mapBlock]
  split
  · rename_i same
    rw [same, found]
    rfl
  · rfl

theorem setCode_setCode (f : Procedure) (b : BlockId) (code code' : List InstId) :
    (f.setCode b code).setCode b code' = f.setCode b code' := by
  refine ext_block ?_ ?_ ?_ ?_ ?_ fun c => ?_
  · simp [setCode]
  · simp [setCode]
  · simp [setCode]
  · simp [setCode]
  · simp [setCode]
  · rw [setCode, setCode, setCode, block_mapBlock, block_mapBlock, block_mapBlock]
    split
    · cases f.block c <;> rfl
    · rfl

@[simp] theorem inst_setCode (f : Procedure) (b : BlockId) (code : List InstId) (i : InstId) :
    (f.setCode b code).inst i = f.inst i := by
  unfold inst setCode
  rw [insts_mapBlock]

theorem sameLinks_setCode (found : f.block b = .ok blk) (code : List InstId) :
    SameLinks f (f.setCode b code) := by
  refine ⟨layout_mapBlock f b _, fun c => ?_, fun c => ?_, fun c => ?_, fun c => ?_⟩
  all_goals
    rw [blockAt_setCode found]
    split <;> rfl

structure Moved (b s : BlockId) (f g : Procedure) : Prop where
  links : SameLinks f g
  inst : ∀ i, g.inst i = f.inst i
  sharing : g.sharing = f.sharing
  code : ∀ c, (g.blockAt c).code = if c = s then [] else
    if c = b then (f.blockAt b).code ++ (f.blockAt s).code else (f.blockAt c).code

theorem moved_moveCode (other : s ≠ b)
    (h : f.moveCode b s 0 (f.blockAt s).code.length = .ok g) : Moved b s f g := by
  obtain ⟨known, known', -, rfl⟩ := moveCode_ok other h
  rw [Int.toNat_natCast, List.take_length, List.drop_length]
  have still : (f.setCode b ((f.blockAt b).code ++ (f.blockAt s).code)).block s =
      .ok (f.blockAt s) := by
    rw [Procedure.setCode, block_mapBlock_ok known', if_neg other]
  exact ⟨(sameLinks_setCode known _).trans (sameLinks_setCode still _),
    fun i => by rw [inst_setCode, inst_setCode], by simp [Procedure.setCode],
    fun c => by rw [code_setCode still, code_setCode known]⟩

theorem Moved.origin (h : Moved b s f g) (other : s ≠ b) {c : BlockId} {i : InstId}
    (mem : i ∈ (g.blockAt c).code) : ∃ a, i ∈ (f.blockAt a).code ∧ c = if a = s then b else a := by
  rw [h.code] at mem
  split at mem
  · cases mem
  · rename_i away
    split at mem
    · rename_i here
      rcases List.mem_append.mp mem with mem | mem
      · exact ⟨b, mem, by rw [if_neg (Ne.symm other), here]⟩
      · exact ⟨s, mem, by rw [if_pos rfl, here]⟩
    · exact ⟨c, mem, (if_neg away).symm⟩

structure SameCode (f g : Procedure) : Prop where
  layout : g.layout = f.layout
  inst : ∀ i, g.inst i = f.inst i
  id : ∀ b, (g.blockAt b).id = (f.blockAt b).id
  dead : ∀ b, (g.blockAt b).dead = (f.blockAt b).dead
  code : ∀ b, (g.blockAt b).code = (f.blockAt b).code

theorem SameCode.refl (f : Procedure) : SameCode f f :=
  ⟨rfl, fun _ => rfl, fun _ => rfl, fun _ => rfl, fun _ => rfl⟩

theorem SameCode.trans (h : SameCode f g) (h' : SameCode g k) : SameCode f k where
  layout := h'.layout.trans h.layout
  inst i := (h'.inst i).trans (h.inst i)
  id b := (h'.id b).trans (h.id b)
  dead b := (h'.dead b).trans (h.dead b)
  code b := (h'.code b).trans (h.code b)

theorem inst?_congr (h : ∀ i, g.inst i = f.inst i) : g.inst? = f.inst? := by
  funext i
  unfold inst?
  rw [h]

private theorem Meshed.relink (h : f.Meshed) (same : SameCode f g) (paired : g.Paired)
    (bare : ∀ b, (f.blockAt b).dead = true → (g.blockAt b).succs = []) : g.Meshed where
  laid b := by rw [same.layout, same.dead, h.laid]
  nodup := same.layout ▸ h.nodup
  numbered b := by rw [same.id, h.numbered]
  removed b dead := by
    rw [same.dead] at dead
    rw [same.code]
    exact ⟨bare b dead, (h.removed b dead).2⟩
  mutual_ends := paired.ends
  succs := paired.succs
  preds := paired.preds

private theorem edges_view (found : f.block b = .ok (f.blockAt b)) (found' : f.block s = .ok (f.blockAt s))
    (u v : List BlockId → List BlockId)
    (h : g = (f.mapBlock b fun x => { x with succs := u x.succs }).mapBlock s
      fun x => { x with preds := v x.preds }) : SameCode f g ∧
    (∀ c, (g.blockAt c).succs = if c = b then u (f.blockAt c).succs else (f.blockAt c).succs) ∧
    ∀ c, (g.blockAt c).preds = if c = s then v (f.blockAt c).preds else (f.blockAt c).preds := by
  subst h
  have view := blockAt_mapBlock (block_mapBlock_ok (b := b)
    (u := fun x => { x with succs := u x.succs }) found') fun x => { x with preds := v x.preds }
  have first := blockAt_mapBlock found fun x => { x with succs := u x.succs }
  refine ⟨⟨?_, fun i => ?_, fun c => ?_, fun c => ?_, fun c => ?_⟩, fun c => ?_, fun c => ?_⟩
  · rw [layout_mapBlock, layout_mapBlock]
  · unfold inst
    rw [insts_mapBlock, insts_mapBlock]
  · rw [view, first]
    split <;> split <;> rfl
  · rw [view, first]
    split <;> split <;> rfl
  · rw [view, first]
    split <;> split <;> rfl
  · rw [view, apply_ite Block.succs, ite_self, first, apply_ite Block.succs]
  · rw [view, apply_ite Block.preds, first, apply_ite Block.preds, ite_self]

theorem addSucc_view (h : f.addSucc b s = .ok g) : SameCode f g ∧
    (∀ c, (g.blockAt c).succs = if c = b ∧ s ∉ (f.blockAt b).succs then (f.blockAt c).succs ++ [s]
      else (f.blockAt c).succs) ∧
    ∀ c, (g.blockAt c).preds = if c = s ∧ s ∉ (f.blockAt b).succs then (f.blockAt c).preds ++ [b]
      else (f.blockAt c).preds := by
  obtain ⟨found, ⟨old, rfl⟩ | ⟨new, found', after⟩⟩ := addSucc_ok h
  · exact ⟨.refl _, fun c => by simp [old], fun c => by simp [old]⟩
  · simpa [new] using edges_view found found' (· ++ [s]) (· ++ [b]) after

theorem removeSucc_view (h : f.removeSucc b s = .ok g) (paired : f.Paired) : SameCode f g ∧
    (∀ c, (g.blockAt c).succs = if c = b then (f.blockAt c).succs.erase s else (f.blockAt c).succs) ∧
    ∀ c, (g.blockAt c).preds = if c = s then (f.blockAt c).preds.erase b
      else (f.blockAt c).preds := by
  obtain ⟨found, ⟨old, rfl⟩ | ⟨-, found', after⟩⟩ := removeSucc_ok h
  · have away : b ∉ (g.blockAt s).preds := fun mem => old ((paired.ends b s).mpr mem)
    refine ⟨.refl _, fun c => ?_, fun c => ?_⟩
    · split
      · rename_i same
        rw [same, List.erase_of_not_mem old]
      · rfl
    · split
      · rename_i same
        rw [same, List.erase_of_not_mem away]
      · rfl
  · exact edges_view found found' (·.erase s) (·.erase b) after

theorem mem_succs_addSucc (h : f.addSucc b s = .ok g) :
    t ∈ (g.blockAt c).succs ↔ t ∈ (f.blockAt c).succs ∨ c = b ∧ t = s := by
  rw [(addSucc_view h).2.1]
  split
  · rename_i new
    simp [new.1]
  · rename_i old
    constructor
    · exact Or.inl
    · rintro (mem | ⟨rfl, rfl⟩)
      · exact mem
      · by_contra new
        exact old ⟨rfl, new⟩

theorem mem_succs_removeSucc (h : f.removeSucc b s = .ok g) (paired : f.Paired) :
    t ∈ (g.blockAt c).succs ↔ t ∈ (f.blockAt c).succs ∧ ¬ (c = b ∧ t = s) := by
  rw [(removeSucc_view h paired).2.1]
  split
  · rename_i same
    rw [(paired.succs c).mem_erase_iff]
    simp [same, and_comm]
  · rename_i other
    simp [other]

theorem known_of_pred (h : c ∈ (f.blockAt b).preds) : f.block b = .ok (f.blockAt b) := by
  unfold Procedure.blockAt at h ⊢
  cases found : f.block b with
  | ok x => rfl
  | error e =>
    simp only [found] at h
    cases h

private theorem known_of_size (size : g.blocks.size = f.blocks.size) (found : f.block c = .ok (f.blockAt c)) :
    g.block c = .ok (g.blockAt c) := by
  have range := Arena.get_range.mp ⟨_, found⟩
  rw [← size] at range
  obtain ⟨blk, found⟩ : ∃ blk, g.block c = .ok blk := Arena.get_range.mpr range
  rw [found, blockAt_eq found]

theorem addSucc_gives (hb : f.block b = .ok (f.blockAt b)) (hs : f.block s = .ok (f.blockAt s)) :
    ∃ g, f.addSucc b s = .ok g := by
  by_cases old : s ∈ (f.blockAt b).succs
  · refine ⟨f, ?_⟩
    rw [addSucc, isSucc_eq hb]
    exact if_pos (decide_eq_true old)
  · exact ⟨_, addSucc_new hb hs old⟩

theorem removeSucc_gives (hb : f.block b = .ok (f.blockAt b)) (hs : f.block s = .ok (f.blockAt s)) :
    ∃ g, f.removeSucc b s = .ok g := by
  rw [removeSucc, isSucc_eq hb]
  change ∃ g, (if decide (s ∈ (f.blockAt b).succs) = true then _ else _) = _
  split
  · rw [updateBlock_eq hb]
    exact ⟨_, updateBlock_eq (block_mapBlock_ok hs) _⟩
  · exact ⟨f, rfl⟩

theorem Paired.addSucc (paired : f.Paired) (h : f.addSucc b s = .ok g) : g.Paired := by
  obtain ⟨-, succs, preds⟩ := addSucc_view h
  have edge : s ∉ (f.blockAt b).succs ↔ b ∉ (f.blockAt s).preds := not_congr (paired.ends b s)
  refine ⟨fun c t => ?_, fun c => ?_, fun c => ?_⟩
  · rw [mem_succs_addSucc h, preds, paired.ends]
    split
    · rename_i new
      simp [new.1, and_comm]
    · rename_i old
      constructor
      · rintro (mem | ⟨rfl, rfl⟩)
        · exact mem
        · by_contra away
          exact old ⟨rfl, edge.mpr away⟩
      · exact Or.inl
  · rw [succs]
    split
    · rename_i new
      rw [new.1, ← List.concat_eq_append]
      exact (paired.succs b).concat new.2
    · exact paired.succs c
  · rw [preds]
    split
    · rename_i new
      rw [new.1, ← List.concat_eq_append]
      exact (paired.preds s).concat (edge.mp new.2)
    · exact paired.preds c

theorem Paired.removeSucc (paired : f.Paired) (h : f.removeSucc b s = .ok g) : g.Paired := by
  obtain ⟨-, succs, preds⟩ := removeSucc_view h paired
  refine ⟨fun c t => ?_, fun c => ?_, fun c => ?_⟩
  · rw [mem_succs_removeSucc h paired, preds, paired.ends]
    split
    · rename_i here
      rw [(paired.preds t).mem_erase_iff]
      simp [here, and_comm]
    · rename_i away
      simp [away]
  · rw [succs]
    split
    · exact (paired.succs c).erase s
    · exact paired.succs c
  · rw [preds]
    split
    · exact (paired.preds c).erase b
    · exact paired.preds c

theorem Meshed.addSucc (meshed : f.Meshed) (h : f.addSucc b s = .ok g)
    (live : (f.blockAt b).dead = false) : g.Meshed := by
  obtain ⟨same, succs, -⟩ := addSucc_view h
  refine meshed.relink same (meshed.paired.addSucc h) fun c dead => ?_
  have other : c ≠ b := by
    rintro rfl
    rw [live] at dead
    cases dead
  rw [succs, if_neg fun e => other e.1]
  exact (meshed.removed c dead).1

theorem Meshed.removeSucc (meshed : f.Meshed) (h : f.removeSucc b s = .ok g) : g.Meshed := by
  obtain ⟨same, succs, -⟩ := removeSucc_view h meshed.paired
  refine meshed.relink same (meshed.paired.removeSucc h) fun c dead => ?_
  rw [succs, (meshed.removed c dead).1]
  simp

private theorem removeSuccs_view {l : List BlockId} (paired : f.Paired)
    (h : l.foldlM (fun f s => f.removeSucc b s) f = .ok g) :
    SameCode f g ∧ g.Paired ∧ (∀ c, c ≠ b → (g.blockAt c).succs = (f.blockAt c).succs) ∧
      ∀ t, t ∈ (g.blockAt b).succs ↔ t ∈ (f.blockAt b).succs ∧ t ∉ l := by
  induction l generalizing f with
  | nil =>
    cases h
    exact ⟨.refl _, paired, fun _ _ => rfl, fun t => by simp⟩
  | cons s l ih =>
    obtain ⟨k, first, rest⟩ := bind_ok_iff.mp h
    obtain ⟨same, succs, -⟩ := removeSucc_view first paired
    obtain ⟨same', paired', succs', gone⟩ := ih (paired.removeSucc first) rest
    refine ⟨same.trans same', paired', fun c hc => ?_, fun t => ?_⟩
    · rw [succs' c hc, succs, if_neg hc]
    · rw [gone, mem_succs_removeSucc first paired]
      simp only [true_and, List.mem_cons, not_or, and_assoc]

/-- What is left of a procedure when a block is removed that nothing leads to. -/
structure Without (b : BlockId) (f g : Procedure) : Prop where
  alone : (f.blockAt b).preds = []
  layout : g.layout = f.layout.erase b
  inst : ∀ i, g.inst i = f.inst i
  id : ∀ c, (g.blockAt c).id = (f.blockAt c).id
  gone : (g.blockAt b).dead = true
  noSuccs : (g.blockAt b).succs = []
  noCode : (g.blockAt b).code = []
  dead : ∀ c, c ≠ b → (g.blockAt c).dead = (f.blockAt c).dead
  succs : ∀ c, c ≠ b → (g.blockAt c).succs = (f.blockAt c).succs
  code : ∀ c, c ≠ b → (g.blockAt c).code = (f.blockAt c).code

theorem Paired.removeBlock (paired : f.Paired) (h : f.removeBlock b = .ok g) :
    g.Paired ∧ Without b f g := by
  obtain ⟨blk, found, h⟩ := bind_ok_iff.mp h
  have here := blockAt_eq found
  subst here
  by_cases alone : (f.blockAt b).preds.isEmpty = true
  · rw [if_pos alone] at h
    obtain ⟨k, removed, h⟩ := bind_ok_iff.mp h
    obtain ⟨m, updated, h⟩ := bind_ok_iff.mp h
    obtain ⟨found', rfl⟩ := updateBlock_ok updated
    cases h
    obtain ⟨same, paired', succs, gone⟩ := removeSuccs_view paired removed
    have noSuccs : (k.blockAt b).succs = [] := by
      rw [List.eq_nil_iff_forall_not_mem]
      intro t ht
      obtain ⟨mem, away⟩ := (gone t).mp ht
      exact away (by simpa using mem)
    have view : ∀ c, Procedure.blockAt { k.mapBlock b (fun x => { x with code := [], dead := true })
        with layout := (k.mapBlock b fun x => { x with code := [], dead := true }).layout.erase b } c =
        if c = b then { k.blockAt c with code := [], dead := true } else k.blockAt c :=
      fun c => (blockAt_congr rfl c).trans (blockAt_mapBlock found' _ c)
    constructor
    · refine ⟨fun c t => ?_, fun c => ?_, fun c => ?_⟩
      · rw [view, view, apply_ite Block.succs, ite_self, apply_ite Block.preds, ite_self, paired'.ends]
      · rw [view, apply_ite Block.succs, ite_self]
        exact paired'.succs c
      · rw [view, apply_ite Block.preds, ite_self]
        exact paired'.preds c
    · refine ⟨List.isEmpty_iff.mp alone, ?_, fun i => ?_, fun c => ?_, ?_, ?_, ?_, fun c hc => ?_,
        fun c hc => ?_, fun c hc => ?_⟩
      · change (k.mapBlock b _).layout.erase b = _
        rw [layout_mapBlock, same.layout]
      · change Arena.get (k.mapBlock b _).insts i = _
        rw [insts_mapBlock]
        exact same.inst i
      · rw [view, apply_ite Block.id, ite_self, same.id]
      · rw [view, if_pos rfl]
      · rw [view, if_pos rfl]
        exact noSuccs
      · rw [view, if_pos rfl]
      · rw [view, if_neg hc, same.dead]
      · rw [view, if_neg hc, succs c hc]
      · rw [view, if_neg hc, same.code]
  · rw [if_neg alone] at h
    cases h

theorem Paired.removeBlock_gives (paired : f.Paired) (known : f.block b = .ok (f.blockAt b))
    (alone : (f.blockAt b).preds = []) :
    Gives (f.removeBlock b) fun g => g.Paired ∧ Without b f g := by
  have unlinked : Gives ((f.blockAt b).succs.reverse.foldlM (fun f s => f.removeSucc b s) f)
      fun g => g.blocks.size = f.blocks.size := by
    refine Gives.foldlM (fun g s mem size => ?_) rfl
    have edge : b ∈ (f.blockAt s).preds := (paired.ends b s).mp (by simpa using mem)
    obtain ⟨k, run⟩ := removeSucc_gives (known_of_size size known)
      (known_of_size size (known_of_pred edge))
    exact ⟨k, run, (sized_removeSucc rfl k run).trans size⟩
  obtain ⟨g, run, size⟩ := unlinked
  have there := known_of_size size known
  have removed : ∃ h, f.removeBlock b = .ok h := by
    refine ⟨{ g.mapBlock b fun x => { x with code := [], dead := true } with
      layout := (g.mapBlock b fun x => { x with code := [], dead := true }).layout.erase b }, ?_⟩
    rw [Procedure.removeBlock, known]
    simp only [bind, Except.bind, alone, List.isEmpty_nil, if_true]
    rw [run]
    change (g.updateBlock b _ >>= _) = _
    rw [updateBlock_eq there]
    rfl
  obtain ⟨h, removed⟩ := removed
  exact ⟨h, removed, paired.removeBlock removed⟩

theorem removeBlock_view (meshed : f.Meshed) (h : f.removeBlock b = .ok g) :
    g.Meshed ∧ Without b f g := by
  obtain ⟨paired, without⟩ := meshed.paired.removeBlock h
  refine ⟨⟨fun c => ?_, ?_, fun c => ?_, fun c dead => ?_, paired.ends, paired.succs, paired.preds⟩,
    without⟩
  · rw [without.layout, meshed.nodup.mem_erase_iff, meshed.laid]
    by_cases same : c = b
    · simp [same, without.gone]
    · simp [same, without.dead c same]
  · rw [without.layout]
    exact meshed.nodup.erase b
  · rw [without.id, meshed.numbered]
  · by_cases same : c = b
    · rw [same]
      exact ⟨without.noSuccs, without.noCode⟩
    · rw [without.dead c same] at dead
      rw [without.succs c same, without.code c same]
      exact meshed.removed c dead

theorem following_sublist (sub : l'.Sublist l) (nodup : l.Nodup) (hc : c ∈ l') (ht : t ∈ l')
    (h : following c l = some t) : following c l' = some t := by
  induction sub with
  | slnil => cases hc
  | @cons l' l a sub ih =>
    obtain ⟨new, nodup⟩ := List.nodup_cons.mp nodup
    have other : a ≠ c := fun same => new (same ▸ sub.subset hc)
    rw [following, if_neg other] at h
    exact ih nodup hc ht h
  | @cons_cons l' l a sub ih =>
    obtain ⟨new, nodup⟩ := List.nodup_cons.mp nodup
    unfold following at h ⊢
    have inside : ∀ u, u ∈ a :: l' → u ∈ l → u ∈ l' := by
      intro u hu there
      rcases List.mem_cons.mp hu with same | hu
      · exact absurd (same ▸ there) new
      · exact hu
    split at h
    · rename_i same
      rw [if_pos same]
      cases l with
      | nil => cases h
      | cons u l =>
        cases h
        -- the first of the rest stays first
        have ht := inside t ht List.mem_cons_self
        cases sub with
        | cons _ sub => exact absurd (sub.subset ht) (List.nodup_cons.mp nodup).1
        | cons_cons _ sub => rfl
    · rename_i other
      rw [if_neg other]
      have hc : c ∈ l' := by
        rcases List.mem_cons.mp hc with same | hc
        · exact absurd same.symm other
        · exact hc
      exact ih nodup hc (inside t ht (following_mem h)) h

theorem next?_eq_some : f.next? c = some t ↔ following c f.layout = some t ∧ t ≠ -1 := by
  unfold next?
  cases following c f.layout with
  | none => simp
  | some x =>
    simp only [Option.bind_some, BlockId.named?, Option.some.injEq]
    split
    · rename_i none
      constructor
      · intro h
        cases h
      · rintro ⟨rfl, named⟩
        exact absurd none named
    · rename_i named
      constructor
      · intro h
        cases h
        exact ⟨rfl, named⟩
      · rintro ⟨rfl, -⟩
        rfl

theorem Meshed.next?_eq (h : f.Meshed) (b : BlockId) : f.next? b = following b f.layout := by
  unfold next?
  cases next : following b f.layout with
  | none => rfl
  | some s =>
    have named : s ≠ -1 := by
      rintro rfl
      have live := (h.laid (-1)).mp (following_mem next)
      cases live
    simp [BlockId.named?, named]

end Predication.Procedure
