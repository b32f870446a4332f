import Mathlib.Logic.Relation
import Predication.Proofs.DepthFirst
import Predication.Proofs.Meshes

/-!
Edges under change. A procedure whose edges are known at both ends, once each, stays such a procedure
whatever edges, blocks and code are added to it and taken from it. An edge is added and removed without
a trace on the others, a block is removed with all its edges, and edges that are built anew are those
that code and layout say.
-/

set_option autoImplicit false
set_option relaxedAutoImplicit false

namespace Predication.Procedure

variable {f g k : Procedure} {a b c s t : BlockId}

/-- One change of a procedure: of its edges, its blocks, its code or the registers that it reads. -/
inductive Alters (f : Procedure) : Procedure → Prop
  | addSucc {g : Procedure} (b s : BlockId) (run : f.addSucc b s = .ok g) : Alters f g
  | removeSucc {g : Procedure} (b s : BlockId) (run : f.removeSucc b s = .ok g) : Alters f g
  | removeBlock {g : Procedure} (b : BlockId) (run : f.removeBlock b = .ok g) : Alters f g
  | buildEdges {g : Procedure} (run : f.buildEdges = .ok g) : Alters f g
  | newBlock (name : String) : Alters f (f.newBlock name).1
  | append {g : Procedure} {i : InstId} (b : BlockId) (x : Inst)
      (run : f.append b x = .ok (g, i)) : Alters f g
  | insert {g : Procedure} {i : InstId} (b : BlockId) (pos : Int) (x : Inst)
      (run : f.insert b pos x = .ok (g, i)) : Alters f g
  | clone {g : Procedure} {j : InstId} (i : InstId) (run : f.clone i = .ok (g, j)) : Alters f g
  | moveCode {g : Procedure} (dest source : BlockId) (i j : Int)
      (run : f.moveCode dest source i j = .ok g) : Alters f g
  | eraseCode {g : Procedure} (b : BlockId) (i j : Int) (run : f.eraseCode b i j = .ok g) : Alters f g
  | replaceReg (old new : Reg) : Alters f (f.replaceReg old new)

/-- There is one more edge, unless it was there, at the end of both lists that it stands in. -/
structure AddsEdge (b s : BlockId) (f g : Procedure) : Prop where
  edges : ∀ c t, g.HasEdge c t ↔ f.HasEdge c t ∨ c = b ∧ t = s
  succs : ∀ c, (g.blockAt c).succs =
    if c = b ∧ s ∉ (f.blockAt b).succs then (f.blockAt c).succs ++ [s] else (f.blockAt c).succs
  preds : ∀ c, (g.blockAt c).preds =
    if c = s ∧ s ∉ (f.blockAt b).succs then (f.blockAt c).preds ++ [b] else (f.blockAt c).preds

/-- There is one edge less, if it was there, and the others are in the order in which they were. -/
structure DropsEdge (b s : BlockId) (f g : Procedure) : Prop where
  edges : ∀ c t, g.HasEdge c t ↔ f.HasEdge c t ∧ ¬ (c = b ∧ t = s)
  succs : ∀ c, (g.blockAt c).succs =
    if c = b then (f.blockAt c).succs.erase s else (f.blockAt c).succs
  preds : ∀ c, (g.blockAt c).preds =
    if c = s then (f.blockAt c).preds.erase b else (f.blockAt c).preds

/-- Code that is in the arena, in blocks that are laid out once and lead to blocks of the arena. -/
structure Followable (f : Procedure) : Prop where
  nodup : f.layout.Nodup
  laid : ∀ b ∈ f.layout, f.Inside b
  code : ∀ b ∈ f.layout, ∀ i ∈ (f.blockAt b).code,
    ∃ x, f.inst i = .ok x ∧ ∀ t ∈ x.targets, f.Inside t

section Links

private theorem Paired.of_sameLinks (paired : f.Paired) (same : SameLinks f g) : g.Paired where
  ends b s := by rw [same.succs, same.preds, paired.ends]
  succs b := same.succs b ▸ paired.succs b
  preds b := same.preds b ▸ paired.preds b

theorem sameLinks_updateBlock {u : Block → Block} (h : f.updateBlock b u = .ok g)
    (recodes : ∀ x, u x = { x with code := (u x).code }) : SameLinks f g := by
  obtain ⟨found, rfl⟩ := updateBlock_ok h
  have recoded : f.mapBlock b u = f.setCode b (u (f.blockAt b)).code :=
    mapBlock_congr found (recodes (f.blockAt b))
  rw [recoded]
  exact sameLinks_setCode found _

private theorem sameLinks_addInst (f : Procedure) (x : Inst) : SameLinks f (f.addInst x).1 :=
  sameLinks_of_blocks rfl rfl

private theorem sameLinks_append {x : Inst} {i : InstId} (h : f.append b x = .ok (g, i)) :
    SameLinks f g := by
  obtain ⟨k, placed, h⟩ := bind_ok_iff.mp h
  cases h
  exact (sameLinks_addInst f x).trans (sameLinks_updateBlock placed fun _ => rfl)

private theorem sameLinks_insert {x : Inst} {i : InstId} {pos : Int}
    (h : f.insert b pos x = .ok (g, i)) : SameLinks f g := by
  obtain ⟨k, placed, h⟩ := bind_ok_iff.mp h
  cases h
  obtain ⟨found, -, rfl⟩ := placeAt_ok placed
  exact (sameLinks_addInst f x).trans (sameLinks_setCode found _)

private theorem sameLinks_clone {i j : InstId} (h : f.clone i = .ok (g, j)) : SameLinks f g := by
  obtain ⟨x, -, h⟩ := bind_ok_iff.mp h
  cases h
  exact sameLinks_addInst f x

theorem sameLinks_eraseCode {i j : Int} (h : f.eraseCode b i j = .ok g) : SameLinks f g := by
  obtain ⟨found, -, -, rfl⟩ := eraseCode_ok h
  exact sameLinks_setCode found _

private theorem sameLinks_moveCode {i j : Int} (h : f.moveCode b s i j = .ok g) : SameLinks f g := by
  obtain ⟨code, -, h⟩ := bind_ok_iff.mp h
  obtain ⟨before, -, h⟩ := bind_ok_iff.mp h
  obtain ⟨moved, -, h⟩ := bind_ok_iff.mp h
  obtain ⟨k, placed, erased⟩ := bind_ok_iff.mp h
  exact (sameLinks_updateBlock placed fun _ => rfl).trans (sameLinks_eraseCode erased)

theorem sameLinks_replaceReg (f : Procedure) (old new : Reg) :
    SameLinks f (f.replaceReg old new) := by
  refine ⟨rfl, fun c => ?_, fun c => ?_, fun c => ?_, fun c => ?_⟩
  all_goals rw [blockAt_replaceReg]

end Links

private theorem blockAt_newBlock (f : Procedure) (name : String) (c : Int) :
    ((f.newBlock name).1.blockAt c).succs = (f.blockAt c).succs ∧
      ((f.newBlock name).1.blockAt c).preds = (f.blockAt c).preds := by
  have bound : ((f.newBlock name).1.blocks.size : Int) = f.blocks.size + 1 := by
    simp [newBlock]
  by_cases old : 0 ≤ c ∧ c < f.blocks.size
  · obtain ⟨blk, found⟩ := Arena.get_range.mpr old
    have kept : (f.newBlock name).1.block c = .ok blk := Arena.get_push found _
    rw [blockAt_eq found, blockAt_eq kept]
    exact ⟨rfl, rfl⟩
  · rw [blockAt_none old]
    by_cases new : (c : Int) = f.blocks.size
    · have there : (f.newBlock name).1.block c = .ok _ := new ▸ Arena.get_push_size f.blocks _
      rw [blockAt_eq there]
      exact ⟨rfl, rfl⟩
    · have out : ¬ (0 ≤ c ∧ c < ((f.newBlock name).1.blocks.size : Int)) := by omega
      rw [blockAt_none out]
      exact ⟨rfl, rfl⟩

private theorem Paired.newBlock (paired : f.Paired) (name : String) : (f.newBlock name).1.Paired where
  ends b s := by rw [(blockAt_newBlock f name b).1, (blockAt_newBlock f name s).2, paired.ends]
  succs b := (blockAt_newBlock f name b).1 ▸ paired.succs b
  preds b := (blockAt_newBlock f name b).2 ▸ paired.preds b

private theorem Paired.inside (paired : f.Paired) (edge : f.HasEdge a b) : f.Inside a ∧ f.Inside b :=
  edge.inside paired.ends

private theorem paired_of_bare (bare : ∀ c, (f.blockAt c).succs = [] ∧ (f.blockAt c).preds = []) :
    f.Paired where
  ends b s := by simp [(bare b).1, (bare s).2]
  succs b := by simp [(bare b).1]
  preds b := by simp [(bare b).2]

private theorem paired_buildEdges (h : f.buildEdges = .ok g) : g.Paired := by
  have bare : ({ f with blocks := f.blocks.map fun x : Block =>
      { x with succs := [], preds := [] } } : Procedure).Paired := by
    refine paired_of_bare fun c => ?_
    unfold blockAt block
    simp only [Arena.get_map]
    cases Arena.get f.blocks c <;> exact ⟨rfl, rfl⟩
  have built : Holds Paired f.buildEdges :=
    Holds.foldlM (fun _ _ paired => (Holds.any _).bind fun succs _ =>
      Holds.foldlM (fun _ _ paired _ run => paired.addSucc run) succs _ paired) _ _ bare
  exact built g h

private theorem Paired.alters (paired : f.Paired) (step : Alters f g) : g.Paired := by
  cases step with
  | addSucc b s run => exact paired.addSucc run
  | removeSucc b s run => exact paired.removeSucc run
  | removeBlock b run => exact (paired.removeBlock run).1
  | buildEdges run => exact paired_buildEdges run
  | newBlock name => exact paired.newBlock name
  | append b x run => exact paired.of_sameLinks (sameLinks_append run)
  | insert b pos x run => exact paired.of_sameLinks (sameLinks_insert run)
  | clone i run => exact paired.of_sameLinks (sameLinks_clone run)
  | moveCode dest source i j run => exact paired.of_sameLinks (sameLinks_moveCode run)
  | eraseCode b i j run => exact paired.of_sameLinks (sameLinks_eraseCode run)
  | replaceReg old new => exact paired.of_sameLinks (sameLinks_replaceReg f old new)

private theorem Paired.run (paired : f.Paired) (run : Relation.ReflTransGen Alters f g) : g.Paired := by
  induction run with
  | refl => exact paired
  | tail _ step ih => exact ih.alters step

private theorem addSucc_addsEdge (hb : f.Inside b) (hs : f.Inside s) :
    Gives (f.addSucc b s) (AddsEdge b s f) := by
  obtain ⟨g, run⟩ := addSucc_gives hb.block hs.block
  obtain ⟨-, succs, preds⟩ := addSucc_view run
  exact ⟨g, run, fun c t => mem_succs_addSucc run, succs, preds⟩

private theorem Paired.removeSucc_dropsEdge (paired : f.Paired) (hb : f.Inside b) (hs : f.Inside s) :
    Gives (f.removeSucc b s) (DropsEdge b s f) := by
  obtain ⟨g, run⟩ := removeSucc_gives hb.block hs.block
  obtain ⟨-, succs, preds⟩ := removeSucc_view run paired
  exact ⟨g, run, fun c t => mem_succs_removeSucc run paired, succs, preds⟩

private theorem Paired.removeBlock_clears (paired : f.Paired) (hb : f.Inside b)
    (alone : (f.blockAt b).preds = []) :
    Gives (f.removeBlock b) fun g => (∀ c, ¬ g.HasEdge b c ∧ ¬ g.HasEdge c b) ∧
      (∀ c t, c ≠ b → (g.HasEdge c t ↔ f.HasEdge c t)) ∧ (f.layout.Nodup → b ∉ g.layout) := by
  refine (paired.removeBlock_gives hb.block alone).imp fun g removed => ?_
  obtain ⟨-, without⟩ := removed
  have others : ∀ c t, c ≠ b → (g.HasEdge c t ↔ f.HasEdge c t) := by
    intro c t other
    unfold HasEdge
    rw [without.succs c other]
  have leaves : ∀ c, ¬ g.HasEdge b c := by
    intro c edge
    unfold HasEdge at edge
    rw [without.noSuccs] at edge
    cases edge
  refine ⟨fun c => ⟨leaves c, fun edge => ?_⟩, others, fun nodup => ?_⟩
  · have other : c ≠ b := by
      rintro rfl
      exact leaves c edge
    have before := (paired.ends c b).mp ((others c b other).mp edge)
    rw [alone] at before
    cases before
  · rw [without.layout]
    exact nodup.not_mem_erase

private theorem Followable.buildEdges (h : f.Followable) :
    Gives f.buildEdges fun g => (∀ b ∈ f.layout, g.flowSuccs b = .ok (g.blockAt b).succs) ∧
      ∀ b, b ∉ f.layout → (g.blockAt b).succs = [] := by
  have known : ∀ c, f.Inside c → ∃ blk, f.block c = .ok blk := fun c inside => ⟨_, inside.block⟩
  have leads : ∀ b ∈ f.layout, ∃ succs, f.flowSuccs b = .ok succs ∧
      ∀ s ∈ succs, ∃ blk, f.block s = .ok blk := by
    intro b laid
    refine flowSuccs_found (h.laid b laid).block (fun i mem => ?_) fun c hc => known c (h.laid c hc)
    obtain ⟨x, found, targets⟩ := h.code b laid i mem
    exact ⟨x, found, fun t ht => known t (targets t ht)⟩
  choose! flow follows inside using leads
  have built := buildEdges_eq h.nodup (fun b laid => known b (h.laid b laid)) follows inside
  have view := block_setEdges f (fun c => if c ∈ f.layout then flow c else [])
    fun c => f.layout.filter fun p => decide (c ∈ flow p)
  refine ⟨_, built, fun b laid => ?_, fun b out => ?_⟩
  · rw [flowSuccs_setEdges, follows b laid]
    have there := view b
    rw [(h.laid b laid).block] at there
    rw [blockAt_eq there]
    simp [laid]
  · unfold blockAt
    rw [view]
    cases f.block b with
    | ok blk => simp [Except.map, out]
    | error e => rfl

/-- Whatever is done to edges, blocks and code, the edges stay known at both ends, once each. At every
point an edge is added or removed alone, a block that nothing leads to is removed with its edges, and
edges are built as the code says. -/
theorem paired_of_edits (paired : f.Paired) (run : Relation.ReflTransGen Alters f g) :
    g.Paired ∧ (∀ a b, g.HasEdge a b → g.Inside a ∧ g.Inside b) ∧
      (∀ b s, g.Inside b → g.Inside s → Gives (g.addSucc b s) (AddsEdge b s g)) ∧
      (∀ b s, g.Inside b → g.Inside s → Gives (g.removeSucc b s) (DropsEdge b s g)) ∧
      (∀ b, g.Inside b → (g.blockAt b).preds = [] → Gives (g.removeBlock b) fun k =>
        (∀ c, ¬ k.HasEdge b c ∧ ¬ k.HasEdge c b) ∧
          (∀ c t, c ≠ b → (k.HasEdge c t ↔ g.HasEdge c t)) ∧ (g.layout.Nodup → b ∉ k.layout)) ∧
      (g.Followable → Gives g.buildEdges fun k =>
        (∀ b ∈ g.layout, k.flowSuccs b = .ok (k.blockAt b).succs) ∧
          ∀ b, b ∉ g.layout → (k.blockAt b).succs = []) := by
  have kept := paired.run run
  exact ⟨kept, fun a b edge => kept.inside edge, fun b s hb hs => addSucc_addsEdge hb hs,
    fun b s hb hs => kept.removeSucc_dropsEdge hb hs,
    fun b hb alone => kept.removeBlock_clears hb alone, fun ready => ready.buildEdges⟩

/-- Two blocks, the second of which branches to itself. -/
def selfLoop : Procedure where
  name := "f"
  blocks := #[{ id := 0, name := "a", succs := [1] },
    { id := 1, name := "b", code := [0], succs := [1], preds := [0, 1] }]
  insts := #[{ op := .br, uses := [.block 1] }]
  layout := [0, 1]

/-- The loop is drawn from nothing. An edge back to the first block comes and goes, and the loop can be
taken out at both ends. -/
theorem paired_of_edits_loop :
    Relation.ReflTransGen Alters { name := "f", layout := [0, 1] } selfLoop ∧ selfLoop.Paired ∧
      Gives (selfLoop.removeSucc 1 1) (DropsEdge 1 1 selfLoop) := by
  have bare : ({ name := "f", layout := [0, 1] } : Procedure).Paired := by
    refine paired_of_bare fun c => ?_
    rw [blockAt_none fun inside => absurd inside.2 (by simpa using inside.1)]
    exact ⟨rfl, rfl⟩
  have blocks := (Relation.ReflTransGen.single
    (Alters.newBlock (f := { name := "f", layout := [0, 1] }) "a")).tail (.newBlock "b")
  have coded := blocks.tail (.append 1 { op := .br, uses := [.block 1] } rfl)
  have linked := coded.tail (.buildEdges (g := selfLoop) (by decide +kernel))
  have added := linked.tail (.addSucc 1 0 rfl)
  have run := added.tail (.removeSucc 1 0 (g := selfLoop) (by decide +kernel))
  obtain ⟨kept, -, -, drops, -⟩ := paired_of_edits bare run
  exact ⟨run, kept, drops 1 1 ⟨by decide, by decide⟩ ⟨by decide, by decide⟩⟩

end Predication.Procedure
