import Mathlib.Logic.Function.Basic
import Predication.Procedure.Edges
import Predication.Proofs.Arenas

/-!
The edges that code and layout say: what `buildEdges` sets them to, block by block.
-/

set_option autoImplicit false
set_option relaxedAutoImplicit false

namespace Predication

theorem foldlM_ok {α β ε : Type} {k : β → α → Except ε β} {P : List α → β → Prop} {l : List α}
    (step : ∀ before a after x, l = before ++ a :: after → P before x →
      ∃ y, k x a = .ok y ∧ P (before ++ [a]) y)
    {x : β} (hx : P [] x) : ∃ y, l.foldlM k x = .ok y ∧ P l y := by
  suffices ∀ before after x, l = before ++ after → P before x →
      ∃ y, after.foldlM k x = .ok y ∧ P l y from this [] l x rfl hx
  intro before after
  induction after generalizing before with
  | nil =>
    intro x split hx
    rw [List.append_nil] at split
    exact ⟨x, rfl, split ▸ hx⟩
  | cons a after ih =>
    intro x split hx
    obtain ⟨y, first, hy⟩ := step before a after x split hx
    obtain ⟨z, rest, hz⟩ := ih (before ++ [a]) y (by rw [split, List.append_assoc]; rfl) hy
    refine ⟨z, ?_, hz⟩
    rw [List.foldlM_cons, first]
    exact rest

namespace Procedure

variable {f g : Procedure} {b c s : BlockId} {blk : Block}

/-- The procedure with one block changed, if the id names one. -/
def mapBlock (f : Procedure) (b : BlockId) (u : Block → Block) : Procedure :=
  match b with
  | .ofNat n => { f with blocks := f.blocks.modify n u }
  | .negSucc _ => f

theorem block_mapBlock (f : Procedure) (b : BlockId) (u : Block → Block) (c : BlockId) :
    (f.mapBlock b u).block c = if c = b then (f.block c).map u else f.block c := by
  cases b with
  | ofNat n => exact Arena.get_modify f.blocks n u c
  | negSucc n =>
    split
    · rename_i same
      subst same
      rfl
    · rfl

@[simp] theorem name_mapBlock (f : Procedure) (b : BlockId) (u : Block → Block) :
    (f.mapBlock b u).name = f.name := by
  cases b <;> rfl

@[simp] theorem insts_mapBlock (f : Procedure) (b : BlockId) (u : Block → Block) :
    (f.mapBlock b u).insts = f.insts := by
  cases b <;> rfl

@[simp] theorem layout_mapBlock (f : Procedure) (b : BlockId) (u : Block → Block) :
    (f.mapBlock b u).layout = f.layout := by
  cases b <;> rfl

@[simp] theorem regs_mapBlock (f : Procedure) (b : BlockId) (u : Block → Block) :
    (f.mapBlock b u).regs = f.regs := by
  cases b <;> rfl

@[simp] theorem sharing_mapBlock (f : Procedure) (b : BlockId) (u : Block → Block) :
    (f.mapBlock b u).sharing = f.sharing := by
  cases b <;> rfl

theorem updateBlock_eq (h : f.block b = .ok blk) (u : Block → Block) :
    f.updateBlock b u = .ok (f.mapBlock b u) := by
  obtain ⟨n, rfl, -⟩ := Arena.get_eq_ok.mp h
  have bound : n < f.blocks.size := by
    have := (Arena.get_range.mp ⟨blk, h⟩).2
    omega
  have updated : Arena.update f.blocks (n : Int) u = .ok (f.blocks.modify n u) := if_pos bound
  simp only [updateBlock, updated]
  rfl

theorem ext_block (name : f.name = g.name) (insts : f.insts = g.insts) (layout : f.layout = g.layout)
    (regs : f.regs = g.regs) (sharing : f.sharing = g.sharing) (blocks : ∀ c, f.block c = g.block c) :
    f = g := by
  obtain ⟨n, bs, is, l, rs, sh⟩ := f
  obtain ⟨n', bs', is', l', rs', sh'⟩ := g
  cases name
  cases insts
  cases layout
  cases regs
  cases sharing
  rw [show bs = bs' from Arena.ext_get blocks]

theorem isSucc_eq (h : f.block b = .ok blk) (s : BlockId) :
    f.isSucc b s = .ok (decide (s ∈ blk.succs)) := by
  simp only [isSucc, h]
  rfl

theorem addSucc_new {there : Block} (hb : f.block b = .ok blk) (hs : f.block s = .ok there)
    (new : s ∉ blk.succs) :
    f.addSucc b s = .ok ((f.mapBlock b fun x => { x with succs := x.succs ++ [s] }).mapBlock s
      fun x => { x with preds := x.preds ++ [b] }) := by
  have hs' : ∃ x, (f.mapBlock b fun x => { x with succs := x.succs ++ [s] }).block s = .ok x := by
    rw [block_mapBlock, hs]
    split <;> exact ⟨_, rfl⟩
  obtain ⟨x, hs'⟩ := hs'
  have step : f.addSucc b s =
      (f.updateBlock b (fun x => { x with succs := x.succs ++ [s] }) >>= fun f =>
        f.updateBlock s (fun x => { x with preds := x.preds ++ [b] })) := by
    rw [addSucc, isSucc_eq hb]
    simp only [new, decide_false]
    rfl
  rw [step, updateBlock_eq hb]
  exact updateBlock_eq hs' _

def setEdges (f : Procedure) (succs preds : BlockId → List BlockId) : Procedure :=
  { f with blocks := f.blocks.mapIdx fun n x => { x with succs := succs n, preds := preds n } }

theorem block_setEdges (f : Procedure) (succs preds : BlockId → List BlockId) (c : BlockId) :
    (f.setEdges succs preds).block c =
      (f.block c).map fun x => { x with succs := succs c, preds := preds c } := by
  cases c with
  | negSucc n => rfl
  | ofNat n =>
    simp only [block, Arena.get, setEdges, Array.getElem?_mapIdx]
    cases f.blocks[n]? <;> rfl

private theorem addSucc_setEdges {succs preds : BlockId → List BlockId} {there : Block}
    (hb : f.block b = .ok blk) (hs : f.block s = .ok there) (new : s ∉ succs b) :
    (f.setEdges succs preds).addSucc b s =
      .ok (f.setEdges (Function.update succs b (succs b ++ [s]))
        (Function.update preds s (preds s ++ [b]))) := by
  have hb' := block_setEdges f succs preds b
  have hs' := block_setEdges f succs preds s
  rw [hb] at hb'
  rw [hs] at hs'
  rw [addSucc_new hb' hs' new]
  refine congrArg Except.ok (ext_block ?_ ?_ ?_ ?_ ?_ fun c => ?_)
  · simp only [name_mapBlock]; rfl
  · simp only [insts_mapBlock]; rfl
  · simp only [layout_mapBlock]; rfl
  · simp only [regs_mapBlock]; rfl
  · simp only [sharing_mapBlock]; rfl
  · rw [block_mapBlock, block_mapBlock, block_setEdges, block_setEdges]
    cases f.block c with
    | error fault => split <;> split <;> rfl
    | ok y =>
      by_cases left : c = b
      · subst left
        by_cases right : c = s
        · subst right
          simp [Except.map]
        · simp [Except.map, right]
      · by_cases right : c = s
        · subst right
          simp [Except.map, left]
        · simp [Except.map, left, right]

private theorem flowTargets_congr (insts : g.insts = f.insts) (code : List InstId) :
    g.flowTargets code = f.flowTargets code := by
  induction code with
  | nil => rfl
  | cons i rest ih =>
    have same : g.inst i = f.inst i := by
      unfold inst
      rw [insts]
    rw [flowTargets, flowTargets, same, ih]

private theorem flowSuccs_congr (insts : g.insts = f.insts) (layout : g.layout = f.layout)
    (code : g.code b = f.code b) : g.flowSuccs b = f.flowSuccs b := by
  have next : g.next? b = f.next? b := by
    unfold next?
    rw [layout]
  simp only [flowSuccs, code, next, flowTargets_congr insts]

theorem flowSuccs_setEdges (f : Procedure) (succs preds : BlockId → List BlockId) (b : BlockId) :
    (f.setEdges succs preds).flowSuccs b = f.flowSuccs b := by
  refine flowSuccs_congr rfl rfl ?_
  simp only [code, block_setEdges]
  cases f.block b <;> rfl

@[simp] theorem mem_distinct {α : Type} [DecidableEq α] {l : List α} {x : α} :
    x ∈ distinct l ↔ x ∈ l := by
  induction l with
  | nil => rfl
  | cons a l ih =>
    rw [distinct, List.mem_cons, List.mem_filter, ih, List.mem_cons, decide_eq_true_eq]
    tauto

private theorem nodup_distinct {α : Type} [DecidableEq α] (l : List α) : (distinct l).Nodup := by
  induction l with
  | nil => exact List.nodup_nil
  | cons a l ih =>
    rw [distinct, List.nodup_cons]
    exact ⟨by simp, ih.filter _⟩

theorem following_mem {b c : BlockId} {l : List BlockId} (h : following b l = some c) : c ∈ l := by
  induction l with
  | nil => cases h
  | cons d l ih =>
    rw [following] at h
    split at h
    · exact List.mem_cons_of_mem d (List.mem_of_mem_head? h)
    · exact List.mem_cons_of_mem d (ih h)

theorem flowSuccs_ok {succs : List BlockId} : f.flowSuccs b = .ok succs ↔
    ∃ blk targets falls, f.block b = .ok blk ∧ f.flowTargets blk.code = .ok (targets, falls) ∧
      succs = distinct (targets ++ if falls then (f.next? b).toList else []) := by
  constructor
  · intro h
    simp only [flowSuccs, code] at h
    cases found : f.block b with
    | error fault =>
      rw [found] at h
      cases h
    | ok blk =>
      rw [found] at h
      cases run : f.flowTargets blk.code with
      | error fault =>
        simp only [Bind.bind, Except.bind, Pure.pure, Except.pure, run] at h
        cases h
      | ok r =>
        simp only [Bind.bind, Except.bind, Pure.pure, Except.pure, run] at h
        exact ⟨blk, r.1, r.2, rfl, run, (Except.ok.inj h).symm⟩
  · rintro ⟨blk, targets, falls, found, run, rfl⟩
    simp only [flowSuccs, code, found, Bind.bind, Except.bind, Pure.pure, Except.pure, run]

theorem flowSuccs_nodup {succs : List BlockId} (h : f.flowSuccs b = .ok succs) : succs.Nodup := by
  obtain ⟨-, -, -, -, -, rfl⟩ := flowSuccs_ok.mp h
  exact nodup_distinct _

private theorem flowTargets_ok {code : List InstId}
    (found : ∀ id ∈ code, ∃ x, f.inst id = .ok x ∧ ∀ t ∈ x.targets, ∃ blk, f.block t = .ok blk) :
    ∃ r, f.flowTargets code = .ok r ∧ ∀ t ∈ r.1, ∃ blk, f.block t = .ok blk := by
  induction code with
  | nil => exact ⟨([], true), rfl, by simp⟩
  | cons id code ih =>
    obtain ⟨x, hx, targets⟩ := found id (by simp)
    obtain ⟨r, run, others⟩ := ih fun i hi => found i (by simp [hi])
    rw [flowTargets, hx, run]
    cases ends : x.endsFlow with
    | true =>
      refine ⟨(x.targets, false), ?_, targets⟩
      simp [Bind.bind, Except.bind, ends, Pure.pure, Except.pure]
    | false =>
      refine ⟨(x.targets ++ r.1, r.2), ?_, fun t ht => ?_⟩
      · simp [Bind.bind, Except.bind, ends, Pure.pure, Except.pure]
      · exact (List.mem_append.mp ht).elim (targets t) (others t)

theorem flowSuccs_found (found : f.block b = .ok blk)
    (code : ∀ id ∈ blk.code, ∃ x, f.inst id = .ok x ∧ ∀ t ∈ x.targets, ∃ blk, f.block t = .ok blk)
    (laid : ∀ c ∈ f.layout, ∃ blk, f.block c = .ok blk) :
    ∃ succs, f.flowSuccs b = .ok succs ∧ ∀ s ∈ succs, ∃ blk, f.block s = .ok blk := by
  obtain ⟨⟨targets, falls⟩, run, inside⟩ := flowTargets_ok code
  refine ⟨_, flowSuccs_ok.mpr ⟨blk, targets, falls, found, run, rfl⟩, ?_⟩
  intro s hs
  rw [mem_distinct, List.mem_append] at hs
  rcases hs with hs | hs
  · exact inside s hs
  · split at hs
    · have next : f.next? b = some s := by simpa using hs
      obtain ⟨c, following, named⟩ := Option.bind_eq_some_iff.mp next
      have same : c = s := by
        unfold BlockId.named? at named
        split at named
        · cases named
        · exact Option.some.inj named
      exact laid s (same ▸ following_mem following)
    · cases hs

private theorem addSuccs_setEdges {succs preds : BlockId → List BlockId} {l : List BlockId}
    (hb : f.block b = .ok blk) (none : succs b = []) (nodup : l.Nodup)
    (found : ∀ s ∈ l, ∃ x, f.block s = .ok x) :
    l.foldlM (fun g s => g.addSucc b s) (f.setEdges succs preds) =
      .ok (f.setEdges (Function.update succs b l)
        fun c => preds c ++ if c ∈ l then [b] else []) := by
  have run := foldlM_ok (k := fun (g : Procedure) s => g.addSucc b s) (l := l)
    (P := fun done g => g = f.setEdges (Function.update succs b done)
      fun c => preds c ++ if c ∈ done then [b] else [])
    (x := f.setEdges succs preds) ?_ ?_
  · obtain ⟨y, run, rfl⟩ := run
    exact run
  · rintro before s after x rfl rfl
    obtain ⟨there, hs⟩ := found s (by simp)
    have new : s ∉ before := by
      have := (List.nodup_append.mp nodup).2.2
      exact fun mem => this s mem s (by simp) rfl
    refine ⟨_, addSucc_setEdges hb hs (by simpa using new), ?_⟩
    congr 1
    · simp
    · funext c
      by_cases same : c = s
      · subst same
        simp [new]
      · simp [same]
  · congr 1
    · rw [← none, Function.update_eq_self]
    · simp

/-- All edges are those that code and layout say: the successors of a block are where its code
leads, and its predecessors are the blocks that lead to it, in the order of the layout. -/
theorem buildEdges_eq {flow : BlockId → List BlockId} (nodup : f.layout.Nodup)
    (found : ∀ b ∈ f.layout, ∃ x, f.block b = .ok x)
    (leads : ∀ b ∈ f.layout, f.flowSuccs b = .ok (flow b))
    (targets : ∀ b ∈ f.layout, ∀ s ∈ flow b, ∃ x, f.block s = .ok x) :
    f.buildEdges = .ok (f.setEdges (fun c => if c ∈ f.layout then flow c else [])
      fun c => f.layout.filter fun p => decide (c ∈ flow p)) := by
  have bare : ({ f with blocks := f.blocks.map fun x : Block =>
      { x with succs := [], preds := [] } } : Procedure) = f.setEdges (fun _ => []) fun _ => [] := by
    refine ext_block rfl rfl rfl rfl rfl fun c => ?_
    rw [block_setEdges]
    cases c with
    | negSucc n => rfl
    | ofNat n =>
      simp only [block, Arena.get, Array.getElem?_map]
      cases f.blocks[n]? <;> rfl
  have run := foldlM_ok (l := f.layout)
    (k := fun (g : Procedure) b => do (← g.flowSuccs b).foldlM (fun g s => g.addSucc b s) g)
    (P := fun done g => g = f.setEdges (fun c => if c ∈ done then flow c else [])
      fun c => done.filter fun p => decide (c ∈ flow p))
    (x := f.setEdges (fun _ => []) fun _ => []) ?_ (by simp)
  · obtain ⟨y, run, rfl⟩ := run
    simp only [buildEdges, bare]
    exact run
  · rintro before b after x split rfl
    have mem : b ∈ f.layout := by simp [split]
    obtain ⟨blk, hb⟩ := found b mem
    have new : b ∉ before := by
      rw [split] at nodup
      have := (List.nodup_append.mp nodup).2.2
      exact fun mem => this b mem b (by simp) rfl
    refine ⟨_, ?_, rfl⟩
    rw [flowSuccs_setEdges, leads b mem]
    refine (addSuccs_setEdges hb (by simp [new]) (flowSuccs_nodup (leads b mem))
      (targets b mem)).trans ?_
    refine congrArg Except.ok ?_
    congr 1
    · funext c
      by_cases same : c = b
      · subst same
        simp
      · simp [same]
    · funext c
      simp only [List.filter_append, List.filter_cons, List.filter_nil, decide_eq_true_eq]

end Procedure

end Predication
