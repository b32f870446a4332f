import Predication.Proofs.Renumbering

/-!
What the reader makes of a listing. A draft in which all labels are defined becomes a settled
procedure, and a program that was read has an outline in which no two procedures have one name.
-/

set_option autoImplicit false
set_option relaxedAutoImplicit false

namespace Predication.Listing

private theorem Draft.Holds.all_laid {d : Draft} {v : NamedProcedure} (h : d.Holds v)
    (complete : d.undefined? = none) {b : BlockId} {blk : Block}
    (found : d.procedure.block b = .ok blk) : b ∈ d.procedure.layout := by
  obtain ⟨n, rfl, hn⟩ := Arena.get_eq_ok.mp found
  have bound : n < d.procedure.blocks.size := (Array.getElem?_eq_some_iff.mp hn).1
  have bound' : n < d.defined.size := h.defined_size ▸ bound
  have seen := Draft.undefined?_eq_none.mp complete n bound (h.mentioned_size ▸ bound)
  rw [Array.getElem?_eq_getElem bound'] at seen
  rw [← h.defined n, Array.getD_eq_getD_getElem?, Array.getElem?_eq_getElem bound', Option.getD_some]
  simpa using seen

theorem InstNamed.targets_found {f : Procedure} {x : Inst} {i : NamedInst} (h : InstNamed f x i) :
    ∀ t ∈ x.targets, ∃ blk, f.block t = .ok blk := by
  have uses : ∀ t ∈ x.uses.filterMap Operand.block?, ∃ blk, f.block t = .ok blk := by
    intro t ht
    obtain ⟨u, hu, target⟩ := List.mem_filterMap.mp ht
    obtain ⟨n, -, named⟩ := exists_right_of_forall₂ h.uses hu
    cases named with
    | reg r s named => cases target
    | imm w => cases target
    | block b s named =>
      cases target
      obtain ⟨blk, found, -⟩ := named
      exact ⟨blk, found⟩
  intro t ht
  unfold Inst.targets at ht
  split at ht
  · cases ht
  · exact uses t ht

private theorem Draft.Holds.flow {d : Draft} {v : NamedProcedure} (h : d.Holds v) {b : BlockId}
    (hb : b ∈ d.procedure.layout) :
    ∃ succs, d.procedure.flowSuccs b = .ok succs ∧
      ∀ s ∈ succs, ∃ blk, d.procedure.block s = .ok blk := by
  obtain ⟨n, -, blk, outlined⟩ := exists_right_of_forall₂ h.layout hb
  have ready : ∀ id ∈ blk.code, ∃ x, d.procedure.inst id = .ok x ∧
      ∀ t ∈ x.targets, ∃ blk, d.procedure.block t = .ok blk := by
    intro id hid
    obtain ⟨i, -, x, there, named⟩ := exists_right_of_forall₂ outlined.code hid
    exact ⟨x, there, named.targets_found⟩
  exact Procedure.flowSuccs_found outlined.found ready fun _ laid => h.found laid

/-- A complete draft becomes a settled procedure. -/
private theorem Draft.Sound.settled {d : Draft} {v : NamedProcedure} (h : d.Sound v)
    (complete : d.undefined? = none) : Settled d.toProcedure v := by
  have flow : ∀ b ∈ d.procedure.layout,
      d.procedure.flowSuccs b = .ok (flowOf d.procedure b) := by
    intro b hb
    obtain ⟨succs, leads, -⟩ := h.holds.flow hb
    simp only [flowOf, leads]
  have targets : ∀ b ∈ d.procedure.layout, ∀ s ∈ flowOf d.procedure b,
      ∃ blk, d.procedure.block s = .ok blk := by
    intro b hb s hs
    obtain ⟨succs, leads, found⟩ := h.holds.flow hb
    simp only [flowOf, leads] at hs
    exact found s hs
  have built := Procedure.buildEdges_eq h.holds.nodup (fun b hb => h.holds.found hb) flow targets
  have made : d.toProcedure = d.procedure.setEdges
      (fun c => if c ∈ d.procedure.layout then flowOf d.procedure c else [])
      fun c => d.procedure.layout.filter fun p => decide (c ∈ flowOf d.procedure p) := by
    simp only [Draft.toProcedure, built]
  rw [made]
  generalize hf : d.procedure.setEdges
    (fun c => if c ∈ d.procedure.layout then flowOf d.procedure c else [])
    (fun c => d.procedure.layout.filter fun p => decide (c ∈ flowOf d.procedure p)) = f
  have block : ∀ c, f.block c = (d.procedure.block c).map fun x => { x with
      succs := if c ∈ d.procedure.layout then flowOf d.procedure c else []
      preds := d.procedure.layout.filter fun p => decide (c ∈ flowOf d.procedure p) } :=
    fun c => hf ▸ Procedure.block_setEdges _ _ _ c
  have leads : ∀ c, f.flowSuccs c = d.procedure.flowSuccs c :=
    fun c => hf ▸ Procedure.flowSuccs_setEdges _ _ _ c
  have layout : f.layout = d.procedure.layout := hf ▸ rfl
  have insts : f.insts = d.procedure.insts := hf ▸ rfl
  have regs : f.regs = d.procedure.regs := hf ▸ rfl
  have same_flow : ∀ c, flowOf f c = flowOf d.procedure c := fun c => by simp only [flowOf, leads]
  have kept : ∀ b blk, d.procedure.block b = .ok blk →
      ∃ x, f.block b = .ok x ∧ x.name = blk.name ∧ x.liveIn = blk.liveIn ∧ x.code = blk.code := by
    intro b blk found
    have there := block b
    rw [found] at there
    exact ⟨_, there, rfl, rfl, rfl⟩
  have grows : Extends d.procedure f := by
    refine ⟨fun r s named => ?_, fun b s => ?_⟩
    · unfold RegNamed
      rwa [regs]
    · rintro ⟨blk, found, rfl⟩
      obtain ⟨x, there, name, -, -⟩ := kept b blk found
      exact ⟨x, there, name⟩
  exact {
    name := (hf ▸ rfl : f.name = d.procedure.name).trans h.holds.name
    sharing := (hf ▸ rfl : f.sharing = d.procedure.sharing).trans h.holds.sharing
    regs := regs ▸ h.holds.regs
    regs_used := regs ▸ h.regs
    names := by
      have : f.blocks.map Block.name = d.procedure.blocks.map Block.name := by
        refine Arena.ext_get fun c => ?_
        rw [Arena.get_map, Arena.get_map]
        have := block c
        simp only [Procedure.block] at this
        rw [this]
        cases Arena.get d.procedure.blocks c <;> rfl
      rw [← Array.toList_map, this, Array.toList_map]
      exact h.holds.names
    blocks := by
      intro b blk found
      rw [block] at found
      cases before : d.procedure.block b with
      | error fault =>
        rw [before] at found
        cases found
      | ok x =>
        rw [before] at found
        cases found
        have laid := h.holds.all_laid complete before
        obtain ⟨id, -, -, live⟩ := h.holds.bare b x before
        refine ⟨layout ▸ laid, id, live, ?_, ?_⟩
        · rw [leads, if_pos laid]
          exact flow b laid
        · rw [layout]
          exact List.filter_congr fun p _ => by rw [same_flow]
    nodup := layout ▸ h.holds.nodup
    layout := by
      rw [layout]
      refine h.holds.layout.imp fun b n => ?_
      rintro ⟨blk, outlined⟩
      obtain ⟨x, there, name, liveIn, code⟩ := kept b blk outlined.found
      refine ⟨x, there, name.trans outlined.name, ?_, ?_⟩
      · rw [liveIn]
        exact grows.registers outlined.liveIn
      · rw [code]
        refine outlined.code.imp fun id i => ?_
        rintro ⟨y, found, named⟩
        refine ⟨y, ?_, grows.inst named⟩
        unfold Procedure.inst
        rwa [insts]
    ordered := by
      rw [layout, insts, ← h.holds.ordered]
      refine List.flatMap_congr fun b _ => ?_
      simp only [codeOf, block]
      cases d.procedure.block b <;> rfl
    valid := h.valid }

/-- An outline that stands by itself: it can be spelled, opens no block twice, and opens all blocks
that it names. -/
structure NamedProcedure.Complete (v : NamedProcedure) : Prop where
  valid : v.Valid
  labels : v.labels.Nodup
  targets : ∀ s ∈ v.targets, s ∈ v.labels

theorem Settled.complete {f : Procedure} {v : NamedProcedure} (h : Settled f v) : v.Complete where
  valid := h.valid
  labels := by
    have names : v.labels = f.layout.map f.blockName := by
      rw [NamedProcedure.labels, ← List.forall₂_eq_eq_eq]
      refine List.Forall₂.flip (List.forall₂_map_left_iff.mpr (List.forall₂_map_right_iff.mpr
        (h.layout.imp ?_)))
      rintro b n ⟨blk, outlined⟩
      simp only [flip, Procedure.blockName, outlined.found]
      exact outlined.name.symm
    rw [names]
    refine h.nodup.map_on fun b hb c hc same => ?_
    obtain ⟨x, hx⟩ := h.found hb
    obtain ⟨y, hy⟩ := h.found hc
    simp only [Procedure.blockName, hx, hy] at same
    exact BlockNamed.unique h.names ⟨x, hx, same⟩ ⟨y, hy, rfl⟩
  targets := by
    intro s hs
    obtain ⟨n, hn, hs⟩ := List.mem_flatMap.mp hs
    obtain ⟨i, hi, hs⟩ := List.mem_flatMap.mp hs
    obtain ⟨u, hu, hs⟩ := List.mem_flatMap.mp hs
    obtain ⟨b, -, blk, outlined⟩ := exists_left_of_forall₂ h.layout hn
    obtain ⟨id, -, x, -, named⟩ := exists_left_of_forall₂ outlined.code hi
    obtain ⟨o, -, operand⟩ := exists_left_of_forall₂ named.uses hu
    cases operand with
    | reg r t named => cases hs
    | imm w => cases hs
    | block c t named =>
      obtain ⟨there, found, rfl⟩ := named
      rw [List.mem_singleton.mp hs, ← h.mem_names]
      exact Array.mem_map.mpr ⟨there, Arena.get_ok_mem found, rfl⟩

theorem names_of_settled {p : Program} {vs : List NamedProcedure} (h : List.Forall₂ Settled p vs) :
    p.map Procedure.name = vs.map NamedProcedure.name := by
  rw [← List.forall₂_eq_eq_eq, List.forall₂_map_left_iff, List.forall₂_map_right_iff]
  exact h.imp fun f v settled => settled.name

namespace Reading

/-- What was read so far, in outline: finished procedures and the open one. -/
structure Outlined (r : Reading) (vs : List NamedProcedure) (cur : Option NamedProcedure) :
    Prop where
  finished : List.Forall₂ Settled r.finished vs
  nodup : (vs.map NamedProcedure.name ++ (cur.map NamedProcedure.name).toList).Nodup
  draft : Option.Rel Draft.Sound r.draft cur

theorem outlined_start : Outlined {} [] none := ⟨.nil, List.nodup_nil, .none⟩

theorem Outlined.closes {r s : Reading} {vs : List NamedProcedure} {cur : Option NamedProcedure}
    (h : r.Outlined vs cur) (closes : Closes r s) : s.Outlined (vs ++ cur.toList) none := by
  obtain ⟨finished, nodup, draft⟩ := h
  cases closes with
  | idle none =>
    rw [none] at draft
    cases draft
    simp only [Option.toList_none, List.append_nil] at nodup ⊢
    exact ⟨finished, by simpa using nodup, none ▸ .none⟩
  | done d some complete =>
    rw [some] at draft
    cases draft with
    | some sound =>
      refine ⟨List.rel_append finished (.cons (sound.settled complete) .nil), ?_, .none⟩
      simpa using nodup

theorem Outlined.procedure? {r : Reading} {vs : List NamedProcedure} {cur : Option NamedProcedure}
    (h : r.Outlined vs cur) (name : String) :
    r.finished.procedure? name = none ↔ name ∉ vs.map NamedProcedure.name := by
  rw [← names_of_settled h.finished]
  simp [Program.procedure?]

theorem Outlined.current {r : Reading} {vs : List NamedProcedure} {cur : Option NamedProcedure}
    (h : r.Outlined vs cur) {d : Draft} (draft : r.draft = some d) :
    ∃ v, cur = some v ∧ d.Sound v := by
  have related := h.draft
  rw [draft] at related
  cases related with
  | some sound => exact ⟨_, rfl, sound⟩

theorem Outlined.redraft {r : Reading} {vs : List NamedProcedure} {v w : NamedProcedure}
    (h : r.Outlined vs (some v)) {e : Draft} (sound : e.Sound w) (name : w.name = v.name) :
    Outlined { r with draft := some e } vs (some w) :=
  ⟨h.finished, by simpa [name] using h.nodup, .some sound⟩

theorem Outlined.header {r s : Reading} {vs : List NamedProcedure} {cur : Option NamedProcedure}
    (h : r.Outlined vs cur) (closes : Closes r s) {name : String} (hn : IsName name)
    (fresh : s.finished.procedure? name = none) :
    Outlined { s with draft := some { procedure := { name := name } } } (vs ++ cur.toList)
      (some { name := name }) := by
  have closed := h.closes closes
  refine ⟨closed.finished, ?_, .some (sound_header hn)⟩
  have nodup := closed.nodup
  rw [closed.procedure?] at fresh
  simp only [Option.map_none, Option.toList_none, List.append_nil] at nodup
  exact List.nodup_append_comm.mp (List.nodup_cons.mpr ⟨fresh, nodup⟩)

private theorem Outlined.takes {r s : Reading} {vs : List NamedProcedure} {cur : Option NamedProcedure}
    (h : r.Outlined vs cur) {number : Nat} {l : Line} (hl : l.Valid) (takes : Takes number l r s) :
    ∃ vs' cur', s.Outlined vs' cur' := by
  cases takes with
  | blank => exact ⟨vs, cur, h⟩
  | header name r t closes fresh => exact ⟨_, _, h.header closes hl fresh⟩
  | label name r d draft b e numbered fresh =>
    obtain ⟨v, rfl, sound⟩ := h.current draft
    exact ⟨vs, _, h.redraft (sound.label hl.1 hl.2 numbered fresh) rfl⟩
  | liveIn names r d draft b current regs e numbered =>
    obtain ⟨v, rfl, sound⟩ := h.current draft
    exact ⟨vs, _, h.redraft (sound.liveIn current hl numbered) rfl⟩
  | inst i r d draft b current x e numbered =>
    obtain ⟨v, rfl, sound⟩ := h.current draft
    exact ⟨vs, _, h.redraft (sound.inst current hl numbered) rfl⟩

private theorem Outlined.runs {number : Nat} {ls : List Line} {r s : Reading} (runs : Runs number ls r s) :
    ∀ {vs : List NamedProcedure} {cur : Option NamedProcedure}, r.Outlined vs cur →
      (∀ l ∈ ls, l.Valid) → ∃ vs' cur', s.Outlined vs' cur' := by
  induction runs with
  | nil => exact fun h _ => ⟨_, _, h⟩
  | cons number l ls r s t takes runs ih =>
    intro vs cur h valid
    obtain ⟨ws, c, taken⟩ := h.takes (valid _ List.mem_cons_self) takes
    exact ih taken fun l hl => valid l (List.mem_cons_of_mem _ hl)

private theorem Outlined.file {source : Source} {r t : Reading} {vs : List NamedProcedure}
    {cur : Option NamedProcedure} (h : r.Outlined vs cur) (run : Reading.file source r = (.ok (), t)) :
    ∃ vs', t.Outlined vs' none := by
  obtain ⟨ls, s, meant, runs, closes⟩ := lines_iff.mp run
  obtain ⟨vs', cur', outlined⟩ := Outlined.runs runs h meant.valid
  exact ⟨_, outlined.closes closes⟩

private theorem Outlined.files {sources : List Source} {r t : Reading} {vs : List NamedProcedure}
    (h : r.Outlined vs none) (run : sources.forM Reading.file r = (.ok (), t)) :
    ∃ vs', t.Outlined vs' none := by
  induction sources generalizing r vs with
  | nil =>
    cases run
    exact ⟨vs, h⟩
  | cons source sources ih =>
    obtain ⟨u, s, first, rest⟩ := bind_ok.mp run
    obtain ⟨ws, outlined⟩ := h.file first
    exact ih outlined rest

end Reading

theorem settled_of_read {sources : List Source} {p : Program} (h : read sources = .ok p) :
    ∃ vs, List.Forall₂ Settled p vs ∧ (vs.map NamedProcedure.name).Nodup := by
  obtain ⟨t, run, rfl⟩ := read_iff.mp h
  obtain ⟨vs, outlined⟩ := Reading.Outlined.files Reading.outlined_start run
  exact ⟨vs, outlined.finished, by simpa using outlined.nodup⟩

end Predication.Listing
