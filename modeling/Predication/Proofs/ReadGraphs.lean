import Predication.Proofs.Endings
import Predication.Proofs.Readings
import Predication.Proofs.Verdicts

/-!
The control flow graph that is read from a listing. Names are distinct, numbers are places, the
layout has every block and the code every instruction once, and the edges are those that the code
says. What the check of such a procedure can still find are phis in the wrong place or from the wrong
block, and branches that control does not get to.
-/

set_option autoImplicit false
set_option relaxedAutoImplicit false

namespace Predication

namespace Arena

variable {α : Type} {xs : Array α} {i : Int}

/-- The ids that name entries, in their order. -/
def ids (xs : Array α) : List Int := (List.range xs.size).map Int.ofNat

private theorem mem_ids : i ∈ ids xs ↔ Has xs i := by
  rw [ids, List.mem_map]
  constructor
  · rintro ⟨k, mem, rfl⟩
    have := List.mem_range.mp mem
    exact ⟨Int.natCast_nonneg k, by simpa using this⟩
  · rintro ⟨low, high⟩
    exact ⟨i.toNat, List.mem_range.mpr (by omega), Int.toNat_of_nonneg low⟩

private theorem nodup_ids : (ids xs).Nodup :=
  List.nodup_range.map fun _ _ same => Int.ofNat.inj same

end Arena

/-- The registers and blocks of the operand are those of the procedure. -/
def Operand.Ranged (f : Procedure) : Operand → Prop
  | .reg r label => Arena.Has f.regs r ∧ Arena.Has f.blocks label
  | .imm _ label => Arena.Has f.blocks label
  | .block b => Arena.Has f.blocks b

/-- The registers and blocks of the instruction are those of the procedure. -/
structure Inst.Ranged (f : Procedure) (x : Inst) : Prop where
  guard : ∀ t ∈ x.guard, Arena.Has f.regs t.reg
  defs : ∀ r ∈ x.defs, Arena.Has f.regs r
  cond : ∀ t ∈ x.cond, Arena.Has f.regs t.reg
  uses : ∀ u ∈ x.uses, u.Ranged f
  implicits : ∀ r ∈ x.implicits, Arena.Has f.regs r

namespace Procedure

/-- A control flow graph as it is read. -/
structure Pristine (f : Procedure) : Prop where
  regs : f.regs.toList.Nodup
  names : (f.blocks.toList.map Block.name).Nodup
  numbered : ∀ b blk, f.block b = .ok blk → blk.id = b
  live : ∀ blk ∈ f.blocks, blk.dead = false
  layout : f.layout.Perm (Arena.ids f.blocks)
  code : (f.blocks.toList.flatMap Block.code).Perm (Arena.ids f.insts)
  ranged : ∀ x ∈ f.insts, x.Ranged f
  liveIn : ∀ blk ∈ f.blocks, ∀ r ∈ blk.liveIn, Arena.Has f.regs r
  flow : ∀ b blk, f.block b = .ok blk → f.flowSuccs b = .ok blk.succs
  edges : ∀ blk ∈ f.blocks, ∀ s ∈ blk.succs ++ blk.preds, Arena.Has f.blocks s
  mutual_ends : ∀ b s, s ∈ (f.blockAt b).succs ↔ b ∈ (f.blockAt s).preds
  once : ∀ blk ∈ f.blocks, blk.succs.Nodup ∧ blk.preds.Nodup
  tests : ∀ x ∈ f.insts, x.op = .sel ∨ x.op = .brc → x.cond ≠ []
  pairs : ∀ x ∈ f.insts, x.op = .phi → x.uses.length % 2 = 0

def Behind (f : Procedure) (b : BlockId) (x y : Inst) : Prop := [x, y].Sublist (f.instsAt b)

/-- A phi behind another instruction, a phi with a value from a block that is no predecessor, or a
branch behind an instruction that ends the flow, to a block that is no successor. -/
def Flawed (f : Procedure) : Prop :=
  (∃ b x y, f.Behind b x y ∧ x.op ≠ .phi ∧ y.op = .phi) ∨
    (∃ b, ∃ x ∈ f.instsAt b, x.op = .phi ∧ ∃ p ∈ x.sources, p ∉ (f.blockAt b).preds) ∨
    ∃ b x y, f.Behind b x y ∧ x.endsFlow = true ∧ ∃ t ∈ y.targets, t ∉ (f.blockAt b).succs

end Procedure

private theorem behind_of_unreached {l : List Inst} {y : Inst} {t : BlockId} (mem : y ∈ l)
    (leads : t ∈ y.targets) (unreached : t ∉ (flowOf l).1) :
    ∃ x, [x, y].Sublist l ∧ x.endsFlow = true := by
  induction l with
  | nil => cases mem
  | cons x l ih =>
    rw [flowOf] at unreached
    by_cases ends : x.endsFlow = true
    · rw [if_pos ends] at unreached
      rcases List.mem_cons.mp mem with rfl | later
      · exact absurd leads unreached
      · exact ⟨x, List.Sublist.cons_cons x (List.singleton_sublist.mpr later), ends⟩
    · rw [if_neg ends, List.mem_append, not_or] at unreached
      rcases List.mem_cons.mp mem with rfl | later
      · exact absurd leads unreached.1
      · obtain ⟨z, behind, ends⟩ := ih later unreached.2
        exact ⟨z, behind.cons x, ends⟩

namespace Procedure

variable {f : Procedure}

namespace Pristine

variable {b : BlockId}

private theorem mem_layout (h : f.Pristine) : b ∈ f.layout ↔ Arena.Has f.blocks b := by
  rw [h.layout.mem_iff, Arena.mem_ids]

private theorem live_iff (h : f.Pristine) : (f.blockAt b).dead = false ↔ Arena.Has f.blocks b := by
  by_cases has : Arena.Has f.blocks b
  · obtain ⟨blk, found⟩ := Arena.get_range.mpr has
    rw [blockAt_eq found]
    exact iff_of_true (h.live blk (Arena.get_ok_mem found)) has
  · rw [blockAt_none has]
    exact iff_of_false (by simp) has

private theorem once_at (h : f.Pristine) : (f.blockAt b).succs.Nodup ∧ (f.blockAt b).preds.Nodup := by
  cases found : f.block b with
  | ok blk =>
    rw [blockAt_eq found]
    exact h.once blk (Arena.get_ok_mem found)
  | error e =>
    rw [blockAt_none (Arena.get_error.mp found).2]
    exact ⟨List.nodup_nil, List.nodup_nil⟩

private theorem linked (h : f.Pristine) : f.Linked where
  laid b := by rw [h.mem_layout, h.live_iff]
  nodup := h.layout.nodup_iff.mpr Arena.nodup_ids
  numbered b := by
    cases found : f.block b with
    | ok blk =>
      rw [blockAt_eq found]
      exact h.numbered b blk found
    | error e => rw [blockAt_none (Arena.get_error.mp found).2]
  removed b dead := by
    rw [blockAt_none fun has => by simp [h.live_iff.mpr has] at dead]
    exact ⟨rfl, rfl, rfl⟩
  mutual_ends := h.mutual_ends
  succs b := h.once_at.1
  preds b := h.once_at.2

theorem found (h : f.Pristine) : ∀ i ∈ (f.blockAt b).code, ∃ x, f.inst i = .ok x := by
  intro i mem
  cases block : f.block b with
  | error e =>
    rw [blockAt_none (Arena.get_error.mp block).2] at mem
    cases mem
  | ok blk =>
    rw [blockAt_eq block] at mem
    have all : i ∈ f.blocks.toList.flatMap Block.code :=
      List.mem_flatMap.mpr ⟨blk, Array.mem_toList_iff.mpr (Arena.get_ok_mem block), mem⟩
    exact Arena.get_range.mpr (Arena.mem_ids.mp (h.code.mem_iff.mp all))

theorem mem_succs (h : f.Pristine) {s : BlockId} (known : f.block b = .ok (f.blockAt b)) :
    s ∈ (f.blockAt b).succs ↔ s ∈ (flowOf (f.instsAt b)).1 ∨
      ((flowOf (f.instsAt b)).2 = true ∧ f.next? b = some s) := by
  obtain ⟨blk, targets, falls, block, flow, same⟩ := flowSuccs_ok.mp (h.flow b _ known)
  rw [← blockAt_eq block, flowTargets_eq h.found] at flow
  change Except.ok (flowOf (f.instsAt b)) = _ at flow
  rw [Except.ok.inj flow, same, mem_distinct, List.mem_append]
  cases falls <;> simp

private theorem reached (h : f.Pristine) {t : BlockId} (live : (f.blockAt b).dead = false)
    (reached : t ∈ (flowOf (f.instsAt b)).1) : t ∈ (f.blockAt b).succs :=
  (h.mem_succs (block_of_live live)).mpr (.inl reached)

private theorem wellFormed_iff (h : f.Pristine) : f.WellFormed ↔ ¬ f.Flawed := by
  constructor
  · rintro sound (⟨b, x, y, behind, other, phi⟩ | ⟨b, x, mem, phi, p, source, stray⟩ |
      ⟨b, x, y, behind, -, t, leads, stray⟩)
    · exact other (List.pairwise_iff_forall_sublist.mp (sound.phisFirst b) behind phi)
    · exact stray ((h.mutual_ends p b).mp (sound.needs p b (.inr ⟨x, mem, phi, source⟩)))
    · exact stray (sound.needs b t (.inl ⟨y, behind.subset (by simp), leads⟩))
  · intro sound
    unfold Flawed at sound
    push Not at sound
    obtain ⟨early, inputs, targets⟩ := sound
    refine ⟨h.linked, fun b => h.found, fun b s => ?_, fun b => ?_, fun b x mem => ?_⟩
    · rintro (⟨y, mem, leads⟩ | ⟨x, mem, phi, source⟩)
      · by_contra stray
        have live : (f.blockAt b).dead = false := by
          by_contra dead
          have none := (h.linked.removed b (by simpa using dead)).2.2
          simp [instsAt, none] at mem
        obtain ⟨x, behind, ends⟩ :=
          behind_of_unreached mem leads fun reached => stray (h.reached live reached)
        exact stray (targets b x y behind ends s leads)
      · exact (h.mutual_ends b s).mpr (inputs s x mem phi b source)
    · refine List.pairwise_iff_forall_sublist.mpr fun {x y} behind phi => ?_
      by_contra other
      exact early b x y behind other phi
    · obtain ⟨i, -, found⟩ := mem_instsAt.mp mem
      exact h.pairs x (Arena.get_ok_mem found)

end Pristine

end Procedure

namespace Listing

variable {f : Procedure} {v : NamedProcedure}

private theorem RegNamed.has {r : Reg} {s : String} (named : RegNamed f r s) : Arena.Has f.regs r :=
  Arena.get_range.mp ⟨s, named⟩

private theorem InstNamed.ranged {x : Inst} {i : NamedInst} (h : InstNamed f x i)
    (some : Arena.Has f.blocks 0) : x.Ranged f := by
  have regs : ∀ {rs : List Reg} {ss : List String}, List.Forall₂ (RegNamed f) rs ss →
      ∀ r ∈ rs, Arena.Has f.regs r := by
    intro rs ss named r mem
    obtain ⟨s, -, named⟩ := exists_right_of_forall₂ named mem
    exact named.has
  have terms : ∀ {ts : List Term} {us : List NamedTerm}, List.Forall₂ (TermNamed f) ts us →
      ∀ t ∈ ts, Arena.Has f.regs t.reg := by
    intro ts us named t mem
    obtain ⟨u, -, named⟩ := exists_right_of_forall₂ named mem
    exact named.1.has
  refine ⟨terms h.guard, regs h.defs, terms h.cond, fun u mem => ?_, regs h.implicits⟩
  obtain ⟨n, -, named⟩ := exists_right_of_forall₂ h.uses mem
  cases named with
  | reg r s named => exact ⟨named.has, some⟩
  | imm w => exact some
  | block b s named =>
    obtain ⟨blk, found, -⟩ := named
    exact Arena.get_range.mp ⟨blk, found⟩

private theorem InstNamed.tests {x : Inst} {i : NamedInst} (h : InstNamed f x i) (valid : i.Valid)
    (op : x.op = .sel ∨ x.op = .brc) : x.cond ≠ [] := by
  have cond : i.cond ≠ [] := by
    have arguments := valid.arguments
    rcases op with op | op <;> rw [← h.op, op] at arguments <;> exact arguments.1
  intro none
  have named := h.cond
  rw [none, List.forall₂_nil_left_iff] at named
  exact cond named

private theorem InstNamed.pairs {x : Inst} {i : NamedInst} (h : InstNamed f x i) (valid : i.Valid)
    (op : x.op = .phi) : x.uses.length % 2 = 0 := by
  have arguments := valid.arguments
  rw [← h.op, op] at arguments
  obtain ⟨-, xs, uses, -⟩ := arguments
  rw [h.uses.length_eq, uses]
  clear uses
  induction xs with
  | nil => rfl
  | cons x xs ih =>
    simp only [inputUses, List.flatMap_cons, List.length_append, List.length_cons,
      List.length_nil] at ih ⊢
    omega

namespace Settled

theorem inst (h : Settled f v) {x : Inst} (mem : x ∈ f.insts) :
    ∃ i, InstNamed f x i ∧ i.Valid ∧ Arena.Has f.blocks 0 := by
  obtain ⟨id, found⟩ := Arena.get_of_mem mem
  have laid : id ∈ f.layout.flatMap (codeOf f) := by
    rw [h.ordered]
    exact Arena.mem_ids.mpr (Arena.get_range.mp ⟨x, found⟩)
  obtain ⟨b, hb, code⟩ := List.mem_flatMap.mp laid
  obtain ⟨n, hn, blk, outlined⟩ := exists_right_of_forall₂ h.layout hb
  rw [codeOf_eq outlined.found] at code
  obtain ⟨i, hi, y, there, named⟩ := exists_right_of_forall₂ outlined.code code
  cases found.symm.trans there
  have range := Arena.get_range.mp ⟨blk, outlined.found⟩
  exact ⟨i, named, (h.valid.blocks n hn).code i hi, Int.le_refl 0, by omega⟩

private theorem leads (h : Settled f v) {b : BlockId} {blk : Block} (found : f.block b = .ok blk) :
    ∀ s ∈ blk.succs, Arena.Has f.blocks s := by
  obtain ⟨n, -, there, outlined⟩ := exists_right_of_forall₂ h.layout (h.blocks b blk found).1
  cases found.symm.trans outlined.found
  obtain ⟨succs, leads, inside⟩ := Procedure.flowSuccs_found found (fun id mem => by
    obtain ⟨i, -, x, there, named⟩ := exists_right_of_forall₂ outlined.code mem
    exact ⟨x, there, named.targets_found⟩) fun c laid => h.found laid
  cases (h.blocks b blk found).2.2.2.1.symm.trans leads
  exact fun s mem => Arena.get_range.mp (inside s mem)

private theorem flowOf_eq (h : Settled f v) {b : BlockId} {blk : Block} (found : f.block b = .ok blk) :
    flowOf f b = blk.succs := by
  simp only [flowOf, (h.blocks b blk found).2.2.2.1]

private theorem mem_preds (h : Settled f v) {b s : BlockId} {there : Block} (found : f.block s = .ok there) :
    b ∈ there.preds ↔ ∃ blk, f.block b = .ok blk ∧ s ∈ blk.succs := by
  rw [(h.blocks s there found).2.2.2.2, List.mem_filter, decide_eq_true_eq]
  constructor
  · rintro ⟨laid, leads⟩
    obtain ⟨blk, found⟩ := h.found laid
    exact ⟨blk, found, h.flowOf_eq found ▸ leads⟩
  · rintro ⟨blk, found, leads⟩
    exact ⟨(h.blocks b blk found).1, (h.flowOf_eq found).symm ▸ leads⟩

private theorem mutual_ends (h : Settled f v) (b s : BlockId) :
    s ∈ (f.blockAt b).succs ↔ b ∈ (f.blockAt s).preds := by
  constructor
  · intro leads
    have found := Procedure.block_of_succ leads
    obtain ⟨there, found'⟩ := Arena.get_range.mpr (h.leads found s leads)
    rw [Procedure.blockAt_eq found']
    exact (h.mem_preds found').mpr ⟨_, found, leads⟩
  · intro enters
    cases found' : f.block s with
    | error e =>
      rw [Procedure.blockAt_none (Arena.get_error.mp found').2] at enters
      cases enters
    | ok there =>
      rw [Procedure.blockAt_eq found'] at enters
      obtain ⟨blk, found, leads⟩ := (h.mem_preds found').mp enters
      rw [Procedure.blockAt_eq found]
      exact leads

private theorem layout_perm (h : Settled f v) : f.layout.Perm (Arena.ids f.blocks) := by
  refine (List.perm_ext_iff_of_nodup h.nodup Arena.nodup_ids).mpr fun b => ?_
  rw [Arena.mem_ids]
  constructor
  · exact fun laid => Arena.get_range.mp (h.found laid)
  · intro has
    obtain ⟨blk, found⟩ := Arena.get_range.mpr has
    exact (h.blocks b blk found).1

private theorem code_perm (h : Settled f v) :
    (f.blocks.toList.flatMap Block.code).Perm (Arena.ids f.insts) := by
  have places : f.blocks.toList.map Block.code = (Arena.ids f.blocks).map (codeOf f) := by
    refine List.ext_getElem (by simp [Arena.ids]) fun k hk hk' => ?_
    have bound : k < f.blocks.size := by simpa using hk
    have found : f.block (k : Int) = .ok f.blocks[k] :=
      (Arena.get_natCast _ k _).mpr (Array.getElem?_eq_getElem bound)
    have bound' : k < (Arena.ids f.blocks).length := by simpa [Arena.ids] using bound
    have here : (Arena.ids f.blocks)[k] = (k : Int) := by simp [Arena.ids]
    simp only [List.getElem_map, here, codeOf_eq found, Array.getElem_toList]
  rw [List.flatMap_def, places, ← List.flatMap_def]
  have ordered : f.layout.flatMap (codeOf f) = Arena.ids f.insts := h.ordered
  rw [← ordered]
  exact (h.layout_perm.flatMap_right _).symm

theorem pristine (h : Settled f v) : f.Pristine where
  regs := h.regs
  names := h.names
  numbered b blk found := (h.blocks b blk found).2.1
  live blk mem := by
    obtain ⟨b, found⟩ := Arena.get_of_mem mem
    exact (h.blocks b blk found).2.2.1
  layout := h.layout_perm
  code := h.code_perm
  ranged x mem := by
    obtain ⟨i, named, -, some⟩ := h.inst mem
    exact named.ranged some
  liveIn blk mem r hr := by
    obtain ⟨b, found⟩ := Arena.get_of_mem mem
    obtain ⟨n, -, there, outlined⟩ := exists_right_of_forall₂ h.layout (h.blocks b blk found).1
    cases found.symm.trans outlined.found
    obtain ⟨s, -, named⟩ := exists_right_of_forall₂ outlined.liveIn hr
    exact named.has
  flow b blk found := (h.blocks b blk found).2.2.2.1
  edges blk mem := by
    obtain ⟨b, found⟩ := Arena.get_of_mem mem
    refine List.forall_mem_append.mpr ⟨h.leads found, fun p hp => ?_⟩
    obtain ⟨there, found', -⟩ := (h.mem_preds found).mp hp
    exact Arena.get_range.mp ⟨there, found'⟩
  mutual_ends := h.mutual_ends
  once blk mem := by
    obtain ⟨b, found⟩ := Arena.get_of_mem mem
    refine ⟨Procedure.flowSuccs_nodup (h.blocks b blk found).2.2.2.1, ?_⟩
    rw [(h.blocks b blk found).2.2.2.2]
    exact h.nodup.filter _
  tests x mem op := by
    obtain ⟨i, named, valid, -⟩ := h.inst mem
    exact named.tests valid op
  pairs x mem op := by
    obtain ⟨i, named, valid, -⟩ := h.inst mem
    exact named.pairs valid op

end Settled

/-- Files that are read are a program of control flow graphs. The check comes to an answer on each of
them, and it finds nothing unless the procedure is flawed. -/
theorem pristine_of_read {sources : List Source} {p : Program} (h : read sources = .ok p) :
    (p.map Procedure.name).Nodup ∧ ∀ f ∈ p, f.Pristine ∧
      ∃ answer, f.verify = .ok answer ∧ (answer = .ok () ↔ ¬ f.Flawed) := by
  obtain ⟨vs, settled, nodup⟩ := settled_of_read h
  rw [← names_of_settled settled] at nodup
  refine ⟨nodup, fun f mem => ?_⟩
  obtain ⟨v, -, settled⟩ := exists_right_of_forall₂ settled mem
  obtain ⟨answer, verified⟩ := Procedure.answers_verify settled.pristine.edges
  refine ⟨settled.pristine, answer, verified, ?_⟩
  rw [← settled.pristine.wellFormed_iff, ← Procedure.verify_iff, verified, Except.ok.injEq]

/-- Two files. The block `C` is named before its label comes, and the last branch of `B` is one that
control does not get to. -/
def twoFiles : List Source :=
  [{ name := "a", bytes := bytesOf
      "func f\nA:\n brc %c, C\nB:\n ret\n br A\nC:\n %y = phi [1, A]\n ret %y" },
    { name := "b", bytes := bytesOf "func g\nA:\n ret" }]

/-- The program that they are read as. -/
def twoGraphs : Program :=
  [{ name := "f"
     regs := #["c", "y"]
     insts := #[{ op := .brc, cond := [⟨0, false⟩], uses := [.block 1] }, { op := .ret }, .jump 0,
       { op := .phi, defs := [1], uses := [.imm 1, .block 0] }, { op := .ret, uses := [.reg 1] }]
     blocks := #[{ id := 0, name := "A", code := [0], succs := [1, 2] },
       { id := 1, name := "C", code := [3, 4], preds := [0] },
       { id := 2, name := "B", code := [1, 2], preds := [0] }]
     layout := [0, 2, 1] },
   { name := "g"
     insts := #[{ op := .ret }]
     blocks := #[{ id := 0, name := "A", code := [0] }]
     layout := [0] }]

theorem pristine_of_read_twoFiles : read twoFiles = .ok twoGraphs ∧
    ∀ f ∈ twoGraphs, f.Pristine ∧ (f.Flawed ↔ f.name = "f") := by
  have source : read twoFiles = .ok twoGraphs := by decide +kernel
  have checks : ∀ f ∈ twoGraphs, f.verify = .ok (.ok ()) ↔ f.name ≠ "f" := by decide +kernel
  refine ⟨source, fun f mem => ?_⟩
  obtain ⟨-, each⟩ := pristine_of_read source
  obtain ⟨pristine, answer, verified, sound⟩ := each f mem
  have check := checks f mem
  rw [verified, Except.ok.injEq, sound, not_iff_not] at check
  exact ⟨pristine, check⟩

end Listing

end Predication
