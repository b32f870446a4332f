import Mathlib.Logic.Equiv.Defs
import Predication.Proofs.Drafts
import Predication.Proofs.FlowEdges

/-!
Procedures that differ in nothing but the numbers of blocks, registers and instructions. A procedure
that was read is settled: its outline tells everything about it but these numbers.
-/

set_option autoImplicit false
set_option relaxedAutoImplicit false

namespace Predication

structure Renumbering where
  block : Equiv.Perm BlockId
  reg : Equiv.Perm Reg
  inst : Equiv.Perm InstId

def Term.renumber (ρ : Renumbering) (t : Term) : Term := { t with reg := ρ.reg t.reg }

def Operand.renumber (ρ : Renumbering) : Operand → Operand
  | reg r label => reg (ρ.reg r) label
  | imm v label => imm v label
  | block b => block (ρ.block b)

/-- An instruction under new numbers. -/
def Inst.renumber (ρ : Renumbering) (i : Inst) : Inst :=
  { op := i.op
    defs := i.defs.map ρ.reg
    uses := i.uses.map (Operand.renumber ρ)
    cond := i.cond.map (Term.renumber ρ)
    guard := i.guard.map (Term.renumber ρ)
    implicits := i.implicits.map ρ.reg }

attribute [ext] Block

/-- A block under new numbers. -/
def Block.renumber (ρ : Renumbering) (b : Block) : Block :=
  { id := ρ.block b.id
    name := b.name
    code := b.code.map ρ.inst
    succs := b.succs.map ρ.block
    preds := b.preds.map ρ.block
    liveIn := b.liveIn.map ρ.reg
    dead := b.dead }

/-- The procedure `g` is `f` under new numbers: with the same names, in the same order. -/
structure Procedure.Renumbers (ρ : Renumbering) (f g : Procedure) : Prop where
  name : g.name = f.name
  layout : g.layout = f.layout.map ρ.block
  blocks : ∀ b, g.block (ρ.block b) = (f.block b).map (Block.renumber ρ)
  insts : ∀ i, g.inst (ρ.inst i) = (f.inst i).map (Inst.renumber ρ)
  regs : ∀ r, Arena.get g.regs (ρ.reg r) = Arena.get f.regs r
  sharing : g.sharing = f.sharing.map fun p => (ρ.inst p.1, ρ.inst p.2)

/-- Programs that are the same but for numbers, procedure by procedure. -/
def Program.Renumbered (p q : Program) : Prop :=
  List.Forall₂ (fun f g => ∃ ρ, Procedure.Renumbers ρ f g) p q

namespace Arena

variable {α : Type} [DecidableEq α]

def transfer (xs ys : Array α) (i : Int) : Int :=
  match get xs i with
  | .ok x => (ys.toList.idxOf x : Int)
  | .error _ => i

private theorem get_idxOf {ys : Array α} {x : α} (h : x ∈ ys) : get ys (ys.toList.idxOf x : Int) = .ok x := by
  have bound := List.idxOf_lt_length_iff.mpr (Array.mem_toList_iff.mpr h)
  rw [get_natCast, ← Array.getElem?_toList, List.getElem?_eq_getElem bound,
    List.getElem_idxOf bound]

private theorem get_transfer {xs ys : Array α} (same : ∀ x, x ∈ xs ↔ x ∈ ys) (size : xs.size = ys.size)
    (i : Int) : get ys (transfer xs ys i) = get xs i := by
  cases found : get xs i with
  | ok x =>
    simp only [transfer, found]
    exact get_idxOf ((same x).mp (get_ok_mem found))
  | error fault =>
    simp only [transfer, found]
    rw [get_error] at found ⊢
    rwa [← size]

private theorem transfer_transfer {xs ys : Array α} (nodup : xs.toList.Nodup)
    (same : ∀ x, x ∈ xs ↔ x ∈ ys) (size : xs.size = ys.size) (i : Int) :
    transfer ys xs (transfer xs ys i) = i := by
  have there := get_transfer same size i
  cases found : get xs i with
  | ok x =>
    rw [found] at there
    have back : transfer ys xs (transfer xs ys i) = (xs.toList.idxOf x : Int) := by
      rw [transfer, there]
    rw [back]
    exact get_inj nodup (get_idxOf (get_ok_mem found)) found
  | error fault =>
    rw [found] at there
    rw [transfer, there, transfer, found]

private theorem exists_perm (xs ys : Array α) (hx : xs.toList.Nodup) (hy : ys.toList.Nodup)
    (same : ∀ x, x ∈ xs ↔ x ∈ ys) : ∃ σ : Equiv.Perm Int, ∀ i, get ys (σ i) = get xs i := by
  have size : xs.size = ys.size := by
    have := (List.perm_ext_iff_of_nodup hx hy).mpr fun x => by
      rw [Array.mem_toList_iff, Array.mem_toList_iff]
      exact same x
    simpa using this.length_eq
  exact ⟨⟨transfer xs ys, transfer ys xs, transfer_transfer hx same size,
    transfer_transfer hy (fun x => (same x).symm) size.symm⟩, get_transfer same size⟩

end Arena

namespace Procedure

variable {ρ : Renumbering} {f g : Procedure}

private theorem targets_renumber (x : Inst) : (x.renumber ρ).targets = x.targets.map ρ.block := by
  have uses : (x.uses.map (Operand.renumber ρ)).filterMap Operand.block? =
      (x.uses.filterMap Operand.block?).map ρ.block := by
    rw [List.filterMap_map, List.map_filterMap]
    refine List.filterMap_congr fun u _ => ?_
    cases u <;> rfl
  obtain ⟨op, defs, us, cond, guard, implicits⟩ := x
  cases op <;> first | rfl | exact uses

private theorem endsFlow_renumber (x : Inst) : (x.renumber ρ).endsFlow = x.endsFlow := by
  simp only [Inst.endsFlow, Inst.isGuarded, Inst.renumber, List.isEmpty_map]

private theorem flowTargets_renumber (insts : ∀ i, g.inst (ρ.inst i) = (f.inst i).map (Inst.renumber ρ))
    (code : List InstId) : g.flowTargets (code.map ρ.inst) =
      (f.flowTargets code).map fun r => (r.1.map ρ.block, r.2) := by
  induction code with
  | nil => rfl
  | cons i rest ih =>
    rw [List.map_cons, flowTargets, flowTargets, insts i, ih]
    cases f.inst i with
    | error fault => rfl
    | ok x =>
      simp only [Except.map, Bind.bind, Except.bind, endsFlow_renumber, targets_renumber]
      split
      · rfl
      · cases f.flowTargets rest with
        | error fault => rfl
        | ok r => simp [Pure.pure, Except.pure]

private theorem following_map {h : BlockId → BlockId} (inj : Function.Injective h) (b : BlockId)
    (l : List BlockId) : following (h b) (l.map h) = (following b l).map h := by
  induction l with
  | nil => rfl
  | cons c l ih =>
    simp only [List.map_cons, following, inj.eq_iff]
    split
    · rw [List.head?_map]
    · exact ih

private theorem distinct_map {h : BlockId → BlockId} (inj : Function.Injective h) (l : List BlockId) :
    distinct (l.map h) = (distinct l).map h := by
  induction l with
  | nil => rfl
  | cons c l ih =>
    simp only [List.map_cons, distinct, ih, List.filter_map, List.cons.injEq, true_and]
    congr 1
    refine List.filter_congr fun d _ => ?_
    simp [inj.eq_iff]

private theorem next?_eq (low : ∀ b ∈ f.layout, 0 ≤ b) (b : BlockId) : f.next? b = following b f.layout := by
  unfold next?
  cases h : following b f.layout with
  | none => rfl
  | some c =>
    have : c ≠ -1 := by
      have := low c (following_mem h)
      rintro rfl
      exact absurd this (by decide)
    simp [BlockId.named?, this]

private theorem flowSuccs_renumber (insts : ∀ i, g.inst (ρ.inst i) = (f.inst i).map (Inst.renumber ρ))
    (layout : g.layout = f.layout.map ρ.block) (low : ∀ b ∈ f.layout, 0 ≤ b)
    (low' : ∀ b ∈ g.layout, 0 ≤ b) {b : BlockId}
    (code : g.code (ρ.block b) = (f.code b).map (List.map ρ.inst)) :
    g.flowSuccs (ρ.block b) = (f.flowSuccs b).map (List.map ρ.block) := by
  have next : g.next? (ρ.block b) = (f.next? b).map ρ.block := by
    rw [next?_eq low, next?_eq low', layout, following_map ρ.block.injective]
  simp only [flowSuccs, code, next]
  cases f.code b with
  | error fault => rfl
  | ok ids =>
    simp only [Except.map, Bind.bind, Except.bind, flowTargets_renumber insts]
    cases f.flowTargets ids with
    | error fault => rfl
    | ok r =>
      obtain ⟨targets, falls⟩ := r
      simp only [Pure.pure, Except.pure]
      rw [← distinct_map ρ.block.injective]
      cases falls with
      | true =>
        cases f.next? b <;> simp
      | false => simp

end Procedure

namespace Listing

/-- Where the code of a block leads; nowhere for code that cannot be followed. -/
def flowOf (f : Procedure) (b : BlockId) : List BlockId :=
  match f.flowSuccs b with
  | .ok succs => succs
  | .error _ => []

/-- A finished procedure: every block stands in the layout, the edges are those that the code says,
and everything else is told by the outline. -/
structure Settled (f : Procedure) (v : NamedProcedure) : Prop where
  name : f.name = v.name
  sharing : f.sharing = []
  regs : f.regs.toList.Nodup
  regs_used : ∀ s ∈ f.regs, s ∈ v.registers
  names : (f.blocks.toList.map Block.name).Nodup
  blocks : ∀ b blk, f.block b = .ok blk → b ∈ f.layout ∧ blk.id = b ∧ blk.dead = false ∧
    f.flowSuccs b = .ok blk.succs ∧ blk.preds = f.layout.filter fun p => decide (b ∈ flowOf f p)
  nodup : f.layout.Nodup
  layout : List.Forall₂ (fun b n => ∃ blk, BlockOutlined f b n blk) f.layout v.blocks
  ordered : f.layout.flatMap (codeOf f) = (List.range f.insts.size).map Int.ofNat
  valid : v.Valid

private theorem eq_map_of_forall₂ {α β γ : Type} {R : α → γ → Prop} {S : β → γ → Prop} {h : α → β}
    {l : List α} {l' : List β} {m : List γ} (hl : List.Forall₂ R l m) (hl' : List.Forall₂ S l' m)
    (same : ∀ a b c, R a c → S b c → b = h a) : l' = l.map h := by
  induction hl generalizing l' with
  | nil =>
    cases hl'
    rfl
  | cons first rest ih =>
    cases hl' with
    | cons first' rest' => rw [List.map_cons, ih rest', same _ _ _ first first']

private theorem forall₂_and {α β : Type} {R S : α → β → Prop} {l : List α} {m : List β}
    (hR : List.Forall₂ R l m) (hS : List.Forall₂ S l m) :
    List.Forall₂ (fun a b => R a b ∧ S a b) l m := by
  induction hR with
  | nil => exact .nil
  | cons first rest ih =>
    cases hS with
    | cons first' rest' => exact .cons ⟨first, first'⟩ (ih rest')

namespace Settled

variable {f g : Procedure} {v : NamedProcedure}

theorem found (h : Settled f v) {b : BlockId} (hb : b ∈ f.layout) : ∃ blk, f.block b = .ok blk := by
  obtain ⟨n, -, blk, outlined⟩ := exists_right_of_forall₂ h.layout hb
  exact ⟨blk, outlined.found⟩

private theorem low (h : Settled f v) : ∀ b ∈ f.layout, 0 ≤ b := fun _ hb =>
  (Arena.get_range.mp (h.found hb)).1

theorem mem_names (h : Settled f v) (s : String) : s ∈ f.blocks.map Block.name ↔ s ∈ v.labels := by
  constructor
  · intro hs
    obtain ⟨blk, mem, rfl⟩ := Array.mem_map.mp hs
    obtain ⟨b, found⟩ := Arena.get_of_mem mem
    obtain ⟨n, hn, x, outlined⟩ := exists_right_of_forall₂ h.layout (h.blocks b blk found).1
    have same : x = blk := Except.ok.inj (outlined.found.symm.trans found)
    exact List.mem_map.mpr ⟨n, hn, by rw [← outlined.name, same]⟩
  · intro hs
    obtain ⟨n, hn, rfl⟩ := List.mem_map.mp hs
    obtain ⟨b, -, blk, outlined⟩ := exists_left_of_forall₂ h.layout hn
    exact Array.mem_map.mpr ⟨blk, Arena.get_ok_mem outlined.found, outlined.name⟩

private theorem mem_regs (h : Settled f v) (s : String) : s ∈ f.regs ↔ s ∈ v.registers := by
  refine ⟨h.regs_used s, fun hs => ?_⟩
  have named : ∀ {rs : List Reg} {ss : List String}, List.Forall₂ (RegNamed f) rs ss → s ∈ ss →
      s ∈ f.regs := fun all mem => by
    obtain ⟨r, -, named⟩ := exists_left_of_forall₂ all mem
    exact Arena.get_ok_mem named
  have terms : ∀ {ts : List Term} {us : List NamedTerm}, List.Forall₂ (TermNamed f) ts us →
      s ∈ us.map NamedTerm.reg → s ∈ f.regs := fun all mem => by
    obtain ⟨u, hu, rfl⟩ := List.mem_map.mp mem
    obtain ⟨t, -, named, -⟩ := exists_left_of_forall₂ all hu
    exact Arena.get_ok_mem named
  obtain ⟨n, hn, hs⟩ := List.mem_flatMap.mp hs
  obtain ⟨b, -, blk, outlined⟩ := exists_left_of_forall₂ h.layout hn
  rcases List.mem_append.mp hs with hs | hs
  · exact named outlined.liveIn hs
  · obtain ⟨i, hi, hs⟩ := List.mem_flatMap.mp hs
    obtain ⟨id, -, x, -, inst⟩ := exists_left_of_forall₂ outlined.code hi
    simp only [NamedInst.registers, List.mem_append] at hs
    rcases hs with (((hs | hs) | hs) | hs) | hs
    · exact terms inst.guard hs
    · exact named inst.defs hs
    · exact terms inst.cond hs
    · obtain ⟨u, hu, hs⟩ := List.mem_flatMap.mp hs
      obtain ⟨x, -, operand⟩ := exists_left_of_forall₂ inst.uses hu
      cases operand with
      | reg r t named =>
        rw [List.mem_singleton.mp hs]
        exact Arena.get_ok_mem named
      | imm v => cases hs
      | block b t named => cases hs
    · exact named inst.implicits hs

private theorem regs_unique (hg : Settled g v) {σ : Equiv.Perm Reg}
    (hσ : ∀ r, Arena.get g.regs (σ r) = Arena.get f.regs r) {r r' : Reg} {s : String}
    (hr : RegNamed f r s) (hr' : RegNamed g r' s) : r' = σ r :=
  Arena.get_inj hg.regs hr' ((hσ r).trans hr)

private theorem blocks_unique (hg : Settled g v) {τ : Equiv.Perm BlockId}
    (hτ : ∀ b, (g.block (τ b)).map Block.name = (f.block b).map Block.name) {b b' : BlockId}
    {s : String} (hb : BlockNamed f b s) (hb' : BlockNamed g b' s) : b' = τ b := by
  refine hb'.unique hg.names ?_
  obtain ⟨blk, found, rfl⟩ := hb
  have same := hτ b
  rw [found] at same
  cases found' : g.block (τ b) with
  | error e =>
    rw [found'] at same
    cases same
  | ok x =>
    rw [found'] at same
    exact ⟨x, found', Except.ok.inj same⟩

private theorem insts_unique (hg : Settled g v) {ρ : Renumbering}
    (hσ : ∀ r, Arena.get g.regs (ρ.reg r) = Arena.get f.regs r)
    (hτ : ∀ b, (g.block (ρ.block b)).map Block.name = (f.block b).map Block.name)
    {x y : Inst} {i : NamedInst} (hx : InstNamed f x i) (hy : InstNamed g y i) :
    y = x.renumber ρ := by
  have regs : ∀ {rs rs' : List Reg} {ss : List String}, List.Forall₂ (RegNamed f) rs ss →
      List.Forall₂ (RegNamed g) rs' ss → rs' = rs.map ρ.reg := fun h h' =>
    eq_map_of_forall₂ h h' fun _ _ _ => hg.regs_unique hσ
  have terms : ∀ {ts ts' : List Term} {us : List NamedTerm}, List.Forall₂ (TermNamed f) ts us →
      List.Forall₂ (TermNamed g) ts' us → ts' = ts.map (Term.renumber ρ) := fun h h' =>
    eq_map_of_forall₂ h h' fun t t' u ht ht' => by
      obtain ⟨r, negated⟩ := t
      obtain ⟨r', negated'⟩ := t'
      have reg : r' = ρ.reg r := hg.regs_unique hσ ht.1 ht'.1
      have sign : negated' = negated := ht'.2.trans ht.2.symm
      rw [reg, sign]
      rfl
  have operands : ∀ {us us' : List Operand} {ns : List NamedOperand},
      List.Forall₂ (OperandNamed f) us ns → List.Forall₂ (OperandNamed g) us' ns →
      us' = us.map (Operand.renumber ρ) := fun h h' =>
    eq_map_of_forall₂ h h' fun u u' n hu hu' => by
      cases hu with
      | reg r s named =>
        cases hu' with
        | reg r' s named' =>
          rw [hg.regs_unique hσ named named']
          rfl
      | imm w =>
        cases hu'
        rfl
      | block b s named =>
        cases hu' with
        | block b' s named' =>
          rw [hg.blocks_unique hτ named named']
          rfl
  obtain ⟨op, defs, uses, cond, guard, implicits⟩ := x
  obtain ⟨op', defs', uses', cond', guard', implicits'⟩ := y
  have same_op : op' = op := hy.op.trans hx.op.symm
  have same_defs : defs' = defs.map ρ.reg := regs hx.defs hy.defs
  have same_uses : uses' = uses.map (Operand.renumber ρ) := operands hx.uses hy.uses
  have same_cond : cond' = cond.map (Term.renumber ρ) := terms hx.cond hy.cond
  have same_guard : guard' = guard.map (Term.renumber ρ) := terms hx.guard hy.guard
  have same_implicits : implicits' = implicits.map ρ.reg := regs hx.implicits hy.implicits
  rw [same_op, same_defs, same_uses, same_cond, same_guard, same_implicits]
  rfl

private theorem codes_unique (hf : Settled f v) (hg : Settled g v) :
    f.insts.size = g.insts.size ∧ g.layout.map (codeOf g) = f.layout.map (codeOf f) := by
  have lengths : ∀ {h : Procedure}, Settled h v →
      (h.layout.map (codeOf h)).map List.length = v.blocks.map fun n => n.code.length := by
    intro h hh
    rw [List.map_map, ← List.forall₂_eq_eq_eq]
    refine List.forall₂_map_left_iff.mpr (List.forall₂_map_right_iff.mpr (hh.layout.imp ?_))
    rintro b n ⟨blk, outlined⟩
    rw [Function.comp_apply, codeOf_eq outlined.found]
    exact outlined.code.length_eq
  have size : ∀ {h : Procedure}, Settled h v →
      h.insts.size = (v.blocks.map fun n => n.code.length).sum := by
    intro h hh
    have := congrArg List.length hh.ordered
    rw [List.flatMap_def, List.length_flatten, lengths hh, List.length_map, List.length_range] at this
    exact this.symm
  have same : f.insts.size = g.insts.size := (size hf).trans (size hg).symm
  refine ⟨same, List.eq_iff_flatten_eq.mpr ⟨?_, (lengths hg).trans (lengths hf).symm⟩⟩
  rw [← List.flatMap_def, ← List.flatMap_def, hf.ordered, hg.ordered, same]

theorem renumbers (hf : Settled f v) (hg : Settled g v) :
    ∃ ρ, Procedure.Renumbers ρ f g := by
  obtain ⟨σ, hσ⟩ := Arena.exists_perm f.regs g.regs hf.regs hg.regs
    fun s => (hf.mem_regs s).trans (hg.mem_regs s).symm
  obtain ⟨τ, hτ'⟩ := Arena.exists_perm (f.blocks.map Block.name) (g.blocks.map Block.name)
    (by rw [Array.toList_map]; exact hf.names) (by rw [Array.toList_map]; exact hg.names)
    fun s => (hf.mem_names s).trans (hg.mem_names s).symm
  have hτ : ∀ b, (g.block (τ b)).map Block.name = (f.block b).map Block.name := fun b => by
    have := hτ' b
    rwa [Arena.get_map, Arena.get_map] at this
  let ρ : Renumbering := ⟨τ, σ, Equiv.refl _⟩
  have layout : g.layout = f.layout.map τ := by
    refine eq_map_of_forall₂ hf.layout hg.layout ?_
    rintro b b' n ⟨blk, outlined⟩ ⟨blk', outlined'⟩
    exact hg.blocks_unique hτ ⟨blk, outlined.found, outlined.name⟩
      ⟨blk', outlined'.found, outlined'.name⟩
  -- the two blocks at one place of the layouts have one outline
  have pairs : List.Forall₂ (fun b n => (∃ blk, BlockOutlined f b n blk) ∧
      ∃ blk, BlockOutlined g (τ b) n blk) f.layout v.blocks := by
    have := hg.layout
    rw [layout, List.forall₂_map_left_iff] at this
    exact forall₂_and hf.layout this
  obtain ⟨size, codes⟩ := hf.codes_unique hg
  rw [layout, List.map_map] at codes
  have code : ∀ b ∈ f.layout, codeOf g (τ b) = codeOf f b := List.map_inj_left.mp codes
  have insts : ∀ i, g.inst i = (f.inst i).map (Inst.renumber ρ) := by
    intro i
    cases found : f.inst i with
    | error fault =>
      have out := Arena.get_error.mp found
      rw [size] at out
      exact Arena.get_error.mpr out
    | ok x =>
      have mem : i ∈ f.layout.flatMap (codeOf f) := by
        obtain ⟨n, rfl, hn⟩ := Arena.get_eq_ok.mp found
        have := (Array.getElem?_eq_some_iff.mp hn).1
        rw [hf.ordered]
        exact List.mem_map.mpr ⟨n, List.mem_range.mpr this, rfl⟩
      obtain ⟨b, hb, hi⟩ := List.mem_flatMap.mp mem
      obtain ⟨n, -, ⟨blk, outlined⟩, blk', outlined'⟩ := exists_right_of_forall₂ pairs hb
      have same : blk'.code = blk.code := by
        rw [← codeOf_eq outlined'.found, code b hb, codeOf_eq outlined.found]
      have both := forall₂_and outlined.code (same ▸ outlined'.code)
      rw [codeOf_eq outlined.found] at hi
      obtain ⟨ni, -, ⟨x', found', named⟩, y, there, named'⟩ := exists_right_of_forall₂ both hi
      cases found.symm.trans found'
      rw [there, hg.insts_unique (ρ := ρ) hσ hτ named named']
      rfl
  have flow : ∀ b ∈ f.layout, g.flowSuccs (τ b) = (f.flowSuccs b).map (List.map τ) := by
    intro b hb
    refine Procedure.flowSuccs_renumber (ρ := ρ) insts layout hf.low hg.low ?_
    obtain ⟨n, -, ⟨blk, outlined⟩, blk', outlined'⟩ := exists_right_of_forall₂ pairs hb
    have same : blk'.code = blk.code := by
      rw [← codeOf_eq outlined'.found, code b hb, codeOf_eq outlined.found]
    change g.code (τ b) = _
    simp only [Procedure.code, outlined.found, outlined'.found]
    change Except.ok blk'.code = Except.ok (blk.code.map id)
    rw [same, List.map_id]
  refine ⟨ρ, hg.name.trans hf.name.symm, layout, fun b => ?_, insts, hσ, ?_⟩
  · change g.block (τ b) = (f.block b).map (Block.renumber ρ)
    have names := hτ b
    cases found : f.block b with
    | error fault =>
      rw [found] at names
      cases there : g.block (τ b) with
      | error fault' =>
        rw [there] at names
        cases names
        rfl
      | ok blk =>
        rw [there] at names
        cases names
    | ok blk =>
      obtain ⟨hb, id, live, succs, preds⟩ := hf.blocks b blk found
      obtain ⟨n, -, ⟨x, outlined⟩, blk', outlined'⟩ := exists_right_of_forall₂ pairs hb
      cases found.symm.trans outlined.found
      obtain ⟨-, id', live', succs', preds'⟩ := hg.blocks (τ b) blk' outlined'.found
      rw [outlined'.found]
      refine congrArg Except.ok (Block.ext ?_ ?_ ?_ ?_ ?_ ?_ ?_)
      · rw [id', ← id]
        rfl
      · exact outlined'.name.trans outlined.name.symm
      · rw [← codeOf_eq outlined'.found, code b hb, codeOf_eq outlined.found]
        exact (List.map_id _).symm
      · have := flow b hb
        rw [succs, succs'] at this
        exact Except.ok.inj this
      · rw [preds', layout, List.filter_map]
        change _ = blk.preds.map τ
        rw [preds]
        refine congrArg (List.map τ) (List.filter_congr fun p hp => ?_)
        have leads : flowOf g (τ p) = (flowOf f p).map τ := by
          simp only [flowOf, flow p hp]
          cases f.flowSuccs p <;> rfl
        simp [leads]
      · exact eq_map_of_forall₂ outlined.liveIn outlined'.liveIn fun _ _ _ => hg.regs_unique hσ
      · rw [live']
        exact live.symm
  · rw [hf.sharing, hg.sharing]
    rfl

end Settled

end Listing

end Predication
