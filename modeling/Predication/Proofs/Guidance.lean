import Mathlib.Data.List.Perm.Subperm
import Predication.Proofs.Traits

/-!
Procedures that can be cleaned up without a fault. Every instruction is there, a branch stands in one
block only, and code whose only ways out are jumps leads along an edge. Each step of a cleanup keeps
this up; what it does to the traits of the code is said on the way.
-/

set_option autoImplicit false
set_option relaxedAutoImplicit false

namespace Predication

open Cleanup

namespace Inst

variable {x y z : Inst}

def Selects (x : Inst) : Prop := x.op = .phi ∨ (x.op = .copy ∨ x.op = .undef)

/-- The instructions mean the same for where control goes. -/
structure Like (x y : Inst) : Prop where
  br : y.op = .br ↔ x.op = .br
  trait : y.trait = x.trait
  defs : y.defs = x.defs
  able : x.Able → y.Able
  selects : x.Selects → y.Selects

theorem Like.refl (x : Inst) : Like x x := ⟨Iff.rfl, rfl, rfl, id, id⟩

theorem Like.trans (h : Like x y) (h' : Like y z) : Like x z :=
  ⟨h'.br.trans h.br, h'.trait.trans h.trait, h'.defs.trans h.defs, h'.able ∘ h.able,
    h'.selects ∘ h.selects⟩

private theorem trait_congr (op : y.op = x.op) (guard : y.isGuarded = x.isGuarded)
    (target : x.op = .br → y.uses.head?.map Operand.blockId = x.uses.head?.map Operand.blockId) :
    y.trait = x.trait := by
  have jumps : isJump y = isJump x := by rw [isJump, isJump, op, guard]
  have ends : y.endsFlow = x.endsFlow := by rw [endsFlow, endsFlow, op, guard]
  unfold trait
  rw [op, jumps, ends]
  split
  · rfl
  · split
    · rename_i jump
      rw [target (op_of_isJump jump)]
    · rfl

private theorem Like.reuse (other : x.op ≠ .br) (uses : List Operand) : Like x { x with uses := uses } :=
  ⟨Iff.rfl, trait_congr rfl rfl fun br => absurd br other, rfl,
    fun able => ⟨able.defs, fun br => absurd br other⟩, id⟩

private theorem Like.renameReads (x : Inst) (d r : Reg) : Like x (x.renameReads d r) := by
  have guard : (x.renameReads d r).isGuarded = x.isGuarded := by
    simp [Inst.renameReads, isGuarded]
  refine ⟨Iff.rfl, trait_congr rfl guard fun _ => ?_, rfl, fun able => ⟨able.defs, fun br => ?_⟩, id⟩
  · show (x.uses.map (Operand.renameReg d r)).head?.map Operand.blockId = _
    cases x.uses with
    | nil => rfl
    | cons u _ =>
      cases u with
      | reg v label =>
        simp only [List.map_cons, List.head?_cons, Option.map_some, Operand.renameReg]
        split <;> rfl
      | imm | block => rfl
  · obtain ⟨t, rest, uses, named⟩ := able.leads br
    exact ⟨t, rest.map (Operand.renameReg d r), by simp [Inst.renameReads, uses, Operand.renameReg],
      named⟩

private theorem Selects.trait (h : x.Selects) : x.trait = .inert := by
  unfold Inst.trait isJump
  rcases h with h | h | h <;> simp [h, Op.isDebug, Op.isTerminator]

theorem Selects.br (h : x.Selects) : x.op ≠ .br := by
  intro br
  rcases h with h | h | h <;> rw [br] at h <;> cases h

theorem Like.resolve (h : x.Selects) {op : Op} (resolved : op = .copy ∨ op = .undef)
    (uses : List Operand) : Like x { x with op := op, uses := uses } := by
  have selects : Selects { x with op := op, uses := uses } := .inr resolved
  refine ⟨iff_of_false selects.br h.br, selects.trait.trans h.trait.symm, rfl, fun _ => ⟨?_, ?_⟩,
    fun _ => selects⟩
  · intro phi
    rcases resolved with same | same <;> exact nomatch same.symm.trans phi
  · exact fun br => absurd br selects.br

private theorem able_jump {n : BlockId} (named : n ≠ -1) : (Inst.jump n).Able :=
  ⟨fun op => (nomatch op), fun _ => ⟨n, [], rfl, named⟩⟩

end Inst

namespace Procedure

variable {f g k : Procedure} {b c s t p x n : BlockId} {i j : InstId} {y : Inst} {code : List InstId}

def Shared (f : Procedure) : Prop := ∀ e ∈ f.sharing, ∃ y, f.inst e.1 = .ok y ∧ y.op ≠ .br

/-- All instructions mean the same as before for where control goes. -/
structure Kin (f g : Procedure) : Prop where
  inst : ∀ i y, f.inst i = .ok y → ∃ z, g.inst i = .ok z ∧ y.Like z
  shared : f.Shared → g.Shared

theorem Kin.refl (f : Procedure) : Kin f f := ⟨fun _ y found => ⟨y, found, .refl y⟩, id⟩

theorem Kin.trans (h : Kin f g) (h' : Kin g k) : Kin f k := by
  refine ⟨fun i y found => ?_, fun shared => h'.shared (h.shared shared)⟩
  obtain ⟨z, found, like⟩ := h.inst i y found
  obtain ⟨u, found, like'⟩ := h'.inst i z found
  exact ⟨u, found, like.trans like'⟩

private theorem Kin.of_inst (inst : ∀ i y, f.inst i = .ok y → ∃ z, g.inst i = .ok z ∧ y.Like z)
    (sharing : g.sharing = f.sharing) : Kin f g := by
  refine ⟨inst, fun shared e mem => ?_⟩
  rw [sharing] at mem
  obtain ⟨y, found, other⟩ := shared e mem
  obtain ⟨z, found, like⟩ := inst e.1 y found
  exact ⟨z, found, fun br => other (like.br.mp br)⟩

private theorem Kin.of_same (inst : ∀ i, g.inst i = f.inst i) (sharing : g.sharing = f.sharing) : Kin f g :=
  .of_inst (fun i y found => ⟨y, (inst i).trans found, .refl y⟩) sharing

private theorem Kin.ableCode (h : Kin f g) (able : f.AbleCode code) : g.AbleCode code := by
  intro i hi
  obtain ⟨y, found, here⟩ := able i hi
  obtain ⟨z, found, like⟩ := h.inst i y found
  exact ⟨z, found, like.able here⟩

theorem Kin.traitsOf (h : Kin f g) (able : f.AbleCode code) : g.traitsOf code = f.traitsOf code := by
  refine List.filterMap_congr fun i hi => ?_
  obtain ⟨y, found, -⟩ := able i hi
  obtain ⟨z, found', like⟩ := h.inst i y found
  rw [inst?_eq_some.mpr found, inst?_eq_some.mpr found', Option.map_some, Option.map_some, like.trait]

/-- What a cleanup relies on all the time: edges are known at both ends, instructions are there, and
a branch stands in one block. -/
structure Firm (f : Procedure) : Prop extends Meshed f where
  able : ∀ b, f.AbleCode (f.blockAt b).code
  apart : ∀ i y b c, f.inst i = .ok y → y.op = .br → i ∈ (f.blockAt b).code →
    i ∈ (f.blockAt c).code → b = c
  shared : f.Shared

theorem Kin.br (h : Kin f g) (able : f.AbleCode code) (hi : i ∈ code) (found : g.inst i = .ok y)
    (br : y.op = .br) : ∃ z, f.inst i = .ok z ∧ z.op = .br := by
  obtain ⟨z, there, -⟩ := able i hi
  obtain ⟨u, found', like⟩ := h.inst i z there
  cases found.symm.trans found'
  exact ⟨z, there, like.br.mp br⟩

private theorem Firm.of_sub (h : f.Firm) (kin : Kin f g) (meshed : g.Meshed)
    (sub : ∀ c, ∀ i ∈ (g.blockAt c).code, i ∈ (f.blockAt c).code) : g.Firm where
  toMeshed := meshed
  able c := kin.ableCode ((h.able c).of_sub (sub c))
  apart i y b c found br hb hc := by
    obtain ⟨z, there, br⟩ := kin.br (h.able b) (sub b i hb) found br
    exact h.apart i z b c there br (sub b i hb) (sub c i hc)
  shared := kin.shared h.shared

theorem Kin.traits (h : Kin f g) (firm : f.Firm) (same : (g.blockAt c).code = (f.blockAt c).code) :
    g.traits c = f.traits c := by
  rw [Procedure.traits, same, h.traitsOf (firm.able c)]
  rfl

structure Revises (f g : Procedure) : Prop extends Kin f g where
  blocks : g.blocks = f.blocks
  layout : g.layout = f.layout

theorem Revises.refl (f : Procedure) : Revises f f := ⟨.refl f, rfl, rfl⟩

theorem Revises.trans (h : Revises f g) (h' : Revises g k) : Revises f k :=
  ⟨h.toKin.trans h'.toKin, h'.blocks.trans h.blocks, h'.layout.trans h.layout⟩

theorem Revises.blockAt (h : Revises f g) (c : BlockId) : g.blockAt c = f.blockAt c :=
  blockAt_congr h.blocks c

private theorem Revises.sameLinks (h : Revises f g) : SameLinks f g :=
  sameLinks_of_blocks h.blocks h.layout

theorem Revises.firm (h : Revises f g) (firm : f.Firm) : g.Firm := by
  refine firm.of_sub h.toKin (firm.recode h.sameLinks fun c dead => ?_) fun c i mem => ?_
  · rw [h.blockAt]
    exact (firm.removed c dead).2
  · rwa [h.blockAt] at mem

theorem Revises.traits (h : Revises f g) (firm : f.Firm) (c : BlockId) : g.traits c = f.traits c :=
  h.toKin.traits firm (by rw [h.blockAt])

theorem updateInst_revises (found : f.inst i = .ok y) {u : Inst → Inst} (like : y.Like (u y)) :
    Gives (f.updateInst i u) (Revises f) := by
  obtain ⟨g, run, blocks, layout, sharing, inst⟩ := updateInst_gives found u
  refine ⟨g, run, .of_inst (fun j z there => ?_) sharing, blocks, layout⟩
  rw [inst, there]
  split
  · rename_i same
    cases (same ▸ there).symm.trans found
    exact ⟨u y, rfl, like⟩
  · exact ⟨z, rfl, .refl z⟩

private theorem reviseAll_gives {ids : List InstId} {step : Procedure → InstId → Except Fault Procedure}
    (other : ∀ i ∈ ids, ∃ y, f.inst i = .ok y ∧ y.op ≠ .br)
    (one : ∀ g i y, g.inst i = .ok y → y.op ≠ .br → Gives (step g i) (Revises g)) :
    Gives (ids.foldlM step f) (Revises f) := by
  refine Gives.foldlM (fun g i mem h => ?_) (.refl f)
  obtain ⟨y, found, other⟩ := other i mem
  obtain ⟨z, found, like⟩ := h.inst i y found
  exact (one g i z found fun br => other (like.br.mp br)).imp fun k h' => h.trans h'

private theorem revisePhis_gives (firm : f.Firm) (live : (f.blockAt b).dead = false)
    {step : Procedure → InstId → Except Fault Procedure}
    (one : ∀ g i y, g.inst i = .ok y → y.op ≠ .br → Gives (step g i) (Revises g)) :
    Gives (do (← f.phis b).foldlM step f) (Revises f) := by
  refine (phis_gives live (firm.able b)).bind fun ids ⟨_, phis⟩ => ?_
  refine reviseAll_gives (fun i mem => ?_) one
  obtain ⟨y, found, phi, -⟩ := phis i mem
  exact ⟨y, found, by rw [phi]; exact fun br => nomatch br⟩

theorem removePhiInputs_gives (firm : f.Firm) (live : (f.blockAt b).dead = false) :
    Gives (f.removePhiInputs b p) (Revises f) :=
  revisePhis_gives firm live fun _ _ _ found other => updateInst_revises found (.reuse other _)

private theorem renamePhiInputs_gives (firm : f.Firm) (live : (f.blockAt x).dead = false) :
    Gives (renamePhiInputs f x s b) (Revises f) :=
  revisePhis_gives firm live fun _ _ _ found other => updateInst_revises found (.reuse other _)

theorem copyPhiInputs_gives (firm : f.Firm) (live : (f.blockAt x).dead = false) :
    Gives (copyPhiInputs f x t p) (Revises f) := by
  refine revisePhis_gives firm live fun g i y found other => ?_
  rw [found]
  dsimp only [bind, Except.bind]
  split
  · exact updateInst_revises found (.reuse other _)
  · exact .of_ok (.refl g)

theorem sharing_addSucc (h : f.addSucc b s = .ok g) : g.sharing = f.sharing := by
  obtain ⟨-, ⟨-, rfl⟩ | ⟨-, -, rfl⟩⟩ := addSucc_ok h
  · rfl
  · simp

theorem sharing_removeSucc (h : f.removeSucc b s = .ok g) : g.sharing = f.sharing := by
  obtain ⟨-, ⟨-, rfl⟩ | ⟨-, -, rfl⟩⟩ := removeSucc_ok h
  · rfl
  · simp

theorem SameCode.firm (h : SameCode f g) (firm : f.Firm) (meshed : g.Meshed)
    (sharing : g.sharing = f.sharing) : g.Firm :=
  firm.of_sub (.of_same h.inst sharing) meshed fun c i mem => by rwa [h.code] at mem

private theorem Firm.addSucc (firm : f.Firm) (h : f.addSucc b s = .ok g) (live : (f.blockAt b).dead = false) :
    g.Firm :=
  (addSucc_view h).1.firm firm (firm.toMeshed.addSucc h live) (sharing_addSucc h)

theorem Firm.removeSucc (firm : f.Firm) (h : f.removeSucc b s = .ok g) : g.Firm :=
  (removeSucc_view h firm.toMeshed.paired).1.firm firm (firm.toMeshed.removeSucc h)
    (sharing_removeSucc h)

private theorem sharing_removeSuccs {l : List BlockId}
    (h : l.foldlM (fun f s => f.removeSucc b s) f = .ok g) : g.sharing = f.sharing := by
  induction l generalizing f with
  | nil =>
    cases h
    rfl
  | cons s l ih =>
    obtain ⟨k, first, rest⟩ := bind_ok_iff.mp h
    exact (ih rest).trans (sharing_removeSucc first)

theorem sharing_removeBlock (h : f.removeBlock b = .ok g) : g.sharing = f.sharing := by
  obtain ⟨blk, -, h⟩ := bind_ok_iff.mp h
  split at h
  · obtain ⟨k, removed, h⟩ := bind_ok_iff.mp h
    obtain ⟨m, updated, h⟩ := bind_ok_iff.mp h
    obtain ⟨-, rfl⟩ := updateBlock_ok updated
    cases h
    exact (sharing_mapBlock k b _).trans (sharing_removeSuccs removed)
  · cases h

theorem removeBlock_gives (firm : f.Firm) (live : (f.blockAt b).dead = false)
    (alone : (f.blockAt b).preds = []) :
    Gives (f.removeBlock b) fun g => g.Firm ∧ Kin f g ∧ Without b f g := by
  obtain ⟨h, removed, -, -⟩ := firm.toMeshed.paired.removeBlock_gives (block_of_live live) alone
  obtain ⟨meshed, without⟩ := removeBlock_view firm.toMeshed removed
  have kin : Kin f h := .of_same without.inst (sharing_removeBlock removed)
  refine ⟨h, removed, firm.of_sub kin meshed fun c i mem => ?_, kin, without⟩
  by_cases same : c = b
  · rw [same, (meshed.removed b without.gone).2] at mem
    cases mem
  · rwa [without.code c same] at mem

private theorem kin_setCode (f : Procedure) (b : BlockId) (code : List InstId) : Kin f (f.setCode b code) :=
  .of_same (inst_setCode f b code) (by simp [Procedure.setCode])

theorem Firm.setCode (firm : f.Firm) (known : f.block b = .ok (f.blockAt b))
    (sub : ∀ i ∈ code, i ∈ (f.blockAt b).code) : (f.setCode b code).Firm := by
  have same : ∀ c, ∀ i ∈ ((f.setCode b code).blockAt c).code, i ∈ (f.blockAt c).code := by
    intro c i mem
    rw [code_setCode known] at mem
    split at mem
    · rename_i here
      rw [here]
      exact sub i mem
    · exact mem
  refine firm.of_sub (kin_setCode f b code)
    (firm.recode (sameLinks_setCode known code) fun c dead => ?_) same
  rw [List.eq_nil_iff_forall_not_mem]
  intro i mem
  have old := same c i mem
  rw [(firm.removed c dead).2] at old
  cases old

theorem Firm.fresh (firm : f.Firm) (c : BlockId) : (f.insts.size : InstId) ∉ (f.blockAt c).code := by
  intro mem
  obtain ⟨y, found, -⟩ := firm.able c _ mem
  have bound := (Arena.get_range.mp ⟨y, found⟩).2
  omega

def place (f : Procedure) (b : BlockId) (before after : List InstId) (y : Inst) : Procedure :=
  (f.addInst y).1.setCode b (before ++ (f.insts.size : InstId) :: after)

variable {before after : List InstId}

theorem inst_place_new : (f.place b before after y).inst f.insts.size = .ok y := by
  unfold place
  rw [inst_setCode]
  exact Arena.get_push_size f.insts y

private theorem kin_place : Kin f (f.place b before after y) := by
  refine .of_inst (fun i z found => ⟨z, ?_, .refl z⟩) (by simp [place, Procedure.setCode, addInst])
  unfold place
  rw [inst_setCode]
  exact inst_addInst found

private theorem sameLinks_place (known : f.block b = .ok (f.blockAt b)) :
    SameLinks f (f.place b before after y) :=
  (sameLinks_of_blocks (f := f) (g := (f.addInst y).1) rfl rfl).trans
    (sameLinks_setCode (f := (f.addInst y).1) known _)

theorem code_place (known : f.block b = .ok (f.blockAt b)) (before after : List InstId) (y : Inst)
    (c : BlockId) : ((f.place b before after y).blockAt c).code =
      if c = b then before ++ (f.insts.size : InstId) :: after else (f.blockAt c).code :=
  code_setCode (f := (f.addInst y).1) known _ c

theorem mem_code_place (known : f.block b = .ok (f.blockAt b))
    (split : (f.blockAt b).code = before ++ after)
    (mem : i ∈ ((f.place b before after y).blockAt c).code) :
    i ∈ (f.blockAt c).code ∨ c = b ∧ i = f.insts.size := by
  rw [code_place known] at mem
  split at mem
  · rename_i here
    rw [List.mem_append, List.mem_cons] at mem
    rw [here, split, List.mem_append]
    tauto
  · exact .inl mem

private theorem Firm.place (firm : f.Firm) (live : (f.blockAt b).dead = false) (able : y.Able)
    (split : (f.blockAt b).code = before ++ after) : (f.place b before after y).Firm := by
  have known := block_of_live live
  have code := code_place known before after y
  refine ⟨firm.recode (sameLinks_place known) fun c dead => ?_, fun c i mem => ?_,
    fun i z c d found br hc hd => ?_, kin_place.shared firm.shared⟩
  · have other : c ≠ b := by
      rintro rfl
      rw [live] at dead
      cases dead
    rw [code, if_neg other]
    exact (firm.removed c dead).2
  · rcases mem_code_place known split mem with old | ⟨-, rfl⟩
    · exact kin_place.ableCode (firm.able c) i old
    · exact ⟨y, inst_place_new, able⟩
  · rcases mem_code_place known split hc with oldC | ⟨rfl, rfl⟩
    · rcases mem_code_place known split hd with oldD | ⟨-, rfl⟩
      · obtain ⟨u, there, br⟩ := kin_place.br (firm.able c) oldC found br
        exact firm.apart i u c d there br oldC oldD
      · exact absurd oldC (firm.fresh c)
    · rcases mem_code_place known split hd with oldD | ⟨rfl, -⟩
      · exact absurd oldD (firm.fresh d)
      · rfl

private theorem traits_place (firm : f.Firm) (known : f.block b = .ok (f.blockAt b))
    (split : (f.blockAt b).code = before ++ after) :
    (f.place b before after y).traits b = f.traitsOf before ++ y.trait :: f.traitsOf after := by
  have ableBefore : f.AbleCode before := (firm.able b).of_sub (by simp +contextual [split])
  have ableAfter : f.AbleCode after := (firm.able b).of_sub (by simp +contextual [split])
  rw [traits, code_place known, if_pos rfl, traitsOf_append, traitsOf_cons inst_place_new,
    kin_place.traitsOf ableBefore, kin_place.traitsOf ableAfter]

theorem append_eq (known : f.block b = .ok (f.blockAt b)) (y : Inst) :
    f.append b y = .ok (f.place b (f.blockAt b).code [] y, (f.insts.size : InstId)) := by
  have known' : (f.addInst y).1.block b = .ok (f.blockAt b) := known
  have placed : (f.addInst y).1.placeLast b f.insts.size =
      .ok (f.place b (f.blockAt b).code [] y) := by
    unfold placeLast place Procedure.setCode
    rw [updateBlock_eq known']
    exact congrArg Except.ok (mapBlock_congr known' rfl)
  change ((f.addInst y).1.placeLast b f.insts.size >>= _) = _
  rw [placed]
  rfl

theorem insert_eq (known : f.block b = .ok (f.blockAt b)) {n : Nat}
    (inside : n ≤ (f.blockAt b).code.length) (y : Inst) :
    f.insert b n y = .ok (f.place b ((f.blockAt b).code.take n) ((f.blockAt b).code.drop n) y,
      (f.insts.size : InstId)) := by
  have known' : (f.addInst y).1.block b = .ok (f.blockAt b) := known
  have placed := placeAt_eq known' (List.take_append_drop n (f.blockAt b).code).symm f.insts.size
  rw [List.length_take, Nat.min_eq_left inside] at placed
  change ((f.addInst y).1.placeAt b n f.insts.size >>= _) = _
  rw [placed]
  rfl

/-- Phis of a block are replaced by their values. -/
structure Resolves (b : BlockId) (f g : Procedure) : Prop where
  firm : g.Firm
  kin : Kin f g
  links : SameLinks f g
  code : ∀ c, c ≠ b → (g.blockAt c).code = (f.blockAt c).code
  exits : (g.traits b).filter Trait.isExit = (f.traits b).filter Trait.isExit
  length : (g.blockAt b).code.length ≤ (f.blockAt b).code.length

theorem Resolves.refl (firm : f.Firm) : Resolves b f f :=
  ⟨firm, .refl f, .refl f, fun _ _ => rfl, rfl, Nat.le_refl _⟩

theorem Resolves.trans (h : Resolves b f g) (h' : Resolves b g k) : Resolves b f k where
  firm := h'.firm
  kin := h.kin.trans h'.kin
  links := h.links.trans h'.links
  code c hc := (h'.code c hc).trans (h.code c hc)
  exits := h'.exits.trans h.exits
  length := Nat.le_trans h'.length h.length

private theorem filter_traitsOf_erase (inner : ∀ y, f.inst i = .ok y → y.trait.isExit = false) :
    (f.traitsOf (code.erase i)).filter Trait.isExit = (f.traitsOf code).filter Trait.isExit := by
  induction code with
  | nil => rfl
  | cons j code ih =>
    have cons : ∀ l, f.traitsOf (j :: l) = f.traitsOf [j] ++ f.traitsOf l := by
      intro l
      rw [← traitsOf_append]
      rfl
    by_cases same : j = i
    · subst same
      rw [List.erase_cons_head, cons, List.filter_append]
      have none : (f.traitsOf [j]).filter Trait.isExit = [] := by
        rw [List.filter_eq_nil_iff]
        intro τ mem
        obtain ⟨k, hk, y, found, rfl⟩ := mem_traitsOf.mp mem
        rw [List.mem_singleton.mp hk] at found
        simp [inner y found]
      rw [none, List.nil_append]
    · rw [List.erase_cons_tail (by simpa using same), cons (code.erase i), cons code,
        List.filter_append, List.filter_append, ih]

private theorem Firm.replaceReg (firm : f.Firm) (d r : Reg) : Resolves b f (f.replaceReg d r) := by
  have view := blockAt_replaceReg f d r
  have kin : Kin f (f.replaceReg d r) := by
    refine .of_inst (fun i y found => ⟨y.renameReads d r, ?_, .renameReads y d r⟩) rfl
    rw [inst_replaceReg, found]
    rfl
  have links : SameLinks f (f.replaceReg d r) := by
    refine ⟨rfl, fun c => ?_, fun c => ?_, fun c => ?_, fun c => ?_⟩
    all_goals rw [view]
  have code : ∀ c, ((f.replaceReg d r).blockAt c).code = (f.blockAt c).code := fun c => by rw [view]
  have firm' : (f.replaceReg d r).Firm := by
    refine firm.of_sub kin (firm.recode links fun c dead => ?_) fun c i mem => by rwa [code] at mem
    rw [code]
    exact (firm.removed c dead).2
  exact ⟨firm', kin, links, fun c _ => code c, by rw [kin.traits firm (code b)],
    Nat.le_of_eq (by rw [code])⟩

private theorem shareOperands_revises {z : Inst} (hi : f.inst i = .ok y) (hy : y.op ≠ .br)
    (hj : f.inst j = .ok z) (hz : z.op ≠ .br) : Revises f (f.shareOperands i j) := by
  refine ⟨⟨fun k u found => ⟨u, found, .refl u⟩, fun shared e mem => ?_⟩, rfl, rfl⟩
  rcases List.mem_cons.mp mem with rfl | mem
  · exact ⟨z, hj, hz⟩
  · rcases List.mem_cons.mp mem with rfl | mem
    · exact ⟨y, hi, hy⟩
    · exact shared e mem

private theorem placeResolved_gives {z : Inst} (firm : f.Firm) (live : (f.blockAt b).dead = false)
    (found : f.inst i = .ok y) (like : y.Like z) (selects : z.Selects) (able : z.Able) :
    Gives (placeResolved f b i z) fun g => g.Firm ∧ Kin f g ∧ SameLinks f g ∧
      (∀ c, c ≠ b → (g.blockAt c).code = (f.blockAt c).code) ∧
      (g.traits b).filter Trait.isExit = (f.traits b).filter Trait.isExit ∧
      (g.blockAt b).code.length = (f.blockAt b).code.length + 1 ∧
      (f.blockAt b).code.Sublist (g.blockAt b).code := by
  unfold placeResolved
  refine (updateInst_revises (u := fun _ => z) found like).bind fun m revises => ?_
  have firmM := revises.firm firm
  have liveM : (m.blockAt b).dead = false := by rw [revises.blockAt]; exact live
  have knownM := block_of_live liveM
  refine (phis_gives liveM (firmM.able b)).bind fun ids ⟨front, _⟩ => ?_
  rw [insert_eq knownM front.length_le]
  have split := (List.take_append_drop ids.length (m.blockAt b).code).symm
  generalize (m.blockAt b).code.take ids.length = before at split ⊢
  generalize (m.blockAt b).code.drop ids.length = after at split ⊢
  have placed : (m.place b before after z).Firm := firmM.place liveM able split
  have links : SameLinks f (m.place b before after z) :=
    revises.sameLinks.trans (sameLinks_place knownM)
  have kin : Kin f (m.place b before after z) := revises.toKin.trans kin_place
  have code := code_place knownM before after z
  have shared : Revises (m.place b before after z)
      ((m.place b before after z).shareOperands i m.insts.size) := by
    obtain ⟨u, there, alike⟩ := kin.inst i y found
    refine shareOperands_revises there (fun br => ?_) inst_place_new selects.br
    exact selects.br (like.br.mpr (alike.br.mp br))
  refine .of_ok ⟨shared.firm placed, kin.trans shared.toKin, links.trans shared.sameLinks,
    fun c other => ?_, ?_, ?_, ?_⟩
  · rw [shared.blockAt, code, if_neg other, revises.blockAt]
  · rw [shared.traits placed, traits_place firmM knownM split, List.filter_append,
      List.filter_cons_of_neg (by simp [selects.trait, Trait.isExit]), ← List.filter_append,
      ← traitsOf_append, ← split, ← revises.traits firm]
    rfl
  · rw [shared.blockAt, code, if_pos rfl, ← revises.blockAt, split]
    simp only [List.length_append, List.length_cons]
    omega
  · rw [shared.blockAt, code, if_pos rfl, ← revises.blockAt, split]
    exact (List.Sublist.refl before).append (List.sublist_cons_self _ after)

theorem resolvePhi_gives (firm : f.Firm) (live : (f.blockAt b).dead = false)
    (mem : i ∈ (f.blockAt b).code) (found : f.inst i = .ok y) (selects : y.Selects)
    (defs : y.defs ≠ []) : Gives (resolvePhi f b i) fun g =>
      Resolves b f g ∧ ((f.blockAt b).code.erase i).Sublist (g.blockAt b).code := by
  have known := block_of_live live
  have erased : f.updateBlock b (fun x => { x with code := x.code.erase i }) =
      .ok (f.setCode b ((f.blockAt b).code.erase i)) :=
    (updateBlock_eq known _).trans (congrArg Except.ok (mapBlock_congr known rfl))
  have inner : ∀ z, f.inst i = .ok z → z.trait.isExit = false := by
    intro z there
    cases found.symm.trans there
    rw [selects.trait]
    rfl
  have firm' : (f.setCode b ((f.blockAt b).code.erase i)).Firm :=
    firm.setCode known fun j hj => List.mem_of_mem_erase hj
  have links := sameLinks_setCode known ((f.blockAt b).code.erase i)
  have kin := kin_setCode f b ((f.blockAt b).code.erase i)
  have code := code_setCode known ((f.blockAt b).code.erase i)
  have exits : ((f.setCode b ((f.blockAt b).code.erase i)).traits b).filter Trait.isExit =
      (f.traits b).filter Trait.isExit := by
    rw [traits, code, if_pos rfl, kin.traitsOf ((firm.able b).of_sub fun j hj =>
      List.mem_of_mem_erase hj), filter_traitsOf_erase inner]
    rfl
  have length : ((f.setCode b ((f.blockAt b).code.erase i)).blockAt b).code.length + 1 =
      (f.blockAt b).code.length := by
    rw [code, if_pos rfl, List.length_erase_of_mem mem]
    have := List.length_pos_of_mem mem
    omega
  have there : (f.setCode b ((f.blockAt b).code.erase i)).inst i = .ok y := by
    rw [inst_setCode]
    exact found
  have live' : ((f.setCode b ((f.blockAt b).code.erase i)).blockAt b).dead = false := by
    rw [links.dead]
    exact live
  unfold resolvePhi
  rw [found]
  change Gives (f.updateBlock b _ >>= _) _
  rw [erased]
  have rest : ((f.setCode b ((f.blockAt b).code.erase i)).blockAt b).code =
      (f.blockAt b).code.erase i := by rw [code, if_pos rfl]
  generalize f.setCode b ((f.blockAt b).code.erase i) = m at *
  have step : Resolves b f m :=
    ⟨firm', kin, links, fun c other => by rw [code, if_neg other], exits, by omega⟩
  have placed : ∀ z, y.Like z → z.Selects → z.Able → Gives (placeResolved m b i z) fun g =>
      Resolves b f g ∧ ((f.blockAt b).code.erase i).Sublist (g.blockAt b).code := by
    intro z like selects able
    refine (placeResolved_gives firm' live' there like selects able).imp fun g h => ?_
    obtain ⟨firm'', kin', links', code', exits', length', sub⟩ := h
    rw [rest] at sub
    exact ⟨⟨firm'', kin.trans kin', links.trans links', fun c other =>
      (code' c other).trans (by rw [code, if_neg other]), exits'.trans exits, by omega⟩, sub⟩
  have able : ∀ {op : Op} {uses : List Operand}, op = .copy ∨ op = .undef →
      Inst.Able { y with op := op, uses := uses } := by
    rintro op uses resolved
    refine ⟨fun phi => ?_, fun br => ?_⟩
    · rcases resolved with same | same <;> cases same.symm.trans phi
    · rcases resolved with same | same <;> cases same.symm.trans br
  refine (Gives.of_ok (P := fun g => g = m) rfl).bind ?_
  rintro _ rfl
  split
  · exact placed _ (.resolve selects (.inr rfl) _) (.inr (.inr rfl)) (able (.inr rfl))
  · split
    · rename_i d _ _
      refine .of_ok ⟨step.trans (firm'.replaceReg _ _), ?_⟩
      rw [blockAt_replaceReg]
      exact rest ▸ List.Sublist.refl _
    · rename_i none
      exact absurd none defs
  · exact placed _ (.resolve selects (.inl rfl) _) (.inr (.inl rfl)) (able (.inl rfl))

/-- Phis are replaced one by one. Those that are left still stand in the code, as often as they are
still to be replaced. -/
private theorem resolveAll_gives {ids : List InstId} (firm : f.Firm) (live : (f.blockAt b).dead = false)
    (defined : ∀ i ∈ ids, ∃ y, f.inst i = .ok y ∧ y.Selects ∧ y.defs ≠ [])
    (left : ids.Subperm (f.blockAt b).code) :
    Gives (ids.foldlM (fun g i => resolvePhi g b i) f) (Resolves b f) := by
  induction ids generalizing f with
  | nil => exact .of_ok (.refl firm)
  | cons i ids ih =>
    obtain ⟨y, found, selects, defs⟩ := defined i List.mem_cons_self
    rw [List.foldlM_cons]
    refine (resolvePhi_gives firm live (left.subset List.mem_cons_self) found selects defs).bind ?_
    rintro g ⟨step, sub⟩
    have rest : ids.Subperm (g.blockAt b).code := by
      have := left.erase i
      rw [List.erase_cons_head] at this
      exact this.trans sub.subperm
    refine (ih step.firm (by rw [step.links.dead]; exact live) (fun j mem => ?_) rest).imp fun k h =>
      step.trans h
    obtain ⟨z, found, selects, defs⟩ := defined j (List.mem_cons_of_mem i mem)
    obtain ⟨u, found, like⟩ := step.kin.inst j z found
    exact ⟨u, found, like.selects selects, by rw [like.defs]; exact defs⟩

theorem resolvePhis_gives (firm : f.Firm) (live : (f.blockAt b).dead = false) :
    Gives (f.phis b) fun ids => Gives (ids.foldlM (fun g i => resolvePhi g b i) f) (Resolves b f) := by
  refine (phis_gives live (firm.able b)).imp fun ids ⟨front, phis⟩ => ?_
  refine resolveAll_gives firm live (fun i mem => ?_) front.sublist.subperm
  obtain ⟨y, found, phi, able⟩ := phis i mem
  exact ⟨y, found, .inl phi, able.defs phi⟩

theorem eraseCode_eq (known : f.block b = .ok (f.blockAt b))
    (split : (f.blockAt b).code = before ++ i :: after) :
    f.eraseCode b before.length (before.length + 1) = .ok (f.setCode b (before ++ after)) := by
  have lower : (0 : Int) ≤ before.length ∧ (before.length : Int) ≤ (f.blockAt b).code.length := by
    rw [split]
    simp only [List.length_append, List.length_cons]
    omega
  have upper : (0 : Int) ≤ before.length + 1 ∧
      (before.length + 1 : Int) ≤ (f.blockAt b).code.length := by
    rw [split]
    simp only [List.length_append, List.length_cons]
    omega
  have first : (f.blockAt b).code.take (before.length : Int).toNat = before := by
    rw [split]
    simp
  have last : (f.blockAt b).code.drop (before.length + 1 : Int).toNat = after := by
    rw [split, show (before.length + 1 : Int).toNat = before.length + 1 by omega]
    simp
  refine bind_ok_iff.mpr ⟨_, code_ok.mpr ⟨known, rfl⟩, ?_⟩
  refine bind_ok_iff.mpr ⟨before, upTo_ok.mpr ⟨lower, first.symm⟩, ?_⟩
  refine bind_ok_iff.mpr ⟨after, since_ok.mpr ⟨upper, last.symm⟩, ?_⟩
  exact updateBlock_eq known _

private theorem moveCode_eq (hb : f.block b = .ok (f.blockAt b)) (hs : f.block s = .ok (f.blockAt s))
    (other : s ≠ b) : f.moveCode b s 0 (f.blockAt s).code.length =
      .ok ((f.setCode b ((f.blockAt b).code ++ (f.blockAt s).code)).setCode s []) := by
  have whole : (0 : Int) ≤ (f.blockAt s).code.length ∧
      ((f.blockAt s).code.length : Int) ≤ (f.blockAt s).code.length := by omega
  have none : (0 : Int) ≤ 0 ∧ (0 : Int) ≤ (f.blockAt s).code.length := by omega
  have all : (f.blockAt s).code.take ((f.blockAt s).code.length : Int).toNat = (f.blockAt s).code := by
    simp
  have moved : f.updateBlock b (fun x => { x with code := x.code ++ (f.blockAt s).code }) =
      .ok (f.setCode b ((f.blockAt b).code ++ (f.blockAt s).code)) :=
    (updateBlock_eq hb _).trans (congrArg Except.ok (mapBlock_congr hb rfl))
  have here : (f.setCode b ((f.blockAt b).code ++ (f.blockAt s).code)).blockAt s = f.blockAt s := by
    rw [blockAt_setCode hb, if_neg other]
  have known : (f.setCode b ((f.blockAt b).code ++ (f.blockAt s).code)).block s =
      .ok (f.blockAt s) := by
    rw [Procedure.setCode, block_mapBlock, if_neg other]
    exact hs
  have code : (f.setCode b ((f.blockAt b).code ++ (f.blockAt s).code)).code s =
      .ok (f.blockAt s).code := code_ok.mpr ⟨by rw [here]; exact known, by rw [here]⟩
  refine bind_ok_iff.mpr ⟨_, code_ok.mpr ⟨hs, rfl⟩, ?_⟩
  refine bind_ok_iff.mpr ⟨_, upTo_ok.mpr ⟨whole, all.symm⟩, ?_⟩
  refine bind_ok_iff.mpr ⟨(f.blockAt s).code, since_ok.mpr ⟨none, rfl⟩, ?_⟩
  refine bind_ok_iff.mpr ⟨_, moved, ?_⟩
  refine bind_ok_iff.mpr ⟨_, code, ?_⟩
  refine bind_ok_iff.mpr ⟨[], upTo_ok.mpr ⟨none, rfl⟩, ?_⟩
  refine bind_ok_iff.mpr ⟨[], since_ok.mpr ⟨whole, by simp⟩, ?_⟩
  exact updateBlock_eq known _

theorem Firm.moveCode (firm : f.Firm) (hb : (f.blockAt b).dead = false)
    (hs : (f.blockAt s).dead = false) (other : s ≠ b) :
    Gives (f.moveCode b s 0 (f.blockAt s).code.length) fun g => g.Firm ∧ Moved b s f g := by
  have run := moveCode_eq (block_of_live hb) (block_of_live hs) other
  rw [run]
  have moved := moved_moveCode other run
  generalize (f.setCode b ((f.blockAt b).code ++ (f.blockAt s).code)).setCode s [] = g at *
  have kin : Kin f g := .of_same moved.inst moved.sharing
  refine .of_ok ⟨⟨firm.recode moved.links fun c dead => ?_, fun c i mem => ?_,
    fun i y c d found br hc hd => ?_, kin.shared firm.shared⟩, moved⟩
  · rw [moved.code]
    have away : c ≠ b := by
      rintro rfl
      rw [hb] at dead
      cases dead
    rw [if_neg away, (firm.removed c dead).2, ite_self]
  · obtain ⟨a, old, -⟩ := moved.origin other mem
    exact kin.ableCode (firm.able a) i old
  · obtain ⟨a, oldC, rfl⟩ := moved.origin other hc
    obtain ⟨a', oldD, rfl⟩ := moved.origin other hd
    obtain ⟨z, there, br⟩ := kin.br (firm.able a) oldC found br
    rw [firm.apart i z a a' there br oldC oldD]

structure Relinks (f g : Procedure) : Prop where
  firm : g.Firm
  kin : Kin f g
  layout : g.layout = f.layout
  code : ∀ c, (g.blockAt c).code = (f.blockAt c).code
  dead : ∀ c, (g.blockAt c).dead = (f.blockAt c).dead

theorem Relinks.refl (firm : f.Firm) : Relinks f f :=
  ⟨firm, .refl f, rfl, fun _ => rfl, fun _ => rfl⟩

theorem Relinks.trans (h : Relinks f g) (h' : Relinks g k) : Relinks f k where
  firm := h'.firm
  kin := h.kin.trans h'.kin
  layout := h'.layout.trans h.layout
  code c := (h'.code c).trans (h.code c)
  dead c := (h'.dead c).trans (h.dead c)

theorem Revises.relinks (h : Revises f g) (firm : f.Firm) : Relinks f g :=
  ⟨h.firm firm, h.toKin, h.layout, fun c => by rw [h.blockAt], fun c => by rw [h.blockAt]⟩

theorem SameCode.relinks (h : SameCode f g) (firm : g.Firm) (sharing : g.sharing = f.sharing) :
    Relinks f g :=
  ⟨firm, .of_same h.inst sharing, h.layout, h.code, h.dead⟩

theorem Firm.relinks_addSucc (firm : f.Firm) (h : f.addSucc b s = .ok g)
    (live : (f.blockAt b).dead = false) : Relinks f g :=
  (addSucc_view h).1.relinks (firm.addSucc h live) (sharing_addSucc h)

theorem Firm.relinks_removeSucc (firm : f.Firm) (h : f.removeSucc b s = .ok g) : Relinks f g :=
  (removeSucc_view h firm.toMeshed.paired).1.relinks (firm.removeSucc h) (sharing_removeSucc h)

theorem Relinks.live (h : Relinks f g) (live : (f.blockAt c).dead = false) :
    (g.blockAt c).dead = false := (h.dead c).trans live

theorem Relinks.traits (h : Relinks f g) (firm : f.Firm) (c : BlockId) : g.traits c = f.traits c :=
  h.kin.traits firm (h.code c)

theorem takeEdges_gives (firm : f.Firm) (hb : (f.blockAt b).dead = false)
    (hs : (f.blockAt s).dead = false) (live : ∀ t ∈ (f.blockAt s).succs, (f.blockAt t).dead = false) :
    Gives (takeEdges f b s) fun g => Relinks f g ∧ ∀ c t, t ∈ (g.blockAt c).succs ↔
      t ∈ (f.blockAt c).succs ∧ c ≠ s ∨ c = b ∧ t ∈ (f.blockAt s).succs := by
  unfold takeEdges Procedure.succs
  rw [block_of_live hs]
  change Gives ((f.blockAt s).succs.foldlM _ f) _
  have all := foldlM_ok (l := (f.blockAt s).succs) (x := f) (P := fun done g => Relinks f g ∧
      ∀ c t, t ∈ (g.blockAt c).succs ↔
        t ∈ (f.blockAt c).succs ∧ ¬ (c = s ∧ t ∈ done) ∨ c = b ∧ t ∈ done)
    (k := fun f x => do
      let f ← renamePhiInputs f x s b
      (← f.removeSucc s x).addSucc b x) ?_ ?_
  · obtain ⟨g, run, relinks, succs⟩ := all
    refine ⟨g, run, relinks, fun c t => (succs c t).trans (or_congr ?_ Iff.rfl)⟩
    constructor
    · rintro ⟨edge, out⟩
      exact ⟨edge, fun same => out ⟨same, same ▸ edge⟩⟩
    · rintro ⟨edge, away⟩
      exact ⟨edge, fun out => away out.1⟩
  · rintro done x rest g split ⟨relinks, succs⟩
    have edge : x ∈ (f.blockAt s).succs := by simp [split]
    have liveX := relinks.live (live x edge)
    obtain ⟨g₁, run₁, renamed⟩ := renamePhiInputs_gives (s := s) (b := b) relinks.firm liveX
    have step₁ := renamed.relinks relinks.firm
    obtain ⟨g₂, run₂⟩ := removeSucc_gives (block_of_live (step₁.live (relinks.live hs)))
      (block_of_live (step₁.live liveX))
    have step₂ := step₁.firm.relinks_removeSucc run₂
    have liveB := step₂.live (step₁.live (relinks.live hb))
    obtain ⟨g₃, run₃⟩ := addSucc_gives (block_of_live liveB)
      (block_of_live (step₂.live (step₁.live liveX)))
    have step₃ := step₂.firm.relinks_addSucc run₃ liveB
    refine ⟨g₃, ?_, relinks.trans (step₁.trans (step₂.trans step₃)), fun c t => ?_⟩
    · simp only [run₁, run₂, bind, Except.bind]
      exact run₃
    · rw [mem_succs_addSucc run₃, mem_succs_removeSucc run₂ step₁.firm.toMeshed.paired,
        renamed.blockAt, succs]
      simp only [List.mem_append, List.mem_singleton]
      tauto
  · exact ⟨.refl firm, fun c t => by simp⟩

def goal (f : Procedure) (b : BlockId) : Option BlockId :=
  (Trait.firstJump? (f.traits b)).or (f.next? b)

/-- A procedure that can be cleaned up: code whose only ways out are jumps leads along an edge. -/
structure Guided (f : Procedure) : Prop extends Firm f where
  live : ∀ b, ∀ s ∈ (f.blockAt b).succs, (f.blockAt s).dead = false
  goal : ∀ b ∈ f.layout, Trait.Plain (f.traits b) → ∃ t ∈ (f.blockAt b).succs, f.goal b = some t

/-- A block that runs straight on is left without a way out, to take in what it leads to. -/
structure Opens (b : BlockId) (f g : Procedure) : Prop where
  firm : g.Firm
  kin : Kin f g
  links : SameLinks f g
  code : ∀ c, c ≠ b → (g.blockAt c).code = (f.blockAt c).code
  none : ∀ τ ∈ g.traits b, τ.isExit = false
  length : (g.blockAt b).code.length ≤ (f.blockAt b).code.length

private theorem openEnd_gives {how : Straight} (firm : f.Firm) (live : (f.blockAt b).dead = false)
    (leads : how.Leads f b s) : Gives (openEnd f b how) (Opens b f) := by
  have known := block_of_live live
  cases how with
  | falls => exact .of_ok ⟨firm, .refl f, .refl f, fun _ _ => rfl, leads.1, Nat.le_refl _⟩
  | jumps position =>
    obtain ⟨before, i, y, after, split, rfl, found, trait, -, none⟩ := leads
    rw [openEnd, eraseCode_eq known split]
    have kin := kin_setCode f b (before ++ after)
    have code := code_setCode known (before ++ after)
    have sub : ∀ i ∈ before ++ after, i ∈ (f.blockAt b).code := by
      intro j mem
      rw [split]
      simp only [List.mem_append, List.mem_cons] at mem ⊢
      tauto
    refine .of_ok ⟨firm.setCode known sub, kin, sameLinks_setCode known _,
      fun c other => by rw [code, if_neg other], fun τ mem => ?_, ?_⟩
    · rw [Procedure.traits, code, if_pos rfl, kin.traitsOf ((firm.able b).of_sub sub)] at mem
      exact none τ mem
    · rw [code, if_pos rfl, split]
      simp only [List.length_append, List.length_cons]
      omega

/-- The code of `s` moves to the end of `b`, and `s` goes. -/
structure Fuses (b s : BlockId) (f g : Procedure) : Prop where
  firm : g.Firm
  kin : Kin f g
  layout : g.layout = f.layout.erase s
  code : ∀ c, c ≠ s → (g.blockAt c).code =
    if c = b then (f.blockAt b).code ++ (f.blockAt s).code else (f.blockAt c).code
  succs : ∀ c t, t ∈ (g.blockAt c).succs ↔
    if c = b then t ∈ (f.blockAt s).succs else c ≠ s ∧ t ∈ (f.blockAt c).succs

theorem fuses_gives (firm : f.Firm) (live : ∀ b, ∀ s ∈ (f.blockAt b).succs, (f.blockAt s).dead = false)
    (succs : (f.blockAt b).succs = [s]) (preds : (f.blockAt s).preds = [b]) (other : s ≠ b) :
    Gives (do
      let f ← f.moveCode b s 0 (f.blockAt s).code.length
      let f ← takeEdges f b s
      (← f.removeSucc b s).removeBlock s) (Fuses b s f) := by
  have edge : s ∈ (f.blockAt b).succs := by simp [succs]
  have hb := firm.toMeshed.live edge
  have hs := live b s edge
  have into : ∀ c, s ∈ (f.blockAt c).succs → c = b := by
    intro c edge
    rw [firm.mutual_ends, preds] at edge
    simpa using edge
  refine (firm.moveCode hb hs other).bind fun f₁ ⟨firm₁, moved⟩ => ?_
  have links := moved.links
  have hb₁ : (f₁.blockAt b).dead = false := by rw [links.dead]; exact hb
  have hs₁ : (f₁.blockAt s).dead = false := by rw [links.dead]; exact hs
  have live₁ : ∀ t ∈ (f₁.blockAt s).succs, (f₁.blockAt t).dead = false := by
    intro t edge
    rw [links.succs] at edge
    rw [links.dead]
    exact live s t edge
  refine (takeEdges_gives firm₁ hb₁ hs₁ live₁).bind fun f₂ ⟨relinks, succs₂⟩ => ?_
  obtain ⟨f₃, run⟩ := removeSucc_gives (block_of_live (relinks.live hb₁))
    (block_of_live (relinks.live hs₁))
  have relinks₃ := relinks.trans (relinks.firm.relinks_removeSucc run)
  have succs₃ : ∀ c t, t ∈ (f₃.blockAt c).succs ↔
      if c = b then t ∈ (f.blockAt s).succs else c ≠ s ∧ t ∈ (f.blockAt c).succs := by
    intro c t
    rw [mem_succs_removeSucc run relinks.firm.toMeshed.paired, succs₂, links.succs, links.succs]
    split
    · rename_i here
      subst here
      rw [succs]
      have loop : s ∉ (f.blockAt s).succs := fun edge => other (into s edge)
      constructor
      · rintro ⟨(⟨old, -⟩ | ⟨-, new⟩), away⟩
        · exact absurd ⟨rfl, List.mem_singleton.mp old⟩ away
        · exact new
      · intro new
        refine ⟨.inr ⟨rfl, new⟩, ?_⟩
        rintro ⟨-, rfl⟩
        exact loop new
    · rename_i away
      simp [away, and_comm]
  have alone : (f₃.blockAt s).preds = [] := by
    rw [List.eq_nil_iff_forall_not_mem]
    intro c entered
    rw [← relinks₃.firm.mutual_ends, succs₃] at entered
    split at entered
    · exact other (into s entered)
    · rename_i away
      exact away (into c entered.2)
  rw [run]
  change Gives (f₃.removeBlock s) _
  refine (removeBlock_gives relinks₃.firm (relinks₃.live hs₁) alone).imp ?_
  rintro g ⟨firm', kin', without⟩
  have kin : Kin f f₁ := .of_same moved.inst moved.sharing
  refine ⟨firm', (kin.trans relinks₃.kin).trans kin', ?_, fun c away => ?_, fun c t => ?_⟩
  · rw [without.layout, relinks₃.layout, links.layout]
  · rw [without.code c away, relinks₃.code, moved.code, if_neg away]
  · by_cases here : c = s
    · subst here
      rw [(firm'.removed c without.gone).1, if_neg other]
      simp
    · rw [without.succs c here, succs₃]

/-- A block has taken in the only block that it led to. -/
structure Absorbs (b s : BlockId) (f g : Procedure) : Prop where
  firm : g.Firm
  layout : g.layout = f.layout.erase s
  code : ∀ c, c ≠ b → c ≠ s → (g.blockAt c).code = (f.blockAt c).code
  traits : ∀ c, c ≠ b → c ≠ s → g.traits c = f.traits c
  length : (g.blockAt b).code.length ≤ (f.blockAt b).code.length + (f.blockAt s).code.length + 1
  succs : ∀ c t, t ∈ (g.blockAt c).succs ↔
    if c = b then t ∈ (f.blockAt s).succs else c ≠ s ∧ t ∈ (f.blockAt c).succs
  goal : Trait.Plain (g.traits b) → Trait.Plain (f.traits s) ∧
    ∀ t, f.goal s = some t → g.goal b = some t

/-- A block is made to go on to `after`: by a jump, unless it runs on to there. -/
structure Continues (b : BlockId) (after : Option BlockId) (f g : Procedure) : Prop where
  firm : g.Firm
  links : SameLinks f g
  code : ∀ c, c ≠ b → (g.blockAt c).code = (f.blockAt c).code
  traits : ∀ c, c ≠ b → g.traits c = f.traits c
  length : (g.blockAt b).code.length ≤ (f.blockAt b).code.length + 1
  ending : (g.traits b = f.traits b ∧ ∀ n, after = some n → g.next? b = some n) ∨
    ∃ n, after = some n ∧ g.traits b = f.traits b ++ [.jump n]

private theorem continues_gives {after : Option BlockId} (firm : f.Firm) (live : (f.blockAt b).dead = false)
    (named : ∀ n, after = some n → n ≠ -1) : Gives (match after with
      | some n => if f.next? b = some n then return f else return (← f.append b (.jump n)).1
      | none => return f) (Continues b after f) := by
  have stays : (∀ n, after = some n → f.next? b = some n) → Continues b after f f := fun next =>
    ⟨firm, .refl f, fun _ _ => rfl, fun _ _ => rfl, Nat.le_succ _, .inl ⟨rfl, next⟩⟩
  split
  · rename_i n
    split
    · rename_i next
      refine .of_ok (stays fun m same => ?_)
      cases same
      exact next
    · have known := block_of_live live
      have split : (f.blockAt b).code = (f.blockAt b).code ++ [] := (List.append_nil _).symm
      have code := code_place known (f.blockAt b).code [] (.jump n)
      refine .of_run (append_eq known (.jump n)) (.of_ok ⟨firm.place live
        (Inst.able_jump (named n rfl)) split, sameLinks_place known, fun c other => ?_,
        fun c other => ?_, ?_, .inr ⟨n, rfl, traits_place firm known split⟩⟩)
      · rw [code, if_neg other]
      · exact kin_place.traits firm (by rw [code, if_neg other])
      · rw [code, if_pos rfl, List.length_append]
        exact Nat.le_refl _
  · exact .of_ok (stays fun n same => nomatch same)

theorem absorb_gives {how : Straight} {isEntry : BlockId → Bool} (guided : f.Guided)
    (absorbable : Absorbable isEntry f b s how) : Gives (absorb f b s how) (Absorbs b s f) := by
  have edge : s ∈ (f.blockAt b).succs := by simp [absorbable.succs]
  have hb := guided.toMeshed.live edge
  have hs := guided.live b s edge
  have other := absorbable.other
  unfold absorb
  refine (openEnd_gives guided.toFirm hb absorbable.leads).bind fun f₁ opens => ?_
  have hs₁ : (f₁.blockAt s).dead = false := by rw [opens.links.dead]; exact hs
  unfold fuse
  refine (resolvePhis_gives opens.firm hs₁).bind fun ids resolved => ?_
  refine resolved.bind fun f₂ resolves => ?_
  have links := opens.links.trans resolves.links
  have hs₂ : (f₂.blockAt s).dead = false := by rw [links.dead]; exact hs
  have codes : ∀ c, c ≠ b → c ≠ s → (f₂.blockAt c).code = (f.blockAt c).code := fun c hc hc' =>
    (resolves.code c hc').trans (opens.code c hc)
  have kin := opens.kin.trans resolves.kin
  have quiet : (f₂.traits b).filter Trait.isExit = [] := by
    rw [resolves.kin.traits opens.firm (resolves.code b other.symm), List.filter_eq_nil_iff]
    exact fun τ mem => by simp [opens.none τ mem]
  have exits : (f₂.traits s).filter Trait.isExit = (f.traits s).filter Trait.isExit := by
    rw [resolves.exits, opens.kin.traits guided.toFirm (opens.code s other)]
  obtain ⟨g, run, fuses⟩ := fuses_gives (b := b) (s := s) resolves.firm
    (fun c t edge => by
      rw [links.succs] at edge
      rw [links.dead]
      exact guided.live c t edge)
    (by rw [links.succs, absorbable.succs]) (by rw [links.preds, absorbable.preds]) other
  obtain ⟨m₁, moved, run⟩ := bind_ok_iff.mp run
  obtain ⟨m₂, taken, run⟩ := bind_ok_iff.mp run
  obtain ⟨m₃, unlinked, run⟩ := bind_ok_iff.mp run
  refine .of_run (mayFallThrough_eq hs₂ (resolves.firm.able s)) ?_
  refine .of_run (code_eq hs₂) <| .of_run moved <| .of_run taken <| .of_run unlinked <| .of_run run ?_
  have traitsB : g.traits b = f₂.traits b ++ f₂.traits s := by
    have able : f₂.AbleCode ((f₂.blockAt b).code ++ (f₂.blockAt s).code) := fun i mem =>
      (List.mem_append.mp mem).elim (resolves.firm.able b i) (resolves.firm.able s i)
    rw [Procedure.traits, fuses.code b other.symm, if_pos rfl, fuses.kin.traitsOf able, traitsOf_append]
    rfl
  have exitsB : (g.traits b).filter Trait.isExit = (f.traits s).filter Trait.isExit := by
    rw [traitsB, List.filter_append, quiet, exits, List.nil_append]
  have hb' : (g.blockAt b).dead = false := by
    rw [← fuses.firm.laid, fuses.layout, links.layout, guided.nodup.mem_erase_iff]
    exact ⟨other.symm, (guided.laid b).mpr hb⟩
  have room : (g.blockAt b).code.length ≤ (f.blockAt b).code.length + (f.blockAt s).code.length := by
    rw [fuses.code b other.symm, if_pos rfl, List.length_append, resolves.code b other.symm,
      ← opens.code s other]
    exact Nat.add_le_add opens.length resolves.length
  have first : Trait.firstJump? (g.traits b) = Trait.firstJump? (f.traits s) := by
    rw [← Trait.firstJump?_filter, exitsB, Trait.firstJump?_filter]
  have plain : Trait.Plain (g.traits b) ↔ Trait.Plain (f.traits s) := by
    rw [← Trait.plain_filter, exitsB, Trait.plain_filter]
  have next : Trait.Plain (f.traits s) → Trait.firstJump? (f.traits s) = none →
      (if Trait.runsOn (f₂.traits s) = true then f₂.next? s else none) = f.goal s := by
    intro plain none
    have plain₂ : Trait.Plain (f₂.traits s) := by
      rwa [← Trait.plain_filter, exits, Trait.plain_filter]
    have none₂ : Trait.firstJump? (f₂.traits s) = Option.none := by
      rwa [← Trait.firstJump?_filter, exits, Trait.firstJump?_filter]
    rw [if_pos (Trait.runsOn_of_plain plain₂ none₂), links.next?, Procedure.goal, none]
    rfl
  have named : ∀ n, (if Trait.runsOn (f₂.traits s) = true then f₂.next? s else none) = some n →
      n ≠ -1 := by
    intro n same
    split at same
    · exact (next?_eq_some.mp same).2
    · cases same
  refine (continues_gives fuses.firm hb' named).imp fun h continues => ?_
  generalize (if Trait.runsOn (f₂.traits s) = true then f₂.next? s else none) = after at *
  refine ⟨continues.firm, ?_, fun c hc hc' => ?_, fun c hc hc' => ?_, ?_, fun c t => ?_,
    fun plainH => ?_⟩
  · rw [continues.links.layout, fuses.layout, links.layout]
  · rw [continues.code c hc, fuses.code c hc', if_neg hc, codes c hc hc']
  · have code : (g.blockAt c).code = (f₂.blockAt c).code := by rw [fuses.code c hc', if_neg hc]
    rw [continues.traits c hc, fuses.kin.traits resolves.firm code,
      kin.traits guided.toFirm (codes c hc hc')]
  · exact Nat.le_trans continues.length (Nat.succ_le_succ room)
  · rw [continues.links.succs, fuses.succs, links.succs, links.succs]
  · rcases continues.ending with ⟨same, runs⟩ | ⟨n, rfl, same⟩
    · rw [same, plain] at plainH
      refine ⟨plainH, fun t goal => ?_⟩
      rw [Procedure.goal, same, first]
      cases jump : Trait.firstJump? (f.traits s) with
      | none =>
        rw [← next plainH jump] at goal
        exact runs t goal
      | some u =>
        rw [Procedure.goal, jump] at goal
        exact goal
    · have plainS : Trait.Plain (f.traits s) :=
        plain.mp fun e mem => plainH e (same ▸ List.mem_append_left _ mem)
      refine ⟨plainS, fun t goal => ?_⟩
      rw [Procedure.goal, same, Trait.firstJump?_append, first]
      cases jump : Trait.firstJump? (f.traits s) with
      | none =>
        rw [← next plainS jump] at goal
        cases goal
        rfl
      | some u =>
        rw [Procedure.goal, jump] at goal
        exact goal

theorem Meshed.next?_of_sub (h : f.Meshed) (h' : g.Meshed) (sub : g.layout.Sublist f.layout)
    (hc : c ∈ g.layout) (ht : t ∈ g.layout) (next : f.next? c = some t) : g.next? c = some t := by
  rw [h.next?_eq] at next
  rw [h'.next?_eq]
  exact following_sublist sub h.nodup hc ht next

theorem goal_of_sub (h : f.Meshed) (h' : g.Meshed) (sub : g.layout.Sublist f.layout)
    (hc : c ∈ g.layout) (ht : t ∈ g.layout) (traits : g.traits c = f.traits c)
    (goal : f.goal c = some t) : g.goal c = some t := by
  unfold Procedure.goal at goal ⊢
  rw [traits]
  cases jump : Trait.firstJump? (f.traits c) with
  | none =>
    rw [jump] at goal
    exact h.next?_of_sub h' sub hc ht goal
  | some u =>
    rw [jump] at goal
    exact goal

theorem Absorbs.guided {how : Straight} {isEntry : BlockId → Bool} (h : Absorbs b s f g)
    (guided : f.Guided) (absorbable : Absorbable isEntry f b s how) : g.Guided := by
  have into : ∀ c, s ∈ (f.blockAt c).succs → c = b := by
    intro c edge
    rw [guided.mutual_ends, absorbable.preds] at edge
    simpa using edge
  have laid : ∀ c, c ∈ g.layout ↔ c ≠ s ∧ c ∈ f.layout := fun c => by
    rw [h.layout, guided.nodup.mem_erase_iff]
  -- edges lead to blocks that stay
  have stays : ∀ c, ∀ t ∈ (g.blockAt c).succs, t ∈ g.layout := by
    intro c t edge
    rw [h.succs] at edge
    rw [laid]
    split at edge
    · refine ⟨?_, (guided.laid t).mpr (guided.live s t edge)⟩
      rintro rfl
      exact absorbable.other (into t edge)
    · rename_i away
      refine ⟨?_, (guided.laid t).mpr (guided.live c t edge.2)⟩
      rintro rfl
      exact away (into c edge.2)
  refine ⟨h.firm, fun c t edge => (h.firm.laid t).mp (stays c t edge), fun c hc plain => ?_⟩
  obtain ⟨away, old⟩ := (laid c).mp hc
  by_cases here : c = b
  · subst here
    obtain ⟨plainS, goals⟩ := h.goal plain
    have hs : s ∈ f.layout := by
      have edge : s ∈ (f.blockAt c).succs := by simp [absorbable.succs]
      exact (guided.laid s).mpr (guided.live c s edge)
    obtain ⟨t, edge, goal⟩ := guided.goal s hs plainS
    exact ⟨t, by rwa [h.succs, if_pos rfl], goals t goal⟩
  · rw [h.traits c here away] at plain
    obtain ⟨t, edge, goal⟩ := guided.goal c old plain
    have edge' : t ∈ (g.blockAt c).succs := by
      rw [h.succs, if_neg here]
      exact ⟨away, edge⟩
    refine ⟨t, edge', goal_of_sub guided.toMeshed h.firm.toMeshed ?_ hc (stays c t edge')
      (h.traits c here away) goal⟩
    rw [h.layout]
    exact List.erase_sublist

/-- A jump to the next block goes. -/
theorem dropJump_guided (guided : f.Guided) (hb : b ∈ f.layout)
    (split : (f.blockAt b).code = before ++ i :: after) (found : f.inst i = .ok y)
    (trait : y.trait = .jump n) (markers : ∀ τ ∈ f.traitsOf after, τ.isDebug = true)
    (next : f.next? b = some n) : (f.setCode b (before ++ after)).Guided := by
  have known := block_of_live ((guided.laid b).mp hb)
  have links := sameLinks_setCode known (before ++ after)
  have kin := kin_setCode f b (before ++ after)
  have code := code_setCode known (before ++ after)
  have sub : ∀ j ∈ before ++ after, j ∈ (f.blockAt b).code := by
    intro j mem
    rw [split]
    simp only [List.mem_append, List.mem_cons] at mem ⊢
    tauto
  have firm := guided.toFirm.setCode known sub
  have old : f.traits b = f.traitsOf before ++ .jump n :: f.traitsOf after := by
    rw [traits, split, traitsOf_append, traitsOf_cons found, trait]
  have new : (f.setCode b (before ++ after)).traits b = f.traitsOf before ++ f.traitsOf after := by
    rw [traits, code, if_pos rfl, kin.traitsOf ((guided.able b).of_sub sub), traitsOf_append]
  refine ⟨firm, fun c t edge => ?_, fun c hc plain => ?_⟩
  · rw [links.succs] at edge
    rw [links.dead]
    exact guided.live c t edge
  · rw [links.layout] at hc
    by_cases here : c = b
    · subst here
      have plainOld : Trait.Plain (f.traits c) := by
        intro e mem
        rw [old, List.mem_append, List.mem_cons] at mem
        rw [new] at plain
        refine plain e (List.mem_append.mpr ?_)
        rcases mem with mem | mem | mem
        · exact .inl mem
        · cases mem
        · exact .inr mem
      obtain ⟨t, edge, goal⟩ := guided.goal c hc plainOld
      refine ⟨t, by rwa [links.succs], ?_⟩
      unfold Procedure.goal at goal ⊢
      rw [old, Trait.firstJump?_append] at goal
      rw [new, Trait.firstJump?_append, links.next?]
      cases first : Trait.firstJump? (f.traitsOf before) with
      | some u =>
        rw [first] at goal
        exact goal
      | none =>
        -- the jump was the way out
        have none : Trait.firstJump? (f.traitsOf after) = none :=
          Trait.firstJump?_eq_none.mpr fun t mem => Bool.false_ne_true (markers _ mem)
        rw [first] at goal
        rw [none]
        exact next.trans goal
    · have same : (f.setCode b (before ++ after)).traits c = f.traits c :=
        kin.traits guided.toFirm (by rw [code, if_neg here])
      rw [same] at plain
      obtain ⟨t, edge, goal⟩ := guided.goal c hc plain
      refine ⟨t, by rwa [links.succs], ?_⟩
      unfold Procedure.goal at goal ⊢
      rw [same, links.next?]
      exact goal

end Procedure

end Predication
