import Predication.Proofs.PhiInputs
import Predication.Proofs.StrictForm
import Predication.Proofs.Tunnels

/-!
Changes of instructions where they stand. Each instruction stands at one place, so a change of some
instructions is a change of the code of each block, and changes one after the other are put together
block by block.
-/

set_option autoImplicit false
set_option relaxedAutoImplicit false

namespace Predication

namespace Procedure

variable {f g k : Procedure} {b c p s t : BlockId} {i j : InstId} {x y : Inst} {u : Inst → Inst}
  {T : InstId → Prop} {φ ψ : BlockId → Inst → Inst} {ids code : List InstId}

structure Retouches (φ : BlockId → Inst → Inst) (f g : Procedure) : Prop where
  code : ∀ c, (g.blockAt c).code = (f.blockAt c).code
  inst : ∀ c, ∀ i ∈ (f.blockAt c).code, g.inst i = (f.inst i).map (φ c)
  quiet : f.Quiet → g.Quiet

theorem Retouches.instsAt (h : Retouches φ f g) (c : BlockId) :
    g.instsAt c = (f.instsAt c).map (φ c) := by
  unfold Procedure.instsAt
  rw [h.code, List.map_filterMap]
  refine List.filterMap_congr fun i mem => ?_
  unfold inst?
  rw [h.inst c i mem]
  cases f.inst i <;> rfl

theorem Retouches.trans (h : Retouches φ f g) (h' : Retouches ψ g k) :
    Retouches (fun c x => ψ c (φ c x)) f k where
  code c := (h'.code c).trans (h.code c)
  inst c i mem := by
    rw [h'.inst c i (by rwa [h.code]), h.inst c i mem]
    cases f.inst i <;> rfl
  quiet := h'.quiet ∘ h.quiet

theorem Retouches.congr (h : Retouches φ f g) (same : ∀ c, ∀ x ∈ f.instsAt c, φ c x = ψ c x) :
    Retouches ψ f g where
  code := h.code
  inst c i mem := by
    rw [h.inst c i mem]
    cases found : f.inst i with
    | error => rfl
    | ok x => exact congrArg Except.ok (same c x (mem_instsAt.mpr ⟨i, mem, found⟩))
  quiet := h.quiet

theorem Retouches.sited (h : Retouches φ f g) (sited : f.Sited)
    (op : ∀ c, ∀ x ∈ f.instsAt c, (φ c x).op = x.op) : g.Sited where
  found c i mem := by
    rw [h.code] at mem
    obtain ⟨x, found⟩ := sited.found c i mem
    exact ⟨φ c x, by rw [h.inst c i mem, found]; rfl⟩
  single c := by
    rw [h.code]
    exact sited.single c
  alone c d i hc hd := by
    rw [h.code] at hc hd
    exact sited.alone c d i hc hd
  ordered c := by
    rw [h.instsAt, List.pairwise_map]
    refine (sited.ordered c).imp_of_mem fun {x y} hx hy order => ?_
    unfold Inst.PhiOrder
    rw [op c x hx, op c y hy]
    exact order
  quiet := h.quiet sited.quiet

theorem Quiet.congr (h : f.Quiet) (sharing : g.sharing = f.sharing)
    (inst : ∀ e ∈ f.sharing, g.inst e.1 = f.inst e.1) : g.Quiet := by
  intro e mem y found
  rw [sharing] at mem
  rw [inst e mem] at found
  exact h e mem y found

theorem Retouches.of_same (h : SameCode f g) (sharing : g.sharing = f.sharing) :
    Retouches (fun _ x => x) f g where
  code := h.code
  inst c i _ := by
    rw [h.inst]
    cases f.inst i <;> rfl
  quiet quiet := quiet.congr sharing fun e _ => h.inst e.1

private theorem sameCode_mapBlock (known : f.block b = .ok (f.blockAt b)) {u : Block → Block}
    (id : ∀ x, (u x).id = x.id) (dead : ∀ x, (u x).dead = x.dead) (code : ∀ x, (u x).code = x.code) :
    SameCode f (f.mapBlock b u) := by
  refine ⟨layout_mapBlock f b u, fun i => ?_, fun c => ?_, fun c => ?_, fun c => ?_⟩
  · unfold inst
    rw [insts_mapBlock]
  all_goals
    rw [blockAt_mapBlock known]
    split
    · simp only [id, dead, code]
    · rfl

theorem sameCode_ends {u v : Block → Block} (known : f.block b = .ok (f.blockAt b))
    (known' : f.block s = .ok (f.blockAt s)) (id : ∀ x, (u x).id = x.id ∧ (v x).id = x.id)
    (dead : ∀ x, (u x).dead = x.dead ∧ (v x).dead = x.dead)
    (code : ∀ x, (u x).code = x.code ∧ (v x).code = x.code) :
    SameCode f ((f.mapBlock b u).mapBlock s v) := by
  have there := block_mapBlock_ok (b := b) (u := u) known'
  rw [← blockAt_eq there] at there
  exact (sameCode_mapBlock known (fun x => (id x).1) (fun x => (dead x).1) fun x => (code x).1).trans
    (sameCode_mapBlock there (fun x => (id x).2) (fun x => (dead x).2) fun x => (code x).2)

theorem retouches_addSucc (h : f.addSucc b s = .ok g) : Retouches (fun _ x => x) f g :=
  .of_same (addSucc_view h).1 (sharing_addSucc h)

theorem retouches_removeSucc (h : f.removeSucc b s = .ok g) : Retouches (fun _ x => x) f g := by
  refine .of_same ?_ (sharing_removeSucc h)
  obtain ⟨known, ⟨-, rfl⟩ | ⟨-, known', rfl⟩⟩ := removeSucc_ok h
  · exact .refl _
  · exact sameCode_ends known known' (fun _ => ⟨rfl, rfl⟩) (fun _ => ⟨rfl, rfl⟩) fun _ => ⟨rfl, rfl⟩

structure Edits (T : InstId → Prop) (u : Inst → Inst) (f g : Procedure) : Prop where
  blocks : g.blocks = f.blocks
  sharing : g.sharing = f.sharing
  hit : ∀ j, T j → g.inst j = (f.inst j).map u
  missed : ∀ j, ¬ T j → g.inst j = f.inst j

theorem edits_updateInst (h : f.updateInst i u = .ok g) : Edits (· = i) u f g := by
  obtain ⟨-, inst, -, same⟩ := updateInst_ok h
  refine ⟨by rw [same], by rw [same], fun j hit => ?_, fun j missed => ?_⟩
  · rw [inst, if_pos hit]
  · rw [inst, if_neg missed]

private theorem edits_foldlM {I : Procedure → Prop} {step : Procedure → InstId → Except Fault Procedure}
    (one : ∀ g i k, I g → step g i = .ok k → Edits (· = i) u g k ∧ I k) (nodup : ids.Nodup)
    (start : I f) (h : ids.foldlM step f = .ok g) : Edits (· ∈ ids) u f g ∧ I g := by
  induction ids generalizing f with
  | nil =>
    cases h
    exact ⟨⟨rfl, rfl, fun j mem => absurd mem List.not_mem_nil, fun _ _ => rfl⟩, start⟩
  | cons i ids ih =>
    obtain ⟨new, nodup⟩ := List.nodup_cons.mp nodup
    obtain ⟨k, first, rest⟩ := bind_ok_iff.mp h
    obtain ⟨here, more⟩ := one f i k start first
    obtain ⟨later, done⟩ := ih nodup more rest
    refine ⟨⟨later.blocks.trans here.blocks, later.sharing.trans here.sharing, fun j mem => ?_,
      fun j out => ?_⟩, done⟩
    · rcases List.mem_cons.mp mem with rfl | mem
      · rw [later.missed j new, here.hit j rfl]
      · have other : j ≠ i := fun same => new (same ▸ mem)
        rw [later.hit j mem, here.missed j other]
    · rw [List.mem_cons, not_or] at out
      rw [later.missed j out.2, here.missed j out.1]

theorem Edits.blockAt (h : Edits T u f g) (c : BlockId) : g.blockAt c = f.blockAt c :=
  blockAt_congr h.blocks c

theorem Sited.phis (sited : f.Sited) (h : f.phis b = .ok ids) :
    ∃ rest, (f.blockAt b).code = ids ++ rest ∧ (∀ i ∈ ids, ∃ x, f.inst i = .ok x ∧ x.op = .phi) ∧
      ∀ i ∈ rest, ∃ x, f.inst i = .ok x ∧ x.op ≠ .phi := by
  obtain ⟨-, leading⟩ := phis_ok h
  obtain ⟨rest, split, phis, first⟩ := leadingPhis_ok leading
  refine ⟨rest, split, phis, fun i mem => ?_⟩
  cases rest with
  | nil => cases mem
  | cons j rest =>
    obtain ⟨y, foundY, other⟩ := first j rfl
    obtain ⟨x, found⟩ := sited.found b i (by rw [split]; exact List.mem_append_right _ mem)
    refine ⟨x, found, fun phi => ?_⟩
    rcases List.mem_cons.mp mem with rfl | mem
    · cases found.symm.trans foundY
      exact other phi
    · -- a phi stands behind phis only
      have order := sited.ordered b
      rw [Procedure.instsAt, split, List.filterMap_append,
        List.filterMap_cons_some (inst?_eq_some.mpr foundY)] at order
      have late := List.pairwise_cons.mp (List.pairwise_append.mp order).2.1
      exact other (late.1 x (List.mem_filterMap.mpr ⟨i, mem, inst?_eq_some.mpr found⟩) phi)

theorem Sited.mem_phis (sited : f.Sited) (h : f.phis b = .ok ids) (found : f.inst i = .ok x) :
    i ∈ ids ↔ i ∈ (f.blockAt b).code ∧ x.op = .phi := by
  obtain ⟨rest, split, phis, others⟩ := sited.phis h
  rw [split, List.mem_append]
  constructor
  · intro mem
    obtain ⟨y, there, phi⟩ := phis i mem
    cases found.symm.trans there
    exact ⟨.inl mem, phi⟩
  · rintro ⟨mem | mem, phi⟩
    · exact mem
    · obtain ⟨y, there, other⟩ := others i mem
      cases found.symm.trans there
      exact absurd phi other

private theorem Edits.retouches (sited : f.Sited) (asked : f.phis b = .ok ids) (h : Edits (· ∈ ids) u f g) :
    Retouches (fun c x => if c = b ∧ x.op = .phi then u x else x) f g := by
  refine ⟨fun c => by rw [h.blockAt], fun c i mem => ?_, fun quiet => ?_⟩
  · obtain ⟨x, found⟩ := sited.found c i mem
    by_cases hit : i ∈ ids
    · obtain ⟨there, phi⟩ := (sited.mem_phis asked found).mp hit
      rw [h.hit i hit, found]
      exact congrArg Except.ok (if_pos ⟨sited.alone c b i mem there, phi⟩).symm
    · rw [h.missed i hit, found]
      refine congrArg Except.ok (if_neg fun both => hit ?_).symm
      exact (sited.mem_phis asked found).mpr ⟨both.1 ▸ mem, both.2⟩
  · refine quiet.congr h.sharing fun e mem => h.missed e.1 fun hit => ?_
    obtain ⟨rest, -, phis, -⟩ := sited.phis asked
    obtain ⟨x, found, phi⟩ := phis e.1 hit
    exact (quiet e mem x found).1 phi

private theorem retouches_phis {step : Procedure → InstId → Except Fault Procedure} (sited : f.Sited)
    (one : ∀ g i k, step g i = .ok k → Edits (· = i) u g k)
    (h : (do (← f.phis b).foldlM step f) = .ok g) :
    Retouches (fun c x => if c = b ∧ x.op = .phi then u x else x) f g := by
  obtain ⟨ids, asked, rest⟩ := bind_ok_iff.mp h
  have nodup : ids.Nodup := by
    obtain ⟨rest, split, -⟩ := sited.phis asked
    have single := sited.single b
    rw [split] at single
    exact (List.nodup_append.mp single).1
  exact (edits_foldlM (I := fun _ => True) (fun g i k _ run => ⟨one g i k run, trivial⟩) nodup trivial
    rest).1.retouches sited asked

theorem retouches_blocks {step : Procedure → BlockId → Except Fault Procedure} {l : List BlockId}
    (op : ∀ x, (u x).op = x.op) (one : ∀ {g b k}, g.Sited → step g b = .ok k →
      Retouches (fun c x => if c = b ∧ x.op = .phi then u x else x) g k)
    (nodup : l.Nodup) (sited : f.Sited) (h : l.foldlM step f = .ok g) :
    Retouches (fun c x => if c ∈ l ∧ x.op = .phi then u x else x) f g := by
  induction l generalizing f with
  | nil =>
    cases h
    refine (Retouches.of_same (.refl g) rfl).congr fun c x _ => ?_
    rw [if_neg fun both => List.not_mem_nil both.1]
  | cons b l ih =>
    obtain ⟨new, nodup⟩ := List.nodup_cons.mp nodup
    obtain ⟨k, first, rest⟩ := bind_ok_iff.mp h
    have here := one sited first
    have sited' : k.Sited := here.sited sited fun c x _ => by
      split
      · exact op x
      · rfl
    refine (here.trans (ih nodup sited' rest)).congr fun c x _ => ?_
    by_cases phi : x.op = .phi
    · by_cases same : c = b
      · subst same
        simp [phi, new]
      · simp [phi, same]
    · simp [phi]

theorem retouches_removePhiInputs (sited : f.Sited) (h : f.removePhiInputs b p = .ok g) :
    Retouches (fun c x => if c = b ∧ x.op = .phi then x.dropPhiInputs p else x) f g :=
  retouches_phis sited (fun _ _ _ => edits_updateInst) h

theorem retouches_renamePhiInputs (sited : f.Sited) (h : Cleanup.renamePhiInputs f b s t = .ok g) :
    Retouches (fun c x => if c = b ∧ x.op = .phi then
      { x with uses := Cleanup.renameLabels s t x.uses } else x) f g :=
  retouches_phis sited (fun _ _ _ => edits_updateInst) h

end Procedure

theorem Inst.targets_renameReads (x : Inst) (d v : Reg) : (x.renameReads d v).targets = x.targets := by
  rw [renameReads_eq]
  simp only [targets, reread, List.filterMap_map, Function.comp_def, Operand.block?_reread]

def Inst.feed (t p : BlockId) (x : Inst) : Inst :=
  match x.phiValue? t with
  | some v => x.addPhiInput v p
  | none => x

namespace Procedure

variable {f g k : Procedure} {b c p s t : BlockId} {i j : InstId} {x y : Inst} {d v : Reg}

theorem retouches_copyPhiInputs (sited : f.Sited) (h : Cleanup.copyPhiInputs f b t p = .ok g) :
    Retouches (fun c x => if c = b ∧ x.op = .phi then x.feed t p else x) f g := by
  refine retouches_phis sited (fun g i k run => ?_) h
  obtain ⟨x, found, run⟩ := bind_ok_iff.mp run
  cases value : x.phiValue? t with
  | some v =>
    rw [value] at run
    have edits := edits_updateInst run
    refine ⟨edits.blocks, edits.sharing, fun j hit => ?_, edits.missed⟩
    rw [edits.hit j hit, hit, found]
    simp only [Except.map, Inst.feed, value]
  | none =>
    rw [value] at run
    cases run
    refine ⟨rfl, rfl, fun j hit => ?_, fun _ _ => rfl⟩
    rw [hit, found]
    simp only [Except.map, Inst.feed, value]

theorem retouches_replaceReg (f : Procedure) (d v : Reg) :
    Retouches (fun _ x => x.renameReads d v) f (f.replaceReg d v) := by
  refine ⟨fun c => by rw [blockAt_replaceReg], fun c i _ => inst_replaceReg f d v i,
    fun quiet e mem y found => ?_⟩
  rw [inst_replaceReg] at found
  cases old : f.inst e.1 with
  | error =>
    rw [old] at found
    cases found
  | ok x =>
    rw [old] at found
    cases found
    obtain ⟨other, none⟩ := quiet e mem x old
    exact ⟨other, by rw [Inst.targets_renameReads, none]⟩

end Procedure

namespace Inst

variable {x : Inst} {s t : BlockId}

theorem retarget_phi (phi : x.op = .phi) : x.retarget s t = x := by
  unfold retarget
  rw [phi]

private theorem retarget_of_quiet (other : x.op ≠ .phi) (none : x.targets = []) : x.retarget s t = x := by
  have none : x.uses.filterMap Operand.block? = [] := by
    unfold targets at none
    split at none
    · contradiction
    · exact none
  have same : x.uses.map (Operand.renameBlock s t) = x.uses := by
    rw [List.filterMap_eq_nil_iff] at none
    conv_rhs => rw [← List.map_id x.uses]
    refine List.map_congr_left fun u mem => ?_
    have := none u mem
    cases u with
    | block => cases this
    | reg | imm => rfl
  unfold retarget
  split
  · rfl
  · rw [same]

end Inst

namespace Procedure

variable {f g k : Procedure} {b c p s t : BlockId} {i j : InstId} {x y : Inst}

private theorem Edits.quiet_retarget {T : InstId → Prop} (h : Edits T (Inst.retarget s t) f g)
    (quiet : f.Quiet) : g.Quiet := by
  refine quiet.congr h.sharing fun e mem => ?_
  by_cases hit : T e.1
  · rw [h.hit _ hit]
    cases found : f.inst e.1 with
    | error => rfl
    | ok y =>
      obtain ⟨other, none⟩ := quiet e mem y found
      exact congrArg Except.ok (Inst.retarget_of_quiet other none)
  · rw [h.missed _ hit]

private theorem edits_retarget (quiet : f.Quiet) (h : f.retarget i s t = .ok g) :
    Edits (· = i) (Inst.retarget s t) f g ∧ g.Quiet := by
  unfold Procedure.retarget at h
  obtain ⟨k, first, rest⟩ := bind_ok_iff.mp h
  have here := edits_updateInst first
  have quiet' := here.quiet_retarget quiet
  have others : ∀ (l : List InstId) (k : Procedure), k.Quiet → (∀ j ∈ l, ∃ e ∈ k.sharing, e.1 = j) →
      l.foldlM (fun g j => g.updateInst j (Inst.retarget s t)) k = .ok g →
      g.blocks = k.blocks ∧ g.sharing = k.sharing ∧ ∀ j, g.inst j = k.inst j := by
    intro l
    induction l with
    | nil =>
      intro k _ _ run
      cases run
      exact ⟨rfl, rfl, fun _ => rfl⟩
    | cons j l ih =>
      intro k quiet shared run
      obtain ⟨k', one, run⟩ := bind_ok_iff.mp run
      have edits := edits_updateInst one
      have same : ∀ n, k'.inst n = k.inst n := by
        intro n
        by_cases hit : n = j
        · subst hit
          rw [edits.hit n rfl]
          obtain ⟨e, mem, rfl⟩ := shared n List.mem_cons_self
          cases found : k.inst e.1 with
          | error => rfl
          | ok y =>
            obtain ⟨other, none⟩ := quiet e mem y found
            exact congrArg Except.ok (Inst.retarget_of_quiet other none)
        · exact edits.missed n hit
      obtain ⟨blocks, sharing, inst⟩ := ih k' (edits.quiet_retarget quiet)
        (fun n mem => by rw [edits.sharing]; exact shared n (List.mem_cons_of_mem j mem)) run
      exact ⟨blocks.trans edits.blocks, sharing.trans edits.sharing, fun n => (inst n).trans (same n)⟩
  obtain ⟨blocks, sharing, inst⟩ := others _ k quiet' (fun j mem => by
    rw [here.sharing]
    exact mem_sharers mem) rest
  refine ⟨⟨blocks.trans here.blocks, sharing.trans here.sharing, fun j hit => ?_, fun j out => ?_⟩, ?_⟩
  · rw [inst, here.hit j hit]
  · rw [inst, here.missed j out]
  · exact quiet'.congr sharing fun e _ => inst e.1

theorem retouches_retarget (sited : f.Sited)
    (h : (f.blockAt p).code.foldlM (fun g i => g.retarget i s t) f = .ok g) :
    Retouches (fun c x => if c = p then x.retarget s t else x) f g := by
  obtain ⟨edits, quiet⟩ := edits_foldlM (I := Quiet) (fun g i k quiet run => edits_retarget quiet run)
    (sited.single p) sited.quiet h
  refine ⟨fun c => by rw [edits.blockAt], fun c i mem => ?_, fun _ => quiet⟩
  split
  · rename_i here
    rw [edits.hit i (here ▸ mem)]
  · rename_i away
    rw [edits.missed i fun hit => away (sited.alone c p i mem hit)]
    cases f.inst i <;> rfl

end Procedure

def Operand.lead (w : BlockId → BlockId) : Operand → Operand
  | .block b => .block (w b)
  | u => u

private theorem Operand.renameBlock_eq (s t : BlockId) :
    Operand.renameBlock s t = Operand.lead fun b => if b = s then t else b := by
  funext u
  cases u with
  | block b => exact (apply_ite Operand.block _ _ _).symm
  | reg | imm => rfl

theorem Operand.lead_id (u : Operand) : u.lead (fun b => b) = u := by
  cases u <;> rfl

namespace Inst

variable {x y : Inst} {w : BlockId → BlockId}

structure Follows (w : BlockId → BlockId) (x y : Inst) : Prop where
  op : y.op = x.op
  defs : y.defs = x.defs
  guard : y.guard = x.guard
  cond : x.op ≠ .phi → y.cond = x.cond
  uses : x.op ≠ .phi → y.uses = x.uses.map (Operand.lead w)

theorem Follows.refl (x : Inst) : Follows (fun b => b) x x := by
  refine ⟨rfl, rfl, rfl, fun _ => rfl, fun _ => ?_⟩
  rw [List.map_congr_left fun u _ => Operand.lead_id u, List.map_id']

theorem Follows.of_phi (phi : x.op = .phi) (uses : List Operand) :
    Follows w x { x with uses := uses } :=
  ⟨rfl, rfl, rfl, fun other => absurd phi other, fun other => absurd phi other⟩

theorem Follows.retarget (x : Inst) (s t : BlockId) :
    Follows (fun b => if b = s then t else b) x (x.retarget s t) := by
  by_cases phi : x.op = .phi
  · rw [retarget_phi phi]
    exact ⟨rfl, rfl, rfl, fun _ => rfl, fun other => absurd phi other⟩
  · have led : x.retarget s t = { x with uses := x.uses.map (Operand.renameBlock s t) } := by
      unfold Inst.retarget
      split
      · contradiction
      · rfl
    rw [led]
    exact ⟨rfl, rfl, rfl, fun _ => rfl, fun _ => by rw [Operand.renameBlock_eq]⟩

theorem Follows.targets (h : Follows w x y) : y.targets = x.targets.map w := by
  unfold Inst.targets
  rw [h.op]
  split
  · rfl
  · rename_i other
    rw [h.uses (fun phi => other phi), List.filterMap_map, List.map_filterMap]
    refine List.filterMap_congr fun u _ => ?_
    cases u <;> rfl

private theorem Follows.endsFlow (h : Follows w x y) : y.endsFlow = x.endsFlow := by
  unfold Inst.endsFlow isGuarded
  rw [h.op, h.guard]

private theorem Follows.writes (h : Follows w x y) : y.writes = x.writes := by
  unfold Inst.writes isWriter
  rw [h.op, h.defs]

theorem Follows.reads (h : Follows w x y) : y.reads = x.reads := by
  unfold Inst.reads
  rw [h.op]
  split
  · rfl
  · rename_i other
    have plain : x.op ≠ .phi := fun phi => other (.inl phi)
    rw [h.uses plain, h.cond plain, h.guard, List.filterMap_map]
    congr 2
    refine List.filterMap_congr fun u _ => ?_
    cases u <;> rfl

end Inst

section Following

variable {V : Type} {m : Machine V} {x y : Inst} {w : BlockId → BlockId} {φ : Inst → Inst}
  {l pre : List Inst} {s : Store V} {t : BlockId}

private theorem Machine.execute_follows (h : x.Follows w y) : m.execute y s = (m.execute x s).lead w := by
  unfold execute
  rw [h.guard]
  split
  · by_cases phi : x.op = .phi
    · rw [h.op, phi]
      rfl
    · have values : m.operands s.file y = m.operands s.file x := by
        unfold operands
        rw [h.uses phi, List.filterMap_map]
        refine List.filterMap_congr fun u _ => ?_
        cases u <;> rfl
      rw [h.op, h.defs, values, h.cond phi, h.targets]
      cases x.op with
      | br => simp [act, Exit.lead]
      | brc =>
        simp only [act]
        split <;> simp [Exit.lead]
      | switch => simp [act, Exit.lead]
      | phi | copy | undef | sel | ret | dbg | other => rfl
  · rfl

theorem Machine.run_follows (h : ∀ x ∈ l, x.Follows w (φ x)) :
    m.run (l.map φ) s = (m.run l s).lead w := by
  induction l generalizing s with
  | nil => rfl
  | cons x l ih =>
    rw [List.map_cons, run, run, execute_follows (h x List.mem_cons_self)]
    cases m.execute x s with
    | on s => exact ih fun y hy => h y (List.mem_cons_of_mem x hy)
    | leave | ret => rfl

theorem Exit.lead_id (e : Exit V) : e.lead (fun b => b) = e := by
  cases e with
  | leave t s => exact congrArg (Exit.leave · s) Option.map_id'
  | on | ret => rfl

theorem passable_follows (h : ∀ x ∈ l, x.Follows w (φ x)) : Passable (l.map φ) ↔ Passable l := by
  unfold Passable
  rw [List.forall_mem_map]
  exact forall₂_congr fun x mem => by rw [(h x mem).endsFlow]

theorem writesOf_follows (h : ∀ x ∈ l, x.Follows w (φ x)) : writesOf (l.map φ) = writesOf l := by
  unfold writesOf
  rw [List.flatMap_map]
  exact List.flatMap_congr fun x mem => (h x mem).writes

theorem split_follows (h : ∀ x ∈ l, x.Follows w (φ x)) {post : List Inst}
    (split : l.map φ = pre ++ y :: post) : ∃ pre' x post', l = pre' ++ x :: post' ∧
      pre = pre'.map φ ∧ y = φ x ∧ x.Follows w y ∧ (Passable pre → Passable pre') ∧
      writesOf pre = writesOf pre' := by
  obtain ⟨pre', rest, rfl, rfl, tail⟩ := List.map_eq_append_iff.mp split
  obtain ⟨x, post', rfl, rfl, -⟩ := List.map_eq_cons_iff.mp tail
  have here : ∀ x ∈ pre', x.Follows w (φ x) := fun x mem => h x (List.mem_append_left _ mem)
  exact ⟨pre', x, post', rfl, rfl, rfl, h x (by simp), (passable_follows here).mp,
    writesOf_follows here⟩

theorem branches_follows (h : ∀ x ∈ l, x.Follows w (φ x)) (branch : Branches (l.map φ) pre t) :
    ∃ pre' u, Branches l pre' u ∧ t = w u ∧ writesOf pre = writesOf pre' := by
  obtain ⟨pass, y, post, split, target⟩ := branch
  obtain ⟨pre', x, post', rfl, -, -, follows, pass', writes⟩ := split_follows h split
  rw [follows.targets] at target
  obtain ⟨u, mem, rfl⟩ := List.mem_map.mp target
  exact ⟨pre', u, ⟨pass' pass, x, post', rfl, mem⟩, rfl, writes⟩

theorem Machine.enter_follows {source source' : Option BlockId} (h : ∀ x ∈ l, x.Follows w (φ x))
    (same : ∀ x ∈ l, x.op = .phi → source'.bind (φ x).phiValue? = source.bind x.phiValue?)
    (file : Reg → V) : m.enter (l.map φ) source' file = m.enter l source file := by
  funext r
  unfold enter
  congr 1
  induction l with
  | nil => rfl
  | cons x l ih =>
    rw [List.map_cons, List.findSome?_cons, List.findSome?_cons,
      ih (fun y hy => h y (List.mem_cons_of_mem x hy)) fun y hy => same y (List.mem_cons_of_mem x hy)]
    have first := h x List.mem_cons_self
    by_cases phi : x.op = .phi
    · rw [first.op, first.defs, same x List.mem_cons_self phi]
    · rw [if_neg fun both => phi (first.op ▸ both.1), if_neg fun both => phi both.1]

end Following

end Predication
