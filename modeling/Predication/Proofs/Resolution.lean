import Predication.Proofs.Forwarding

/-!
Phis of a block with one predecessor are replaced by their values: a register is read in place of the
phi, and a constant is copied behind the phis.
-/

set_option autoImplicit false
set_option relaxedAutoImplicit false

namespace Predication

open Cleanup

namespace Procedure

variable {f g : Procedure} {b c p s t : BlockId} {d v r : Reg} {source : Option BlockId}
  {rs : List Reg}

/-- The phi `x` of a block `s` that control comes to from `b` only becomes a copy `y` of a constant,
behind the other phis. -/
structure Loads (s b : BlockId) (d : Reg) (value : Operand) (x y : Inst) (l l' body : List Inst)
    (f g : Procedure) : Prop where
  resolves : Resolves s f g
  sited : g.Sited
  old : f.instsAt s = (l ++ x :: l') ++ body
  new : g.instsAt s = (l ++ l') ++ y :: body
  others : ∀ c, c ≠ s → g.instsAt c = f.instsAt c
  phis : ∀ z ∈ l ++ x :: l', z.op = .phi
  defs : x.defs = [d]
  copy : y = { x with op := .copy, uses := [value] }
  free : x.guard = []
  constant : ∃ n label, value = .imm n label
  brings : x.phiValue? b = some value
  only : ∀ p ∈ (f.blockAt s).preds, p = b
  inner : f.entry? ≠ some s

section Loads

variable {value : Operand} {x y : Inst} {l l' body : List Inst}
  (h : Loads s b d value x y l l' body f g)

include h

private theorem Loads.phi : x.op = .phi := h.phis x (by simp)

private theorem Loads.mem : x ∈ f.instsAt s := by
  rw [h.old]
  simp

private theorem Loads.others_phi : ∀ z ∈ l ++ l', z.op = .phi := fun z mem => h.phis z (by
  rw [List.mem_append] at mem
  rw [List.mem_append, List.mem_cons]
  exact mem.imp id .inr)

private theorem Loads.copy_spec :
    y.op = .copy ∧ y.writes = [d] ∧ y.reads = [] ∧ y.targets = [] ∧ y.endsFlow = false := by
  obtain ⟨n, label, rfl⟩ := h.constant
  rw [h.copy]
  refine ⟨rfl, ?_, ?_, rfl, by simp [Inst.endsFlow]⟩
  · exact h.defs
  · unfold Inst.reads
    simp [h.free, Operand.reg?, Op.tests, Op.isDebug]

private theorem Loads.regular : y.Regular := by
  obtain ⟨op, -, -, targets, -⟩ := h.copy_spec
  have other : ∀ {o : Op}, y.op = o → o ≠ .copy → False := fun same away => away (same.symm.trans op)
  refine ⟨fun phi => ?_, fun phi => ?_, fun phi => ?_, fun phi => ?_, fun br => ?_, fun _ _ _ => targets⟩
  · exact (other phi fun same => by cases same).elim
  · exact (other phi fun same => by cases same).elim
  · exact (other phi fun same => by cases same).elim
  · exact (other phi fun same => by cases same).elim
  · exact (other br fun same => by cases same).elim

private theorem Loads.writes (c : BlockId) : (writesOf (g.instsAt c)).Perm (writesOf (f.instsAt c)) := by
  by_cases here : c = s
  · have mine : x.writes = [d] := (Inst.writes_phi h.phi).trans h.defs
    rw [here, h.old, h.new]
    simp only [writesOf_append, writesOf_cons, h.copy_spec.2.1, mine, List.append_assoc]
    exact List.Perm.append_left _ (by
      simp only [List.singleton_append]
      exact List.perm_middle)
  · rw [h.others c here]

/-- Code is left at the same places. -/
private theorem Loads.leaves {pre : List Inst} (leaves : g.Leaves c pre t) :
    ∃ pre', f.Leaves c pre' t ∧ writesOf pre' ⊆ writesOf pre := by
  by_cases here : c = s
  · subst here
    have passOld : Passable (l ++ x :: l') := fun z mem => by simp [Inst.endsFlow, h.phis z mem]
    rcases leaves with branch | ⟨⟨pass, next⟩, rfl⟩
    · rw [h.new] at branch
      have none : ∀ z ∈ l ++ l', z.targets = [] := fun z mem => by
        simp [Inst.targets, h.others_phi z mem]
      rcases branches_append.mp branch with inside | ⟨-, pre', rfl, behind⟩
      · exact absurd inside (not_branches_of_targets none)
      · rcases branches_cons.mp behind with ⟨-, target⟩ | ⟨pre', rfl, -, branch⟩
        · rw [h.copy_spec.2.2.2.1] at target
          cases target
        · refine ⟨(l ++ x :: l') ++ pre', .inl ?_, fun r mem => ?_⟩
          · rw [h.old]
            exact branches_append.mpr (.inr ⟨passOld, pre', rfl, branch⟩)
          · have mine : x.writes = [d] := (Inst.writes_phi h.phi).trans h.defs
            simp only [writesOf_append, writesOf_cons, List.mem_append, mine, h.copy_spec.2.1] at mem ⊢
            tauto
    · rw [h.resolves.links.next?] at next
      refine ⟨f.instsAt c, .inr ⟨⟨?_, next⟩, rfl⟩, (h.writes c).symm.subset⟩
      rw [h.new, Passable.append, passable_cons] at pass
      rw [h.old, Passable.append]
      exact ⟨passOld, pass.2.2⟩
  · unfold Leaves at leaves ⊢
    rw [h.others c here, h.resolves.links.next?] at leaves
    exact ⟨pre, leaves, List.Subset.refl _⟩

private theorem Loads.arrives (way : g.Arrives source c rs) : ∃ rs', f.Arrives source c rs' ∧ rs' ⊆ rs := by
  induction way with
  | entry first =>
    refine ⟨[], .entry ?_, List.Subset.refl _⟩
    rw [← first]
    unfold entry?
    rw [h.resolves.links.layout]
  | edge _ leaves ih =>
    obtain ⟨rs', way, fewer⟩ := ih
    obtain ⟨pre', old, less⟩ := h.leaves leaves
    refine ⟨_, way.edge old, fun r mem => ?_⟩
    rw [List.mem_append] at mem ⊢
    exact mem.imp (@fewer r) (@less r)

private theorem Loads.old_mem {z : Inst} (mem : z ∈ g.instsAt c) (phi : z.op = .phi) : z ∈ f.instsAt c := by
  by_cases here : c = s
  · rw [here, h.new] at mem
    rw [here, h.old]
    simp only [List.mem_append, List.mem_cons] at mem ⊢
    rcases mem with (before | after) | rfl | inside
    · exact .inl (.inl before)
    · exact .inl (.inr (.inr after))
    · cases h.copy_spec.1.symm.trans phi
    · exact .inr inside
  · rwa [h.others c here] at mem

private theorem Loads.strict (sound : f.Sound) : g.Strict := by
  refine sound.strict.carry (fun c r mem => (h.writes c).subset mem)
    (fun c => (h.writes c).nodup_iff.mpr (sound.strict.once c)) (fun way => ⟨_, h.arrives way⟩) ?_ ?_
  · intro c pre z post split pass
    by_cases here : c = s
    · subst here
      have quiet : z.reads = [] → ∃ pre' x' post', f.instsAt c = pre' ++ x' :: post' ∧ Passable pre' ∧
          writesOf pre' ⊆ writesOf pre ∧ ∀ r ∈ z.reads, r ∈ x'.reads := by
        intro none
        obtain ⟨first, tail, same⟩ := List.exists_cons_of_ne_nil (List.ne_nil_of_mem h.mem)
        refine ⟨[], first, tail, same, passable_nil, List.nil_subset _, fun r mem => ?_⟩
        rw [none] at mem
        cases mem
      rw [h.new] at split
      rcases split_append split with ⟨post', same⟩ | ⟨inner, rfl, behind⟩
      · have phi : z.op = .phi := h.others_phi z (by rw [same]; simp)
        refine quiet ?_
        unfold Inst.reads
        rw [if_pos (.inl phi)]
      · cases inner with
        | nil =>
          cases behind
          exact quiet h.copy_spec.2.2.1
        | cons w inner =>
          cases behind
          refine ⟨(l ++ x :: l') ++ inner, z, post, ?_, ?_, fun r mem => ?_, fun _ => id⟩
          · rw [h.old, List.append_assoc (l ++ x :: l')]
            rfl
          · rw [Passable.append] at pass ⊢
            exact ⟨fun z mem => by simp [Inst.endsFlow, h.phis z mem], (passable_cons.mp pass.2).2⟩
          · have mine : x.writes = [d] := (Inst.writes_phi h.phi).trans h.defs
            simp only [writesOf_append, writesOf_cons, List.mem_append, mine, h.copy_spec.2.1] at mem ⊢
            tauto
    · rw [h.others c here] at split
      exact ⟨pre, z, post, split, pass, List.Subset.refl _, fun _ => id⟩
  · intro p c rs z r label way mem phi value written
    obtain ⟨rs', way, fewer⟩ := h.arrives way
    exact fewer (sound.strict.inputs way (h.old_mem mem phi) phi value written)

private theorem Loads.sound (sound : f.Sound) : g.Sound := by
  have links := h.resolves.links
  refine ⟨h.resolves.guided sound.toGuided, h.sited, fun c z mem => ?_, fun c t leads => ?_,
    fun c z mem phi p => ?_, fun c hc pass => ?_, h.strict sound⟩
  · by_cases here : c = s
    · rw [here, h.new] at mem
      simp only [List.mem_append, List.mem_cons] at mem
      have old : z ≠ y → z ∈ f.instsAt s := by
        intro other
        rw [h.old]
        simp only [List.mem_append, List.mem_cons]
        tauto
      by_cases same : z = y
      · rw [same]
        exact h.regular
      · exact sound.regular s z (old same)
    · rw [h.others c here] at mem
      exact sound.regular c z mem
  · obtain ⟨pre, leaves⟩ := leads
    obtain ⟨pre', leaves, -⟩ := h.leaves leaves
    rw [links.succs]
    exact sound.edges c t ⟨pre', leaves⟩
  · rw [links.preds]
    exact sound.sources c z (h.old_mem mem phi) phi p
  · rw [links.layout] at hc
    rw [links.next?]
    refine sound.closed c hc ?_
    by_cases here : c = s
    · rw [here, h.new, Passable.append, passable_cons] at pass
      rw [here, h.old, Passable.append]
      exact ⟨fun z mem => by simp [Inst.endsFlow, h.phis z mem], pass.2.2⟩
    · rwa [h.others c here] at pass

/-- The copy gives `d` the value that it had on entry. -/
private theorem Loads.runs (sound : f.Sound) {V : Type} {m : Machine V} (history : List (Call V))
    (file : Reg → V) :
    m.run (g.instsAt s) ⟨m.enter (g.instsAt s) (some b) file, history⟩ =
      m.run (f.instsAt s) ⟨m.enter (f.instsAt s) (some b) file, history⟩ := by
  obtain ⟨n, label, rfl⟩ := h.constant
  have phis : ∀ {l : List Inst} {σ : Store V}, (∀ z ∈ l, z.op = .phi) → m.run l σ = .on σ := by
    intro l σ all
    rw [← Machine.run_filter (fun _ => false) fun z mem _ => all z mem, List.filter_false]
    rfl
  have enters : ∀ r, m.enter (f.instsAt s) (some b) file r =
      if r = d then m.constant n else m.enter (g.instsAt s) (some b) file r := by
    intro r
    split
    · rename_i same
      subst same
      refine Machine.enter_of_mem h.mem h.phi (by simp [h.defs]) (fun z mem phi defs => ?_) ?_
      · exact sound.strict.same mem h.mem (by rwa [Inst.writes_phi phi])
          (by rw [Inst.writes_phi h.phi, h.defs]; simp)
      · simp only [Option.bind_some, h.brings, Machine.value?]
    · rename_i other
      have away : ¬ (x.op = .phi ∧ r ∈ x.defs) := by
        rw [h.defs, List.mem_singleton]
        exact fun both => other both.2
      have late : ¬ (y.op = .phi ∧ r ∈ y.defs) := fun both => by
        cases h.copy_spec.1.symm.trans both.1
      unfold Machine.enter
      rw [h.old, h.new]
      simp only [List.findSome?_append, List.findSome?_cons, if_neg away, if_neg late]
  have before : ∀ σ : Store V, m.run (f.instsAt s) σ = m.run body σ := fun σ => by
    rw [h.old, Machine.run_append, phis h.phis]
    rfl
  have after : ∀ σ : Store V, m.run (g.instsAt s) σ = (m.execute y σ).andThen (m.run body) := fun σ => by
    rw [h.new, Machine.run_append, phis h.others_phi]
    rfl
  have executes : m.execute y ⟨m.enter (g.instsAt s) (some b) file, history⟩ =
      .on ⟨m.enter (f.instsAt s) (some b) file, history⟩ := by
    unfold Machine.execute
    rw [h.copy]
    simp only [h.free, Machine.holds, List.all_nil, if_true, Machine.act, Store.write, h.defs]
    congr 2
    funext r
    rw [enters]
    by_cases same : r = d
    · simp [same, Machine.operands, Machine.value?]
    · simp [same]
  rw [before, after, executes]
  rfl

private theorem Loads.alike (sound : f.Sound) : Alike f g := by
  have entry : g.entry? = f.entry? := by
    unfold entry?
    rw [h.resolves.links.layout]
  refine alike_of_steps entry fun V m c located => ?_
  unfold step
  split
  · rename_i source a spot
    have departs : ∀ e : Exit V, g.depart a e = f.depart a e := by
      intro e
      cases e with
      | on σ =>
        unfold depart
        rw [h.resolves.links.next?]
      | leave | ret => rfl
    rw [departs]
    congr 1
    by_cases here : a = s
    · subst here
      obtain ⟨rs, way⟩ := located source a spot
      cases source with
      | none => exact absurd way.of_none.1 h.inner
      | some p =>
        obtain rfl := h.only p (sound.arrives_edge way)
        exact h.runs sound c.store.history c.store.file
    · rw [h.others a here]
  · rfl

end Loads

section Placing

variable {y : Inst} {i : InstId} {before after ids rest : List InstId}

private theorem inst_place (firm : f.Firm) (mem : i ∈ (f.blockAt c).code) :
    (f.place b before after y).inst i = f.inst i := by
  obtain ⟨z, found, -⟩ := firm.able c i mem
  unfold place
  rw [inst_setCode, found]
  exact inst_addInst found

theorem instsAt_place (firm : f.Firm) (known : f.block b = .ok (f.blockAt b))
    (split : (f.blockAt b).code = before ++ after) (c : BlockId) :
    (f.place b before after y).instsAt c =
      if c = b then before.filterMap f.inst? ++ y :: after.filterMap f.inst? else f.instsAt c := by
  have kept : ∀ {c} {code : List InstId}, (∀ i ∈ code, i ∈ (f.blockAt c).code) →
      code.filterMap (f.place b before after y).inst? = code.filterMap f.inst? := by
    intro c code sub
    refine List.filterMap_congr fun i mem => ?_
    unfold inst?
    rw [inst_place firm (sub i mem)]
  unfold instsAt
  rw [code_place known]
  split
  · rw [List.filterMap_append, List.filterMap_cons_some (inst?_eq_some.mpr inst_place_new),
      kept (c := b) fun i mem => by rw [split]; exact List.mem_append_left _ mem,
      kept (c := b) fun i mem => by rw [split]; exact List.mem_append_right _ mem]
  · exact kept fun i mem => mem

/-- A new instruction is placed in order. -/
theorem Sited.place (sited : f.Sited) (firm : f.Firm) (known : f.block b = .ok (f.blockAt b))
    (split : (f.blockAt b).code = before ++ after)
    (ordered : (before.filterMap f.inst? ++ y :: after.filterMap f.inst?).Pairwise Inst.PhiOrder) :
    (f.place b before after y).Sited := by
  have code := code_place known before after y
  refine ⟨fun c i mem => ?_, fun c => ?_, fun c d i hc hd => ?_, fun c => ?_, fun e mem z found => ?_⟩
  · rcases mem_code_place known split mem with old | ⟨-, rfl⟩
    · rw [inst_place firm old]
      exact sited.found c i old
    · exact ⟨y, inst_place_new⟩
  · rw [code]
    split
    · have single := sited.single b
      have fresh := firm.fresh b
      rw [split] at single fresh
      exact (List.nodup_middle).mpr (List.nodup_cons.mpr ⟨fresh, single⟩)
    · exact sited.single c
  · rcases mem_code_place known split hc with oldC | ⟨rfl, rfl⟩
    · rcases mem_code_place known split hd with oldD | ⟨rfl, rfl⟩
      · exact sited.alone c d i oldC oldD
      · exact absurd oldC (firm.fresh c)
    · rcases mem_code_place known split hd with oldD | ⟨rfl, -⟩
      · exact absurd oldD (firm.fresh d)
      · rfl
  · rw [instsAt_place firm known split]
    split
    · exact ordered
    · exact sited.ordered c
  · -- sharers are old instructions
    have old : (f.place b before after y).sharing = f.sharing := by
      simp [Procedure.place, Procedure.setCode, addInst]
    rw [old] at mem
    obtain ⟨u, there, -⟩ := firm.shared e mem
    have same : (f.place b before after y).inst e.1 = .ok u := by
      unfold Procedure.place
      rw [inst_setCode]
      exact inst_addInst there
    cases found.symm.trans same
    exact sited.quiet e mem z there

private theorem Sited.shareOperands (sited : f.Sited) {j : InstId} (quiet : y.op ≠ .phi ∧ y.targets = [])
    (hi : f.inst i = .ok y) (hj : f.inst j = .ok y) : (f.shareOperands i j).Sited := by
  refine ⟨sited.found, sited.single, sited.alone, sited.ordered, fun e mem z found => ?_⟩
  rcases List.mem_cons.mp mem with rfl | mem
  · cases hj.symm.trans found
    exact quiet
  · rcases List.mem_cons.mp mem with rfl | mem
    · cases hi.symm.trans found
      exact quiet
    · exact sited.quiet e mem z found

end Placing

def IsPhi (f : Procedure) (s : BlockId) (i : InstId) : Prop :=
  i ∈ (f.blockAt s).code ∧ ∃ x, f.inst i = .ok x ∧ x.op = .phi

end Procedure

namespace Cleanup

open Procedure

variable {f g : Procedure} {b s : BlockId} {i : InstId} {x : Inst}

private theorem filter_spared {d : Reg} {before after : List InstId} (strict : f.Strict)
    (split : (f.blockAt s).code = before ++ i :: after) (found : f.inst i = .ok x)
    (phi : x.op = .phi) (defs : x.defs = [d]) (c : BlockId) :
    (f.instsAt c).filter (Inst.sparedBy d) =
      if c = s then (before ++ after).filterMap f.inst? else f.instsAt c := by
  have old : f.instsAt s = before.filterMap f.inst? ++ x :: after.filterMap f.inst? := by
    rw [instsAt, split, List.filterMap_append, List.filterMap_cons_some (inst?_eq_some.mpr found)]
  have mine : x.writes = [d] := (Inst.writes_phi phi).trans defs
  have all : ∀ {l : List Inst}, d ∉ writesOf l → l.filter (Inst.sparedBy d) = l := by
    intro l none
    refine List.filter_eq_self.mpr fun y mem => ?_
    by_contra dropped
    obtain ⟨phi', defs'⟩ := Inst.sparedBy_eq_false.mp (Bool.eq_false_iff.mpr dropped)
    exact none (mem_writesOf.mpr ⟨y, mem, by rw [Inst.writes_phi phi', defs']; simp⟩)
  split
  · rename_i here
    have once := strict.once s
    rw [old, writesOf_append, writesOf_cons, mine, List.singleton_append, List.nodup_middle,
      List.nodup_cons, List.mem_append, not_or] at once
    have gone : x.sparedBy d = false := Inst.sparedBy_eq_false.mpr ⟨phi, defs⟩
    rw [here, old, List.filter_append, List.filter_cons_of_neg (by simp [gone]), all once.1.1,
      all once.1.2, List.filterMap_append]
  · rename_i other
    refine all fun mem => other (strict.alone c s d mem ?_)
    rw [old, writesOf_append, writesOf_cons, mine]
    simp

/-- A phi of a block with one predecessor has one value, and the register or constant is its first
operand. -/
private theorem first_input (sound : f.Sound) (edge : b ∈ (f.blockAt s).preds)
    (only : ∀ p ∈ (f.blockAt s).preds, p = b) (mem : x ∈ f.instsAt s) (phi : x.op = .phi) :
    ∃ v rest, x.uses = v :: rest ∧ x.phiValue? b = some v ∧ v.block? = none := by
  have sources := sound.sources s x mem phi
  have regular := sound.regular s x mem
  have some : b ∈ x.sources := (sources b).mpr edge
  unfold Inst.sources Inst.phiInputs at some
  cases same : x.uses with
  | nil =>
    rw [same] at some
    cases some
  | cons v rest =>
    cases rest with
    | nil =>
      rw [same] at some
      cases some
    | cons label rest =>
      have inputs : x.phiInputs = ⟨v, label⟩ :: PhiInput.ofUses rest := by
        rw [Inst.phiInputs, same, PhiInput.ofUses]
      have source : label.blockId = b := by
        refine only _ ((sources _).mp (List.mem_map.mpr ⟨⟨v, label⟩, ?_, rfl⟩))
        rw [inputs]
        exact List.mem_cons_self
      refine ⟨v, label :: rest, rfl, ?_, regular.values phi ⟨v, label⟩ (by rw [inputs]; simp)⟩
      unfold Inst.phiValue?
      rw [inputs, List.find?_cons_of_pos (by simp [PhiInput.source, source])]
      rfl

section Resolving

variable {before after : List InstId} (sound : f.Sound) (only : ∀ p ∈ (f.blockAt s).preds, p = b)
  (inner : f.entry? ≠ some s) (split : (f.blockAt s).code = before ++ i :: after)
  (found : f.inst i = .ok x) (phi : x.op = .phi)

include sound only inner split found phi

private theorem forward_sound {d v : Reg} {label : BlockId} (defs : x.defs = [d])
    (value : x.phiValue? b = some (.reg v label))
    (resolves : Resolves s f ((f.setCode s (before ++ after)).replaceReg d v)) :
    Forwards s b d v f ((f.setCode s (before ++ after)).replaceReg d v) := by
  have mem : i ∈ (f.blockAt s).code := by
    rw [split]
    simp
  have there : x ∈ f.instsAt s := mem_instsAt.mpr ⟨i, mem, found⟩
  have known := block_of_live (Sited.instsAt_live sound.toMeshed there)
  have renames := retouches_replaceReg (f.setCode s (before ++ after)) d v
  have sub : (before ++ after).Sublist (f.blockAt s).code := by
    rw [split]
    exact (List.Sublist.refl before).append (List.sublist_cons_self i after)
  refine ⟨resolves, renames.sited (sound.sited.setCode known sub) fun _ _ _ => rfl, fun c => ?_,
    ⟨x, there, phi, defs, label, value⟩, only, inner⟩
  rw [renames.instsAt, instsAt_setCode known, forwarded,
    filter_spared sound.strict split found phi defs]

end Resolving

structure Placed (s : BlockId) (ids body : List InstId) (y : Inst) (f g : Procedure) : Prop where
  sited : g.Sited
  here : g.instsAt s = ids.filterMap f.inst? ++ y :: body.filterMap f.inst?
  others : ∀ c, c ≠ s → g.instsAt c = f.instsAt c
  phis : ∀ j, g.IsPhi s j ↔ j ∈ ids

private theorem retouches_unplaced {y : Inst} (edits : Edits (· = i) (fun _ => y) f g)
    (gone : ∀ c, i ∉ (f.blockAt c).code) (mine : g.inst i = .ok y)
    (quiet : y.op ≠ .phi ∧ y.targets = []) : Retouches (fun _ z => z) f g := by
  refine ⟨fun c => by rw [edits.blockAt], fun c j mem => ?_, fun old e mem z there => ?_⟩
  · rw [edits.missed j fun same => gone c (same ▸ mem)]
    cases f.inst j <;> rfl
  · rw [edits.sharing] at mem
    by_cases same : e.1 = i
    · rw [same] at there
      cases mine.symm.trans there
      exact quiet
    · rw [edits.missed e.1 same] at there
      exact old e mem z there

private theorem phiOrder_insert {l l' : List Inst} {y : Inst} (ordered : (l ++ l').Pairwise Inst.PhiOrder)
    (plain : ∀ z ∈ l', z.op ≠ .phi) (other : y.op ≠ .phi) :
    (l ++ y :: l').Pairwise Inst.PhiOrder := by
  obtain ⟨first, last, between⟩ := List.pairwise_append.mp ordered
  refine List.pairwise_append.mpr ⟨first, List.pairwise_cons.mpr ⟨fun z mem phi => ?_, last⟩,
    fun z hz w hw => ?_⟩
  · exact absurd phi (plain z mem)
  · rcases List.mem_cons.mp hw with rfl | hw
    · exact fun phi => absurd phi other
    · exact between z hz w hw

private theorem placeResolved_placed {ids body : List InstId} {y : Inst} (firm : f.Firm) (sited : f.Sited)
    (live : (f.blockAt s).dead = false) (split : (f.blockAt s).code = ids ++ body)
    (phis : ∀ j ∈ ids, ∃ z, f.inst j = .ok z ∧ z.op = .phi)
    (others : ∀ j ∈ body, ∃ z, f.inst j = .ok z ∧ z.op ≠ .phi) (gone : ∀ c, i ∉ (f.blockAt c).code)
    (found : f.inst i = .ok x) (like : x.Like y) (quiet : y.op ≠ .phi ∧ y.targets = [])
    (run : placeResolved f s i y = .ok g) : Placed s ids body y f g := by
  obtain ⟨k, changed, run⟩ := bind_ok_iff.mp run
  obtain ⟨asked, phisK, run⟩ := bind_ok_iff.mp run
  obtain ⟨⟨m, new⟩, inserted, run⟩ := bind_ok_iff.mp run
  cases run
  have edits := edits_updateInst changed
  have revises := (updateInst_revises (u := fun _ => y) found like).holds k changed
  have firmK := revises.firm firm
  have view := edits.blockAt
  have mine : k.inst i = .ok y := by
    rw [edits.hit i rfl, found]
    rfl
  have kept : ∀ c, ∀ j ∈ (f.blockAt c).code, k.inst j = f.inst j := fun c j mem =>
    edits.missed j fun same => gone c (same ▸ mem)
  have retouches := retouches_unplaced edits gone mine quiet
  have sitedK : k.Sited := retouches.sited sited fun _ _ _ => rfl
  have splitK : (k.blockAt s).code = ids ++ body := by rw [view, split]
  have knownK : k.block s = .ok (k.blockAt s) := block_of_live (by rw [view]; exact live)
  have same : ∀ {code : List InstId}, (∀ j ∈ code, j ∈ (f.blockAt s).code) →
      code.filterMap k.inst? = code.filterMap f.inst? := by
    intro code sub
    refine List.filterMap_congr fun j mem => ?_
    unfold inst?
    rw [kept s j (sub j mem)]
  have inIds : ∀ j ∈ ids, j ∈ (f.blockAt s).code := fun j mem => by
    rw [split]
    exact List.mem_append_left _ mem
  have inBody : ∀ j ∈ body, j ∈ (f.blockAt s).code := fun j mem => by
    rw [split]
    exact List.mem_append_right _ mem
  have front : asked = ids := by
    obtain ⟨-, leading⟩ := phis_ok phisK
    rw [splitK, leadingPhis_eq (fun j mem => ?_) fun j first => ?_] at leading
    · exact (Except.ok.inj leading).symm
    · rw [kept s j (inIds j mem)]
      exact phis j mem
    · have mem := List.mem_of_mem_head? first
      rw [kept s j (inBody j mem)]
      exact others j mem
  subst front
  rw [insert_eq knownK (by rw [splitK]; simp), splitK, List.take_left', List.drop_left'] at inserted
  · injection inserted with inserted
    cases inserted
    have place : ∀ c, (k.place s asked body y).instsAt c = if c = s then
        asked.filterMap f.inst? ++ y :: body.filterMap f.inst? else f.instsAt c := fun c => by
      rw [instsAt_place firmK knownK splitK, same inIds, same inBody, retouches.instsAt, List.map_id']
    have ordered : (asked.filterMap k.inst? ++ y :: body.filterMap k.inst?).Pairwise
        Inst.PhiOrder := by
      refine phiOrder_insert ?_ (fun z mem => ?_) quiet.1
      · rw [← List.filterMap_append, ← splitK]
        exact sitedK.ordered s
      · rw [same inBody] at mem
        obtain ⟨j, hj, there⟩ := List.mem_filterMap.mp mem
        obtain ⟨u, found', other⟩ := others j hj
        cases (inst?_eq_some.mp there).symm.trans found'
        exact other
    have moved : (k.place s asked body y).inst i = .ok y := by
      unfold Procedure.place
      rw [inst_setCode]
      exact inst_addInst mine
    refine ⟨(sitedK.place firmK knownK splitK ordered).shareOperands quiet moved inst_place_new, ?_,
      fun c other => ?_, fun j => ?_⟩
    · exact (place s).trans (if_pos rfl)
    · exact (place c).trans (if_neg other)
    · have code : ((k.place s asked body y).blockAt s).code =
          asked ++ (k.insts.size : InstId) :: body := by rw [code_place knownK, if_pos rfl]
      have old : ∀ j ∈ (f.blockAt s).code, (k.place s asked body y).inst j = f.inst j := fun j mem => by
        rw [inst_place firmK (by rw [view]; exact mem), kept s j mem]
      constructor
      · rintro ⟨mem, z, there, phi⟩
        have mem : j ∈ asked ++ (k.insts.size : InstId) :: body := code ▸ mem
        have there : (k.place s asked body y).inst j = .ok z := there
        rw [List.mem_append, List.mem_cons] at mem
        rcases mem with mem | rfl | mem
        · exact mem
        · cases inst_place_new.symm.trans there
          exact absurd phi quiet.1
        · obtain ⟨u, found', other⟩ := others j mem
          rw [old j (inBody j mem)] at there
          cases there.symm.trans found'
          exact absurd phi other
      · intro mem
        obtain ⟨z, found', phi⟩ := phis j mem
        refine ⟨?_, z, (old j (inIds j mem)).trans found', phi⟩
        have there : j ∈ asked ++ (k.insts.size : InstId) :: body := List.mem_append_left _ mem
        exact code ▸ there
  · rfl
  · rfl

structure PhisAround (f : Procedure) (s : BlockId) (i : InstId) (l l' body : List InstId) : Prop where
  code : (f.blockAt s).code = (l ++ i :: l') ++ body
  phis : ∀ j ∈ l ++ i :: l', ∃ z, f.inst j = .ok z ∧ z.op = .phi
  others : ∀ j ∈ body, ∃ z, f.inst j = .ok z ∧ z.op ≠ .phi

section Around

variable {l l' body : List InstId}

private theorem exists_phisAround (firm : f.Firm) (sited : f.Sited) (live : (f.blockAt s).dead = false)
    (isPhi : f.IsPhi s i) : ∃ l l' body, PhisAround f s i l l' body := by
  obtain ⟨mem, x, found, phi⟩ := isPhi
  obtain ⟨ids, asked, -⟩ := phis_gives live (firm.able s)
  obtain ⟨body, code, phis, others⟩ := sited.phis asked
  obtain ⟨l, l', rfl⟩ := List.append_of_mem ((sited.mem_phis asked found).mpr ⟨mem, phi⟩)
  exact ⟨l, l', body, code, phis, others⟩

variable (h : PhisAround f s i l l' body) (sited : f.Sited)

include h sited

private theorem PhisAround.once : i ∉ l ++ (l' ++ body) := by
  have single := sited.single s
  rw [h.code, List.append_assoc, List.cons_append, List.nodup_middle, List.nodup_cons] at single
  exact single.1

private theorem PhisAround.erase : (f.blockAt s).code.erase i = l ++ (l' ++ body) := by
  rw [h.code, List.append_assoc, List.cons_append, List.erase_append_right _ fun old =>
    h.once sited (List.mem_append_left _ old), List.erase_cons_head]

private theorem PhisAround.left {j : InstId} : f.IsPhi s j ∧ j ≠ i ↔ j ∈ l ++ l' := by
  constructor
  · rintro ⟨⟨mem, z, found, phi⟩, other⟩
    rw [h.code, List.mem_append, List.mem_append, List.mem_cons] at mem
    rcases mem with (mem | rfl | mem) | mem
    · exact List.mem_append_left _ mem
    · exact absurd rfl other
    · exact List.mem_append_right _ mem
    · obtain ⟨w, there, plain⟩ := h.others j mem
      cases found.symm.trans there
      exact absurd phi plain
  · intro mem
    have inIds : j ∈ l ++ i :: l' := by
      rw [List.mem_append] at mem
      rw [List.mem_append, List.mem_cons]
      exact mem.imp id .inr
    refine ⟨⟨by rw [h.code]; exact List.mem_append_left _ inIds, h.phis j inIds⟩, ?_⟩
    rintro rfl
    refine h.once sited ?_
    rw [List.mem_append] at mem
    rw [List.mem_append, List.mem_append]
    exact mem.imp id .inl

end Around

private theorem load_sound {l l' body : List InstId} {d : Reg} {n : Int} {label : BlockId} (sound : f.Sound)
    (around : PhisAround f s i l l' body) (only : ∀ p ∈ (f.blockAt s).preds, p = b)
    (inner : f.entry? ≠ some s) (found : f.inst i = .ok x) (phi : x.op = .phi) (defs : x.defs = [d])
    (value : x.phiValue? b = some (.imm n label)) (resolves : Resolves s f g)
    (run : placeResolved (f.setCode s (l ++ (l' ++ body))) s i
      { x with op := .copy, uses := [.imm n label] } = .ok g) :
    Loads s b d (.imm n label) x { x with op := .copy, uses := [.imm n label] }
      (l.filterMap f.inst?) (l'.filterMap f.inst?) (body.filterMap f.inst?) f g ∧
    ∀ j, g.IsPhi s j ↔ j ∈ l ++ l' := by
  have mem : i ∈ (f.blockAt s).code := by
    rw [around.code]
    simp
  have there : x ∈ f.instsAt s := mem_instsAt.mpr ⟨i, mem, found⟩
  have live := Sited.instsAt_live sound.toMeshed there
  have known := block_of_live live
  have sub : (l ++ (l' ++ body)).Sublist (f.blockAt s).code := by
    rw [← around.erase sound.sited]
    exact List.erase_sublist
  have gone : ∀ c, i ∉ ((f.setCode s (l ++ (l' ++ body))).blockAt c).code := by
    intro c old
    rw [code_setCode known] at old
    split at old
    · exact around.once sound.sited old
    · rename_i other
      exact other (sound.sited.alone c s i old mem)
  have placed : Placed s (l ++ l') body { x with op := .copy, uses := [.imm n label] }
      (f.setCode s (l ++ (l' ++ body))) g := placeResolved_placed
    (sound.toFirm.setCode known fun j => (sub.subset ·)) (sound.sited.setCode known sub)
    (by rw [(sameLinks_setCode known _).dead]; exact live)
    (by rw [code_setCode known, if_pos rfl, List.append_assoc])
    (fun j hj => by rw [inst_setCode]; exact ((around.left sound.sited).mpr hj).1.2)
    (fun j hj => by rw [inst_setCode]; exact around.others j hj) gone
    (by rw [inst_setCode]; exact found) (.resolve (.inl phi) (.inl rfl) _) ⟨by simp, rfl⟩ run
  have insts := inst?_congr (inst_setCode f s (l ++ (l' ++ body)))
  refine ⟨⟨resolves, placed.sited, ?_, ?_, fun c other => ?_, fun z hz => ?_, defs, rfl,
    (sound.regular s x there).free phi, ⟨n, label, rfl⟩, value, only, inner⟩, placed.phis⟩
  · rw [instsAt, around.code, List.filterMap_append, List.filterMap_append,
      List.filterMap_cons_some (inst?_eq_some.mpr found)]
  · rw [placed.here, insts, List.filterMap_append]
  · rw [placed.others c other, instsAt_setCode known, if_neg other]
  · rw [← List.filterMap_cons_some (inst?_eq_some.mpr found), ← List.filterMap_append] at hz
    obtain ⟨j, hj, foundJ⟩ := List.mem_filterMap.mp hz
    obtain ⟨w, foundW, phiW⟩ := around.phis j hj
    cases (inst?_eq_some.mp foundJ).symm.trans foundW
    exact phiW

private theorem resolvePhi_sound (sound : f.Sound) (edge : b ∈ (f.blockAt s).preds)
    (only : ∀ p ∈ (f.blockAt s).preds, p = b) (inner : f.entry? ≠ some s) (isPhi : f.IsPhi s i) :
    Holds (fun g => (g.Sound ∧ Alike f g) ∧ Resolves s f g ∧ ∀ j, g.IsPhi s j ↔ f.IsPhi s j ∧ j ≠ i)
      (resolvePhi f s i) := by
  intro g run
  have asked := isPhi
  obtain ⟨mem, x, found, phi⟩ := isPhi
  have there : x ∈ f.instsAt s := mem_instsAt.mpr ⟨i, mem, found⟩
  have live := Sited.instsAt_live sound.toMeshed there
  have known := block_of_live live
  obtain ⟨d, defs⟩ := (sound.regular s x there).defs phi
  obtain ⟨resolves, -⟩ := (resolvePhi_gives sound.toFirm live mem found (.inl phi)
    (by rw [defs]; simp)).holds g run
  obtain ⟨l, l', body, around⟩ := exists_phisAround sound.toFirm sound.sited live asked
  obtain ⟨v, rest, uses, value, plain⟩ := first_input sound edge only there phi
  obtain ⟨y, found', run⟩ := bind_ok_iff.mp run
  cases found.symm.trans found'
  obtain ⟨k, changed, run⟩ := bind_ok_iff.mp run
  obtain ⟨-, rfl⟩ := updateBlock_ok changed
  have same : (f.mapBlock s fun z => { z with code := z.code.erase i }) =
      f.setCode s (l ++ (l' ++ body)) :=
    mapBlock_congr known (by simp only [around.erase sound.sited])
  rw [same] at run
  simp only [uses] at run
  cases v with
  | block => cases plain
  | reg r label =>
    simp only [defs] at run
    cases run
    have split : (f.blockAt s).code = l ++ i :: (l' ++ body) := by rw [around.code]; simp
    have forwards := forward_sound sound only inner split found phi defs value resolves
    refine ⟨⟨forwards.sound sound, forwards.alike sound⟩, resolves, fun j => ?_⟩
    rw [around.left sound.sited]
    unfold IsPhi
    rw [blockAt_replaceReg, inst_replaceReg, inst_setCode]
    simp only
    rw [code_setCode known, if_pos rfl, ← List.append_assoc, List.mem_append]
    constructor
    · rintro ⟨hj | hj, z, foundJ, phiJ⟩
      · exact hj
      · obtain ⟨w, foundW, other⟩ := around.others j hj
        rw [foundW] at foundJ
        cases foundJ
        exact absurd phiJ other
    · intro hj
      obtain ⟨⟨-, z, foundJ, phiJ⟩, -⟩ := (around.left sound.sited).mpr hj
      exact ⟨.inl hj, z.renameReads d r, by rw [foundJ]; rfl, phiJ⟩
  | imm n label =>
    obtain ⟨loads, phis⟩ := load_sound sound around only inner found phi defs value resolves run
    refine ⟨⟨loads.sound sound, loads.alike sound⟩, resolves, fun j => ?_⟩
    rw [around.left sound.sited, phis]

theorem resolvePhis_sound {ids : List InstId} (sound : f.Sound) (edge : b ∈ (f.blockAt s).preds)
    (only : ∀ p ∈ (f.blockAt s).preds, p = b) (inner : f.entry? ≠ some s) (nodup : ids.Nodup)
    (phis : ∀ j, f.IsPhi s j ↔ j ∈ ids) :
    Holds (fun g => (g.Sound ∧ Alike f g) ∧ Resolves s f g ∧ ∀ j, ¬ g.IsPhi s j)
      (ids.foldlM (fun g i => resolvePhi g s i) f) := by
  induction ids generalizing f with
  | nil =>
    exact .of_ok ⟨⟨sound, .refl f⟩, .refl sound.toFirm, fun j isPhi =>
      List.not_mem_nil ((phis j).mp isPhi)⟩
  | cons i ids ih =>
    obtain ⟨new, nodup⟩ := List.nodup_cons.mp nodup
    rw [List.foldlM_cons]
    refine (resolvePhi_sound sound edge only inner ((phis i).mpr List.mem_cons_self)).bind ?_
    rintro g ⟨⟨sound', alike⟩, resolves, left⟩
    have links := resolves.links
    have rest : ∀ j, g.IsPhi s j ↔ j ∈ ids := by
      intro j
      rw [left, phis, List.mem_cons]
      constructor
      · rintro ⟨rfl | mem, other⟩
        · exact absurd rfl other
        · exact mem
      · exact fun mem => ⟨.inr mem, fun same => new (same ▸ mem)⟩
    intro k run
    obtain ⟨⟨soundK, alikeK⟩, resolvesK, none⟩ := ih sound' (by rw [links.preds]; exact edge)
      (by rw [links.preds]; exact only) (by rwa [Procedure.entry?, links.layout]) nodup rest k run
    exact ⟨⟨soundK, alike.trans alikeK⟩, resolves.trans resolvesK, none⟩

end Cleanup

namespace Procedure

variable {f g : Procedure} {b s : BlockId} {i : InstId} {code : List InstId}

private theorem mapBlock_comm (other : s ≠ b) (u v : Block → Block) :
    (f.mapBlock b u).mapBlock s v = (f.mapBlock s v).mapBlock b u := by
  refine ext_block (by simp) (by simp) (by simp) (by simp) (by simp) fun c => ?_
  simp only [block_mapBlock]
  by_cases hb : c = b
  · by_cases hs : c = s
    · exact absurd (hs.symm.trans hb) other
    · simp only [if_pos hb, if_neg hs]
  · simp only [if_neg hb]

private theorem updateBlock_setCode (other : s ≠ b) {u : Block → Block} (h : f.updateBlock s u = .ok g) :
    (f.setCode b code).updateBlock s u = .ok (g.setCode b code) := by
  obtain ⟨known, rfl⟩ := updateBlock_ok h
  have known' : (f.setCode b code).block s = .ok (f.blockAt s) := by
    unfold Procedure.setCode
    rw [block_mapBlock, if_neg other]
    exact known
  rw [updateBlock_eq known']
  exact congrArg Except.ok (mapBlock_comm other _ _)

private theorem updateInst_setCode {u : Inst → Inst} (h : f.updateInst i u = .ok g) :
    (f.setCode b code).updateInst i u = .ok (g.setCode b code) := by
  obtain ⟨insts, updated, same⟩ := bind_ok_iff.mp h
  cases same
  refine bind_ok_iff.mpr ⟨insts, ?_, ?_⟩
  · rw [← updated]
    unfold Procedure.setCode
    rw [insts_mapBlock]
  · cases b <;> rfl

private theorem replaceReg_setCode (d r : Reg) :
    (f.setCode b code).replaceReg d r = (f.replaceReg d r).setCode b code := by
  refine ext_block ?_ ?_ ?_ ?_ ?_ fun c => ?_
  · simp [replaceReg, Procedure.setCode]
  · simp [replaceReg, Procedure.setCode]
  · simp [replaceReg, Procedure.setCode]
  · simp [replaceReg, Procedure.setCode]
  · simp [replaceReg, Procedure.setCode]
  · have blocks : ∀ h : Procedure, (h.replaceReg d r).block c = (h.block c).map fun x =>
        { x with liveIn := x.liveIn.map fun q => if q = d then r else q } := fun h =>
      Arena.get_map h.blocks _ c
    unfold Procedure.setCode
    rw [blocks, block_mapBlock, block_mapBlock, blocks]
    split
    · cases f.block c <;> rfl
    · rfl

private theorem code_setCode_other (other : s ≠ b) : (f.setCode b code).code s = f.code s := by
  unfold Procedure.code Procedure.setCode
  rw [block_mapBlock, if_neg other]

theorem phis_setCode (other : s ≠ b) : (f.setCode b code).phis s = f.phis s := by
  have leading : ∀ l, (f.setCode b code).leadingPhis l = f.leadingPhis l := by
    intro l
    induction l with
    | nil => rfl
    | cons i l ih => rw [leadingPhis, leadingPhis, inst_setCode, ih]
  unfold Procedure.phis
  rw [code_setCode_other other]
  congr 1
  funext l
  exact leading l

private theorem placeAt_setCode (other : s ≠ b) {pos : Int} (h : f.placeAt s pos i = .ok g) :
    (f.setCode b code).placeAt s pos i = .ok (g.setCode b code) := by
  obtain ⟨old, asked, h⟩ := bind_ok_iff.mp h
  obtain ⟨before, upTo, h⟩ := bind_ok_iff.mp h
  obtain ⟨after, since, h⟩ := bind_ok_iff.mp h
  refine bind_ok_iff.mpr ⟨old, (code_setCode_other other).trans asked, ?_⟩
  exact bind_ok_iff.mpr ⟨before, upTo, bind_ok_iff.mpr ⟨after, since, updateBlock_setCode other h⟩⟩

private theorem insert_setCode (other : s ≠ b) {pos : Int} {y : Inst} {n : InstId}
    (h : f.insert s pos y = .ok (g, n)) :
    (f.setCode b code).insert s pos y = .ok (g.setCode b code, n) := by
  obtain ⟨k, placed, same⟩ := bind_ok_iff.mp h
  cases same
  have added : (f.setCode b code).addInst y = ((f.addInst y).1.setCode b code, (f.addInst y).2) := by
    cases b <;> rfl
  unfold Procedure.insert
  rw [added]
  exact bind_ok_iff.mpr ⟨_, placeAt_setCode other placed, rfl⟩

end Procedure

namespace Cleanup

open Procedure

variable {f g : Procedure} {b s : BlockId} {i : InstId} {code : List InstId}

private theorem placeResolved_setCode (other : s ≠ b) {y : Inst} (h : placeResolved f s i y = .ok g) :
    placeResolved (f.setCode b code) s i y = .ok (g.setCode b code) := by
  obtain ⟨k, changed, h⟩ := bind_ok_iff.mp h
  obtain ⟨ids, asked, h⟩ := bind_ok_iff.mp h
  obtain ⟨⟨m, new⟩, inserted, h⟩ := bind_ok_iff.mp h
  cases h
  refine bind_ok_iff.mpr ⟨_, updateInst_setCode changed, ?_⟩
  refine bind_ok_iff.mpr ⟨ids, (phis_setCode other).trans asked, ?_⟩
  refine bind_ok_iff.mpr ⟨_, insert_setCode other inserted, ?_⟩
  cases b <;> rfl

private theorem resolvePhi_setCode (other : s ≠ b) (h : resolvePhi f s i = .ok g) :
    resolvePhi (f.setCode b code) s i = .ok (g.setCode b code) := by
  obtain ⟨x, found, h⟩ := bind_ok_iff.mp h
  obtain ⟨k, changed, h⟩ := bind_ok_iff.mp h
  refine bind_ok_iff.mpr ⟨x, (inst_setCode f b code i).trans found, ?_⟩
  refine bind_ok_iff.mpr ⟨_, updateBlock_setCode other changed, ?_⟩
  split at h
  · exact placeResolved_setCode other h
  · split at h
    · cases h
      exact congrArg Except.ok (replaceReg_setCode _ _)
    · cases h
  · exact placeResolved_setCode other h

theorem resolvePhis_setCode {ids : List InstId} (other : s ≠ b)
    (h : ids.foldlM (fun f i => resolvePhi f s i) f = .ok g) :
    ids.foldlM (fun f i => resolvePhi f s i) (f.setCode b code) = .ok (g.setCode b code) := by
  induction ids generalizing f with
  | nil =>
    cases h
    rfl
  | cons i ids ih =>
    obtain ⟨k, first, rest⟩ := bind_ok_iff.mp h
    exact bind_ok_iff.mpr ⟨_, resolvePhi_setCode other first, ih rest⟩

end Cleanup

end Predication
