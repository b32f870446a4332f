import Predication.Proofs.Pruning
import Predication.Proofs.Retouching

/-!
What a cleanup leaves out: jumps to the next block, and blocks that control cannot reach. The
procedure does the same without them, in every state that control can come to.
-/

set_option autoImplicit false
set_option relaxedAutoImplicit false

namespace Predication

open Cleanup

namespace Inst

variable {x : Inst} {t : BlockId}

theorem jump_spec (able : x.Able) (h : x.trait = .jump t) :
    x.op = .br ∧ x.guard = [] ∧ x.targets.head? = some t := by
  have jump := isJump_of_trait h
  obtain ⟨u, rest, uses, -, trait, -⟩ := trait_of_isJump jump able
  cases h.symm.trans trait
  have op := op_of_isJump jump
  refine ⟨op, ?_, ?_⟩
  · simp only [isJump, Bool.and_eq_true, Bool.not_eq_true', isGuarded] at jump
    simpa using jump.2
  · simp [targets, op, uses, Operand.block?]

end Inst

theorem Machine.execute_jump {V : Type} {m : Machine V} {x : Inst} {s : Store V} (op : x.op = .br)
    (free : x.guard = []) : m.execute x s = .leave x.targets.head? s := by
  unfold execute
  rw [op, free, holds, List.all_nil, if_pos rfl]
  rfl

namespace Procedure

variable {f g : Procedure} {b c n p t : BlockId} {i : InstId} {y : Inst} {before after : List InstId}

theorem instsAt_setCode (known : f.block b = .ok (f.blockAt b)) (code : List InstId) (c : BlockId) :
    (f.setCode b code).instsAt c = if c = b then code.filterMap f.inst? else f.instsAt c := by
  unfold instsAt
  rw [code_setCode known, inst?_congr (inst_setCode f b code)]
  split <;> rfl

theorem Sited.of_fewer (sited : f.Sited) (inst : ∀ i, g.inst i = f.inst i)
    (sharing : g.sharing = f.sharing)
    (fewer : ∀ c, (g.blockAt c).code.Sublist (f.blockAt c).code) : g.Sited := by
  refine ⟨fun c i mem => ?_, fun c => (sited.single c).sublist (fewer c), fun c d i hc hd => ?_,
    fun c => ?_, sited.quiet.congr sharing fun e _ => inst e.1⟩
  · rw [inst]
    exact sited.found c i ((fewer c).subset mem)
  · exact sited.alone c d i ((fewer c).subset hc) ((fewer d).subset hd)
  · refine (sited.ordered c).sublist ?_
    unfold instsAt
    rw [inst?_congr inst]
    exact (fewer c).filterMap _

theorem Sited.setCode (sited : f.Sited) (known : f.block b = .ok (f.blockAt b)) {code : List InstId}
    (sub : code.Sublist (f.blockAt b).code) : (f.setCode b code).Sited := by
  refine sited.of_fewer (inst_setCode f b code) (by simp [Procedure.setCode]) fun c => ?_
  rw [code_setCode known]
  split
  · rename_i same
    exact same ▸ sub
  · exact .refl _

theorem debug_of_traits {code : List InstId} (h : ∀ τ ∈ f.traitsOf code, τ.isDebug = true) :
    ∀ x ∈ code.filterMap f.inst?, x.op.isDebug = true := by
  intro x mem
  obtain ⟨i, hi, found⟩ := List.mem_filterMap.mp mem
  rw [← Inst.isDebug_trait]
  exact h _ (mem_traitsOf.mpr ⟨i, hi, x, inst?_eq_some.mp found, rfl⟩)

theorem writesOf_debug {l : List Inst} (h : ∀ x ∈ l, x.op.isDebug = true) : writesOf l = [] :=
  List.flatMap_eq_nil_iff.mpr fun x mem => Inst.writes_eq_nil (.inr (h x mem))

theorem passable_debug {l : List Inst} (h : ∀ x ∈ l, x.op.isDebug = true) : Passable l :=
  passable_of_inner fun x mem => by
    have debug := h x mem
    revert debug
    cases x.op <;> simp [Op.isDebug, Op.isTerminator]

private theorem targets_debug {x : Inst} (regular : x.Regular) (h : x.op.isDebug = true) :
    x.targets = [] := by
  refine regular.plain ?_ ?_ ?_ <;> intro op <;> rw [op] at h <;> cases h

theorem not_passable_of_runsOn (h : Trait.runsOn (f.traits b) = false) : ¬ Passable (f.instsAt b) := by
  intro pass
  unfold Trait.runsOn at h
  split at h
  · rename_i τ last
    obtain ⟨i, mem, y, found, rfl⟩ := mem_traitsOf.mp (List.mem_of_mem_filter (List.mem_of_getLast? last))
    rw [Inst.ends_trait, pass y (mem_instsAt.mpr ⟨i, mem, found⟩)] at h
    cases h
  · cases h

section Drop

variable {l rest : List Inst} {j : Inst}

/-- The code of `b` loses a jump at its end. -/
structure DropsJump (b n : BlockId) (l : List Inst) (j : Inst) (rest : List Inst) (f g : Procedure) :
    Prop where
  layout : g.layout = f.layout
  old : f.instsAt b = l ++ j :: rest
  new : g.instsAt b = l ++ rest
  others : ∀ c, c ≠ b → g.instsAt c = f.instsAt c
  op : j.op = .br
  free : j.guard = []
  target : j.targets.head? = some n
  markers : ∀ x ∈ rest, x.op.isDebug = true
  next : f.next? b = some n

theorem DropsJump.next? (h : DropsJump b n l j rest f g) (c : BlockId) : g.next? c = f.next? c := by
  unfold Procedure.next?
  rw [h.layout]

private theorem DropsJump.passable (h : DropsJump b n l j rest f g) : Passable
    (g.instsAt b) ↔ Passable l := by
  rw [h.new, Passable.append]
  exact and_iff_left (passable_debug h.markers)

theorem DropsJump.leaves (h : DropsJump b n l j rest f g) (sound : f.Sound) {pre : List Inst}
    (leaves : g.Leaves c pre t) : ∃ pre', f.Leaves c pre' t ∧ writesOf pre' = writesOf pre := by
  by_cases here : c = b
  · subst here
    have none : ∀ x ∈ rest, x.targets = [] := fun x mem =>
      targets_debug (sound.regular c x (by rw [h.old]; simp [mem])) (h.markers x mem)
    rcases leaves with branch | ⟨⟨pass, next⟩, rfl⟩
    · rw [h.new] at branch
      rcases branches_append.mp branch with inside | ⟨-, pre', -, behind⟩
      · refine ⟨pre, .inl ?_, rfl⟩
        rw [h.old]
        exact branches_append.mpr (.inl inside)
      · exact absurd behind (not_branches_of_targets none)
    · rw [h.next?, h.next] at next
      cases next
      refine ⟨l, .inl ⟨h.passable.mp pass, j, rest, h.old, List.mem_of_head? h.target⟩, ?_⟩
      rw [h.new, writesOf_append, writesOf_debug h.markers, List.append_nil]
  · unfold Leaves at leaves ⊢
    rw [h.others c here, h.next?] at leaves
    exact ⟨pre, leaves, rfl⟩

theorem DropsJump.arrives (h : DropsJump b n l j rest f g) (sound : f.Sound) {source : Option BlockId}
    {rs : List Reg} (way : g.Arrives source c rs) : f.Arrives source c rs := by
  induction way with
  | entry first =>
    refine .entry ?_
    rw [← first]
    unfold entry?
    rw [h.layout]
  | edge _ leaves ih =>
    obtain ⟨pre', leaves, same⟩ := h.leaves sound leaves
    rw [← same]
    exact ih.edge leaves

private theorem DropsJump.writes (h : DropsJump b n l j rest f g) (c : BlockId) :
    writesOf (g.instsAt c) = writesOf (f.instsAt c) := by
  by_cases here : c = b
  · have none : j.writes = [] := Inst.writes_eq_nil (.inl (by rw [h.op]; rfl))
    rw [here, h.old, h.new, writesOf_append, writesOf_append, writesOf_cons, none, List.nil_append]
  · rw [h.others c here]

theorem DropsJump.mem (h : DropsJump b n l j rest f g) {x : Inst} (mem : x ∈ g.instsAt c) :
    x ∈ f.instsAt c := by
  by_cases here : c = b
  · rw [here, h.new, List.mem_append] at mem
    rw [here, h.old, List.mem_append, List.mem_cons]
    exact mem.imp id .inr
  · rwa [h.others c here] at mem

theorem DropsJump.strict (h : DropsJump b n l j rest f g) (sound : f.Sound) : g.Strict := by
  refine sound.strict.carry (fun c r mem => by rwa [h.writes] at mem)
    (fun c => by rw [h.writes]; exact sound.strict.once c)
    (fun way => ⟨_, _, h.arrives sound way, List.Subset.refl _⟩) ?_ ?_
  · intro c pre x post split pass
    by_cases here : c = b
    · subst here
      rw [h.new] at split
      rcases split_append split with ⟨post', rfl⟩ | ⟨inner, rfl, behind⟩
      · exact ⟨pre, x, post' ++ j :: rest, by rw [h.old]; simp, pass, List.Subset.refl _, fun _ => id⟩
      · -- a debug marker reads nothing
        have marker : x.op.isDebug = true := h.markers x (by rw [behind]; simp)
        refine ⟨l, j, rest, h.old, (Passable.append.mp pass).1, ?_, fun r mem => ?_⟩
        · rw [writesOf_append]
          exact List.subset_append_left _ _
        · rw [Inst.reads, if_pos (.inr marker)] at mem
          cases mem
    · rw [h.others c here] at split
      exact ⟨pre, x, post, split, pass, List.Subset.refl _, fun _ => id⟩
  · intro p c rs x r label way mem phi value written
    exact sound.strict.inputs (h.arrives sound way) (h.mem mem) phi value written

theorem DropsJump.alike (h : DropsJump b n l j rest f g) : Alike f g := by
  have entry : g.entry? = f.entry? := by
    unfold entry?
    rw [h.layout]
  refine alike_of_steps entry fun V m c _ => ?_
  unfold step
  split
  · rename_i source d spot
    by_cases here : d = b
    · subst here
      have phi : j.op ≠ .phi := by rw [h.op]; exact fun same => by cases same
      have enters : ∀ file, m.enter (g.instsAt d) source file = m.enter (f.instsAt d) source file := by
        intro file
        refine Machine.enter_congr ?_
        rw [h.old, h.new, List.filter_append, List.filter_append,
          List.filter_cons_of_neg (by simp [phi])]
      rw [enters]
      generalize ({ c.store with file := m.enter (f.instsAt d) source c.store.file } : Store V) = s
      rw [h.old, h.new, Machine.run_append, Machine.run_append]
      cases m.run l s with
      | on s' =>
        rw [Exit.andThen_on, Exit.andThen_on, Machine.run_debug h.markers, Machine.run,
          Machine.execute_jump h.op h.free, h.target]
        unfold depart
        rw [h.next?, h.next]
        rfl
      | leave | ret => rfl
    · rw [h.others d here]
      cases m.run (f.instsAt d) { c.store with file := m.enter (f.instsAt d) source c.store.file } with
      | on s =>
        unfold depart
        rw [h.next?]
      | leave | ret => rfl
  · rfl

end Drop

private theorem dropJump_sound (sound : f.Sound) (hb : b ∈ f.layout)
    (split : (f.blockAt b).code = before ++ i :: after) (found : f.inst i = .ok y)
    (trait : y.trait = .jump n) (markers : ∀ τ ∈ f.traitsOf after, τ.isDebug = true)
    (next : f.next? b = some n) :
    (f.setCode b (before ++ after)).Sound ∧ Alike f (f.setCode b (before ++ after)) := by
  have known := block_of_live ((sound.laid b).mp hb)
  have links := sameLinks_setCode known (before ++ after)
  obtain ⟨z, there, able⟩ := sound.able b i (by simp [split])
  cases found.symm.trans there
  obtain ⟨op, free, target⟩ := Inst.jump_spec able trait
  have drops : DropsJump b n (before.filterMap f.inst?) y (after.filterMap f.inst?) f
      (f.setCode b (before ++ after)) := by
    refine ⟨links.layout, ?_, ?_, fun c other => ?_, op, free, target, debug_of_traits markers, next⟩
    · rw [instsAt, split, List.filterMap_append, List.filterMap_cons_some (inst?_eq_some.mpr found)]
    · rw [instsAt_setCode known, if_pos rfl, List.filterMap_append]
    · rw [instsAt_setCode known, if_neg other]
  have sub : (before ++ after).Sublist (f.blockAt b).code := by
    rw [split]
    exact (List.Sublist.refl before).append (List.sublist_cons_self i after)
  refine ⟨⟨dropJump_guided sound.toGuided hb split found trait markers next,
    sound.sited.setCode known sub, fun c x mem => sound.regular c x (drops.mem mem), fun c t leads => ?_,
    fun c x mem phi p => ?_, fun c hc pass => ?_, drops.strict sound⟩, drops.alike⟩
  · obtain ⟨pre, leaves⟩ := leads
    obtain ⟨pre', leaves, -⟩ := drops.leaves sound leaves
    rw [links.succs]
    exact sound.edges c t ⟨pre', leaves⟩
  · rw [links.preds]
    exact sound.sources c x (drops.mem mem) phi p
  · rw [drops.next?]
    rw [drops.layout] at hc
    by_cases here : c = b
    · exact ⟨n, here ▸ next⟩
    · rw [drops.others c here] at pass
      exact sound.closed c hc pass

end Procedure

private theorem PhiInput.toUses_ofUses {uses : List Operand} (even : uses.length % 2 = 0) :
    toUses (ofUses uses) = uses := by
  fun_induction ofUses uses with
  | case1 v b rest ih =>
    simp only [List.length_cons] at even
    change v :: b :: toUses (ofUses rest) = _
    rw [ih (by omega)]
  | case2 => simp at even
  | case3 => rfl

namespace Inst

variable {x : Inst} {p : BlockId} {lost : List BlockId}

/-- A phi without what came from the blocks that are lost. -/
def without (lost : List BlockId) (x : Inst) : Inst :=
  if x.op = .phi then
    { x with uses := PhiInput.toUses (x.phiInputs.filter fun y => decide (y.source ∉ lost)) }
  else x

private theorem follows_without (lost : List BlockId) (x : Inst) :
    x.Follows (fun b => b) (x.without lost) := by
  unfold without
  split
  · rename_i phi
    exact .of_phi phi _
  · exact .refl x

private theorem phiInputs_without (phi : x.op = .phi) :
    (x.without lost).phiInputs = x.phiInputs.filter fun y => decide (y.source ∉ lost) := by
  unfold without
  rw [if_pos phi]
  exact PhiInput.ofUses_toUses _

private theorem sources_without (phi : x.op = .phi) :
    p ∈ (x.without lost).sources ↔ p ∈ x.sources ∧ p ∉ lost := by
  unfold sources
  rw [phiInputs_without phi]
  simp only [List.mem_map, List.mem_filter, decide_eq_true_eq]
  constructor
  · rintro ⟨y, ⟨mem, kept⟩, rfl⟩
    exact ⟨⟨y, mem, rfl⟩, kept⟩
  · rintro ⟨⟨y, mem, rfl⟩, kept⟩
    exact ⟨y, ⟨mem, kept⟩, rfl⟩

private theorem phiValue?_without (phi : x.op = .phi) (kept : p ∉ lost) :
    (x.without lost).phiValue? p = x.phiValue? p := by
  unfold phiValue?
  rw [phiInputs_without phi, List.find?_filter]
  congr 2
  funext y
  by_cases same : y.source = p
  · simp [same, kept]
  · simp [same]

private theorem Regular.without (h : x.Regular) (lost : List BlockId) : (x.without lost).Regular := by
  by_cases phi : x.op = .phi
  · have op : (x.without lost).op = .phi := (follows_without lost x).op.trans phi
    have other : ∀ {o : Op}, (x.without lost).op = o → o ≠ .phi → False := fun same away =>
      away (same.symm.trans op)
    refine ⟨fun _ => ?_, fun _ => ?_, fun _ => ?_, fun _ y mem => ?_, fun br => ?_, fun _ _ _ => ?_⟩
    · rw [(follows_without lost x).guard]
      exact h.free phi
    · rw [(follows_without lost x).defs]
      exact h.defs phi
    · unfold Inst.without
      rw [if_pos phi]
      show (PhiInput.toUses _).length % 2 = 0
      rw [PhiInput.length_toUses]
      omega
    · rw [phiInputs_without phi] at mem
      exact h.values phi y (List.mem_of_mem_filter mem)
    · exact (other br fun same => by cases same).elim
    · unfold targets
      rw [op]
  · have same : x.without lost = x := if_neg phi
    rw [same]
    exact h

private theorem without_nil (even : x.op = .phi → x.uses.length % 2 = 0) : x.without [] = x := by
  unfold without
  split
  · rename_i phi
    have all : (x.phiInputs.filter fun y => decide (y.source ∉ ([] : List BlockId))) = x.phiInputs := by
      simp
    rw [all, phiInputs, PhiInput.toUses_ofUses (even phi)]
  · rfl

private theorem dropPhiInputs_without (phi : x.op = .phi) (b : BlockId) :
    (x.without lost).dropPhiInputs b = x.without (lost ++ [b]) := by
  unfold dropPhiInputs
  rw [phiInputs_without phi, List.filter_filter]
  unfold without
  rw [if_pos phi, if_pos phi]
  congr 2
  refine List.filter_congr fun y _ => ?_
  simp [and_comm]

private theorem without_of_not_mem (phi : x.op = .phi) {b : BlockId} (away : b ∉ x.sources) :
    x.without lost = x.without (lost ++ [b]) := by
  unfold without
  rw [if_pos phi, if_pos phi]
  congr 2
  refine List.filter_congr fun y mem => ?_
  have other : y.source ≠ b := fun same => away (List.mem_map.mpr ⟨y, mem, same⟩)
  simp [other]

end Inst

namespace Procedure

variable {f g : Procedure} {b c t : BlockId} {lost : List BlockId}

private theorem retouches_unlink (sited : f.Sited) (distinct : (f.blockAt b).succs.Nodup)
    (h : unlink f b = .ok g) :
    Retouches (fun c x => if c ∈ (f.blockAt b).succs ∧ x.op = .phi then x.dropPhiInputs b else x)
      f g := by
  obtain ⟨succs, asked, h⟩ := bind_ok_iff.mp h
  obtain ⟨blk, found, same⟩ := bind_ok_iff.mp asked
  cases same
  rw [← blockAt_eq found] at h
  have all := retouches_blocks (u := fun x => x.dropPhiInputs b) (fun _ => rfl) (fun sited run => by
    obtain ⟨k, dropped, removed⟩ := bind_ok_iff.mp run
    exact (retouches_removePhiInputs sited dropped).trans (retouches_removeSucc removed))
    (List.nodup_reverse.mpr distinct) sited h
  simpa only [List.mem_reverse] using all

private theorem unlinkAll_retouches (sound : f.Sound) (lostLive : ∀ b ∈ lost, (f.blockAt b).dead = false)
    (nodup : lost.Nodup) : Gives (lost.foldlM unlink f) fun g => Relinks f g ∧
      (∀ c t, t ∈ (g.blockAt c).succs ↔ t ∈ (f.blockAt c).succs ∧ c ∉ lost) ∧
      Retouches (fun _ x => x.without lost) f g := by
  refine foldlM_ok (P := fun done g => Relinks f g ∧
    (∀ c t, t ∈ (g.blockAt c).succs ↔ t ∈ (f.blockAt c).succs ∧ c ∉ done) ∧
    Retouches (fun _ x => x.without done) f g) (fun done b rest g split h => ?_) ?_
  · obtain ⟨relinks, succs, retouches⟩ := h
    have new : b ∉ done := by
      rw [split] at nodup
      exact fun old => List.disjoint_of_nodup_append nodup old List.mem_cons_self
    have sited : g.Sited := retouches.sited sound.sited fun c x _ => (Inst.follows_without done x).op
    obtain ⟨k, run, relinks', succs'⟩ := unlink_gives relinks.firm
      (relinks.live (lostLive b (by simp [split]))) fun t edge =>
        relinks.live (sound.live b t ((succs b t).mp edge).1)
    refine ⟨k, run, relinks.trans relinks', fun c t => ?_, ?_⟩
    · rw [succs', succs, List.mem_append, List.mem_singleton]
      tauto
    · have more := retouches_unlink sited (relinks.firm.succs b) run
      refine (retouches.trans more).congr fun c x mem => ?_
      by_cases phi : x.op = .phi
      · have op : (x.without done).op = .phi := (Inst.follows_without done x).op.trans phi
        by_cases edge : c ∈ (g.blockAt b).succs
        · rw [if_pos ⟨edge, op⟩, Inst.dropPhiInputs_without phi]
        · rw [if_neg fun both => edge both.1]
          refine Inst.without_of_not_mem phi fun source => edge ?_
          rw [succs, sound.mutual_ends, ← sound.sources c x mem phi]
          exact ⟨source, new⟩
      · have op : (x.without done).op ≠ .phi := by rwa [(Inst.follows_without done x).op]
        rw [if_neg fun both => op both.2]
        unfold Inst.without
        rw [if_neg phi, if_neg phi]
  · refine ⟨.refl sound.toFirm, fun c t => by simp, (Retouches.of_same (.refl f) rfl).congr ?_⟩
    exact fun c x mem => (Inst.without_nil (sound.regular c x mem).even).symm

structure Thins (lost : List BlockId) (f g : Procedure) : Prop where
  inst : ∀ i, g.inst i = f.inst i
  sharing : g.sharing = f.sharing
  kept : ∀ c, c ∉ lost → (g.blockAt c).code = (f.blockAt c).code
  gone : ∀ c ∈ lost, (g.blockAt c).code = []

private theorem removeAll_thins (meshed : f.Meshed) :
    Traced.Holds (fun g => g.Meshed ∧ Thins lost f g) (removeAll lost f) := by
  induction lost generalizing f with
  | nil =>
    exact .pure ⟨meshed, fun _ => rfl, rfl, fun _ _ => rfl, fun _ mem => absurd mem List.not_mem_nil⟩
  | cons b lost ih =>
    refine .after fun _ => ?_
    have removed : Holds (fun g => g.Meshed ∧ Without b f g ∧ g.sharing = f.sharing)
        (f.removeBlock b) := fun g run =>
      ⟨(removeBlock_view meshed run).1, (removeBlock_view meshed run).2, sharing_removeBlock run⟩
    refine (Traced.Holds.ofExcept removed).bind fun g ⟨meshed', without, sharing⟩ => ?_
    intro log k log' run
    obtain ⟨done, thins⟩ := ih meshed' log k log' run
    refine ⟨done, fun i => (thins.inst i).trans (without.inst i), thins.sharing.trans sharing,
      fun c out => ?_, fun c mem => ?_⟩
    · rw [List.mem_cons, not_or] at out
      rw [thins.kept c out.2, without.code c out.1]
    · by_cases later : c ∈ lost
      · exact thins.gone c later
      · have here : c = b := (List.mem_cons.mp mem).resolve_right later
        rw [thins.kept c later, here]
        exact (meshed'.removed b without.gone).2

theorem Sound.arrives_laid (sound : f.Sound) {source : Option BlockId} {rs : List Reg}
    (h : f.Arrives source b rs) : b ∈ f.layout := by
  cases h with
  | entry first => exact entry?_mem first
  | edge _ leaves => exact (sound.laid b).mpr (sound.leads_live ⟨_, leaves⟩).2

section Sheds

variable {entry : BlockId}

/-- The blocks that control cannot reach are gone, and what the phis took from them. -/
structure Sheds (entry : BlockId) (lost : List BlockId) (f g : Procedure) : Prop where
  closed : Lost f entry lost
  first : f.entry? = some entry
  prunes : Prunes lost f g
  sited : g.Sited
  insts : ∀ c, c ∉ lost → g.instsAt c = (f.instsAt c).map (Inst.without lost)
  gone : ∀ c ∈ lost, g.instsAt c = []

private theorem Sheds.follows (l : List Inst) : ∀ x ∈ l, x.Follows (fun b => b) (x.without lost) :=
  fun x _ => Inst.follows_without lost x

private theorem Sheds.stays (h : Sheds entry lost f g) (sound : f.Sound) (hb : b ∉ lost)
    (leads : f.GoesTo b t) :
    t ∉ lost :=
  h.closed.closed b ((sound.laid b).mpr (sound.leads_live leads).1) hb t (sound.edges b t leads)

private theorem Sheds.kept (h : Sheds entry lost f g) (sound : f.Sound) {source : Option BlockId}
    {rs : List Reg} (way : f.Arrives source c rs) : c ∉ lost := by
  induction way with
  | entry first =>
    rw [h.first] at first
    cases first
    exact h.closed.entry
  | edge _ leaves ih => exact h.stays sound ih ⟨_, leaves⟩

theorem Sheds.next? (h : Sheds entry lost f g) (sound : f.Sound) (laid : c ∈ f.layout) (hc : c ∉ lost)
    (pass : Passable (f.instsAt c)) : g.next? c = f.next? c := by
  obtain ⟨t, next⟩ := sound.closed c laid pass
  have ht := h.stays sound hc ⟨_, .inr ⟨⟨pass, next⟩, rfl⟩⟩
  rw [next]
  exact sound.toMeshed.next?_of_sub h.prunes.firm.toMeshed h.prunes.sub
    ((h.prunes.laid c).mpr ⟨laid, hc⟩) ((h.prunes.laid t).mpr ⟨(next?_mem next).2, ht⟩) next

private theorem Sheds.entry? (h : Sheds entry lost f g) (sound : f.Sound) : g.entry? = f.entry? := by
  have kept : entry ∈ g.layout :=
    (h.prunes.laid entry).mpr ⟨entry?_mem h.first, h.closed.entry⟩
  have first := head_of_entry h.first
  have same : g.layout.head? = f.layout.head? := by
    obtain ⟨rest, split⟩ := List.head?_eq_some_iff.mp first
    have sub := h.prunes.sub
    have nodup := sound.nodup
    rw [split] at sub nodup
    cases short : g.layout with
    | nil =>
      rw [short] at kept
      cases kept
    | cons a l =>
      rw [short] at sub kept
      cases sub with
      | cons _ sub => exact absurd (sub.subset kept) (List.nodup_cons.mp nodup).1
      | cons_cons _ sub => rw [first]; rfl
  unfold Procedure.entry?
  rw [same]

theorem Sheds.leaves (h : Sheds entry lost f g) (sound : f.Sound) {pre : List Inst}
    (leaves : g.Leaves c pre t) : ∃ pre', f.Leaves c pre' t ∧ writesOf pre' = writesOf pre := by
  by_cases hc : c ∈ lost
  · rcases leaves with branch | ⟨⟨-, next⟩, -⟩
    · rw [h.gone c hc] at branch
      exact absurd branch not_branches_nil
    · exact absurd hc ((h.prunes.laid c).mp (next?_mem next).1).2
  · rcases leaves with branch | ⟨⟨pass, next⟩, rfl⟩
    · rw [h.insts c hc] at branch
      obtain ⟨pre', u, branch, rfl, same⟩ := branches_follows (Sheds.follows _) branch
      exact ⟨pre', .inl branch, same.symm⟩
    · rw [h.insts c hc] at pass ⊢
      have pass := (passable_follows (Sheds.follows _)).mp pass
      have laid := ((h.prunes.laid c).mp (next?_mem next).1).1
      refine ⟨f.instsAt c, .inr ⟨⟨pass, ?_⟩, rfl⟩, (writesOf_follows (Sheds.follows _)).symm⟩
      rw [← h.next? sound laid hc pass]
      exact next

theorem Sheds.arrives (h : Sheds entry lost f g) (sound : f.Sound) {source : Option BlockId}
    {rs : List Reg} (way : g.Arrives source c rs) : f.Arrives source c rs := by
  induction way with
  | entry first => exact .entry (by rw [← h.entry? sound]; exact first)
  | edge _ leaves ih =>
    obtain ⟨pre', leaves, same⟩ := h.leaves sound leaves
    rw [← same]
    exact ih.edge leaves

private theorem Sheds.value (h : Sheds entry lost f g) (sound : f.Sound) {source : Option BlockId}
    {rs : List Reg} (way : f.Arrives source c rs) {x : Inst} (phi : x.op = .phi) :
    source.bind (x.without lost).phiValue? = source.bind x.phiValue? := by
  cases source with
  | none => rfl
  | some p =>
    obtain ⟨-, source', rs', before⟩ := way.leads
    exact Inst.phiValue?_without phi (h.kept sound before)

theorem Sheds.mem (h : Sheds entry lost f g) {x : Inst} (mem : x ∈ g.instsAt c) :
    c ∉ lost ∧ ∃ y ∈ f.instsAt c, x = y.without lost := by
  by_cases hc : c ∈ lost
  · rw [h.gone c hc] at mem
    cases mem
  · rw [h.insts c hc] at mem
    obtain ⟨y, there, rfl⟩ := List.mem_map.mp mem
    exact ⟨hc, y, there, rfl⟩

theorem Sheds.strict (h : Sheds entry lost f g) (sound : f.Sound) : g.Strict := by
  have writes : ∀ c, c ∉ lost → writesOf (g.instsAt c) = writesOf (f.instsAt c) := fun c hc => by
    rw [h.insts c hc, writesOf_follows (Sheds.follows _)]
  refine sound.strict.carry (fun c r mem => ?_) (fun c => ?_)
    (fun way => ⟨_, _, h.arrives sound way, List.Subset.refl _⟩) ?_ ?_
  · by_cases hc : c ∈ lost
    · rw [h.gone c hc] at mem
      cases mem
    · rwa [writes c hc] at mem
  · by_cases hc : c ∈ lost
    · rw [h.gone c hc]
      exact List.nodup_nil
    · rw [writes c hc]
      exact sound.strict.once c
  · intro c pre x post split pass
    obtain ⟨hc, -⟩ := h.mem (x := x) (c := c) (by rw [split]; simp)
    rw [h.insts c hc] at split
    obtain ⟨pre', y, post', old, -, -, follows, pass', same⟩ := split_follows (Sheds.follows _) split
    exact ⟨pre', y, post', old, pass' pass, fun _ => (same ▸ ·), fun r mem => by rwa [follows.reads] at mem⟩
  · intro p c rs x r label way mem phi value written
    obtain ⟨hc, y, there, rfl⟩ := h.mem mem
    have phi' : y.op = .phi := (Inst.follows_without lost y).op.symm.trans phi
    have way := h.arrives sound way
    have same := h.value sound way phi'
    simp only [Option.bind_some] at same
    rw [same] at value
    exact sound.strict.inputs way there phi' value written

private theorem Sheds.sound (h : Sheds entry lost f g) (sound : f.Sound) : g.Sound := by
  have guided := h.prunes.guided sound.toGuided h.closed
  refine ⟨guided, h.sited, fun c x mem => ?_, fun c t leads => ?_, fun c x mem phi p => ?_,
    fun c hc pass => ?_, h.strict sound⟩
  · obtain ⟨-, y, there, rfl⟩ := h.mem mem
    exact (sound.regular c y there).without lost
  · obtain ⟨pre, leaves⟩ := leads
    obtain ⟨pre', old, -⟩ := h.leaves sound leaves
    have hc : c ∉ lost := fun lost => by
      rcases leaves with branch | ⟨⟨-, next⟩, -⟩
      · rw [h.gone c lost] at branch
        exact not_branches_nil branch
      · exact ((h.prunes.laid c).mp (next?_mem next).1).2 lost
    rw [h.prunes.succs c hc]
    exact sound.edges c t ⟨pre', old⟩
  · obtain ⟨hc, y, there, rfl⟩ := h.mem mem
    have phi' : y.op = .phi := (Inst.follows_without lost y).op.symm.trans phi
    rw [Inst.sources_without phi', sound.sources c y there phi' p, ← sound.mutual_ends,
      ← h.prunes.firm.mutual_ends]
    constructor
    · rintro ⟨edge, kept⟩
      rwa [h.prunes.succs p kept]
    · intro edge
      have kept : p ∉ lost :=
        ((h.prunes.laid p).mp ((h.prunes.firm.laid p).mpr (h.prunes.firm.live edge))).2
      exact ⟨(h.prunes.succs p kept c).mp edge, kept⟩
  · obtain ⟨laid, kept⟩ := (h.prunes.laid c).mp hc
    rw [h.insts c kept, passable_follows (Sheds.follows _)] at pass
    rw [h.next? sound laid kept pass]
    exact sound.closed c laid pass

theorem Sheds.alike (h : Sheds entry lost f g) (sound : f.Sound) : Alike f g := by
  refine alike_of_steps (h.entry? sound) fun V m c located => ?_
  unfold step
  split
  · rename_i source d spot
    obtain ⟨rs, way⟩ := located source d spot
    have hd := h.kept sound way
    have laid := sound.arrives_laid way
    rw [h.insts d hd, Machine.enter_follows (Sheds.follows _) fun x _ phi => h.value sound way phi,
      Machine.run_follows (Sheds.follows _), Exit.lead_id]
    cases run : m.run (f.instsAt d) { c.store with
        file := m.enter (f.instsAt d) source c.store.file } with
    | on s =>
      unfold depart
      rw [h.next? sound laid hd (Machine.passable_of_run run)]
    | leave | ret => rfl
  · rfl

end Sheds

end Procedure

namespace Cleanup

open Procedure

variable {f : Procedure}

theorem removeUnreachable_sound (sound : f.Sound) :
    Traced.Holds (fun r => r.1.Sound ∧ Alike f r.1) (removeUnreachable f) := by
  unfold removeUnreachable
  split
  · exact .pure ⟨sound, .refl f⟩
  · rename_i entry first
    refine (Traced.Holds.ofExcept (unreachable_gives sound.toGuided (entry?_mem first)).holds).bind ?_
    intro lost closed
    have lostLive : ∀ b ∈ lost, (f.blockAt b).dead = false := fun b hb =>
      (sound.laid b).mp (closed.laid b hb)
    refine (Traced.Holds.ofExcept (unlinkAll_retouches sound lostLive closed.nodup).holds).bind ?_
    rintro k ⟨relinks, succs, retouches⟩
    have alone : ∀ b ∈ lost, ∀ c, b ∉ (k.blockAt c).succs := by
      intro b hb c edge
      obtain ⟨edge, kept⟩ := (succs c b).mp edge
      exact closed.closed c ((sound.laid c).mpr (sound.toMeshed.live edge)) kept b edge hb
    have laid : ∀ b ∈ lost, b ∈ k.layout := fun b hb => relinks.layout ▸ closed.laid b hb
    have both := (removeAll_returns relinks.firm closed.nodup laid alone).holds
    have thin : Traced.Holds (fun g => g.Meshed ∧ Thins lost k g) (removeAll lost k) :=
      removeAll_thins relinks.firm.toMeshed
    refine Traced.Holds.bind (P := fun g => Prunes lost k g ∧ Thins lost k g)
      (fun log g log' run => ⟨both log g log' run, (thin log g log' run).2⟩) ?_
    rintro g ⟨prunes, thins⟩
    have sheds : Sheds entry lost f g := by
      refine ⟨closed, first, ⟨prunes.firm, relinks.kin.trans prunes.kin,
        relinks.layout ▸ prunes.sub, fun c => ?_, fun c hc => ?_, fun c hc t => ?_⟩, ?_,
        fun c hc => ?_, fun c hc => ?_⟩
      · rw [prunes.laid, relinks.layout]
      · rw [prunes.code c hc, relinks.code]
      · rw [prunes.succs c hc, succs]
        exact and_iff_left hc
      · refine (retouches.sited sound.sited fun c x _ => (Inst.follows_without lost x).op).of_fewer
          thins.inst thins.sharing fun c => ?_
        by_cases hc : c ∈ lost
        · rw [thins.gone c hc]
          exact List.nil_sublist _
        · rw [thins.kept c hc]
      · rw [← retouches.instsAt, instsAt, instsAt, thins.kept c hc, inst?_congr thins.inst]
      · rw [instsAt, thins.gone c hc]
        rfl
    exact .pure ⟨sheds.sound sound, sheds.alike sound⟩

theorem dropJumpsOf_sound {l : List BlockId} (changed : Bool) (sound : f.Sound)
    (laid : ∀ b ∈ l, b ∈ f.layout) :
    Holds (fun r => r.1.Sound ∧ Alike f r.1) (dropJumpsOf l (f, changed)) := by
  induction l generalizing f changed with
  | nil => exact .of_ok ⟨sound, .refl f⟩
  | cons b l ih =>
    have hb := laid b List.mem_cons_self
    have rest := fun c hc => laid c (List.mem_cons_of_mem b hc)
    have live := (sound.laid b).mp hb
    have known := block_of_live live
    rw [dropJumpsOf]
    refine (idleJump?_gives live (sound.able b)).holds.bind fun found idle => ?_
    cases found with
    | none => exact ih changed sound rest
    | some position =>
      obtain ⟨before, i, y, after, n, split, rfl, found, trait, markers, next⟩ := idle position rfl
      obtain ⟨sound', alike⟩ := dropJump_sound sound hb split found trait markers next
      have layout := (sameLinks_setCode known (before ++ after)).layout
      simp only [eraseCode_eq known split, bind, Except.bind]
      intro r run
      obtain ⟨soundR, alikeR⟩ := ih true sound' (fun c hc => layout ▸ rest c hc) r run
      exact ⟨soundR, alike.trans alikeR⟩

end Cleanup

end Predication
