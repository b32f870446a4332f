import Predication.Proofs.Guidance

/-!
Leading branches on. A branch of `p` that goes to `t` is led on to where `t` jumps, so only the jumps
of `p` change, and only in their targets.
-/

set_option autoImplicit false
set_option relaxedAutoImplicit false

namespace Predication

open Cleanup

private theorem Trait.lead_lead (t x : BlockId) (τ : Trait) : (τ.lead t x).lead t x = τ.lead t x := by
  cases τ with
  | jump u =>
    simp only [Trait.lead]
    by_cases same : u = t <;> simp [same]
  | debug | inert | exit => rfl

namespace Inst

variable {y : Inst} {t x : BlockId}

theorem op_retarget : (y.retarget t x).op = y.op := by
  unfold retarget
  split <;> rfl

private theorem lead_trait (other : y.op ≠ .br) : y.trait.lead t x = y.trait := by
  cases same : y.trait with
  | jump u => exact absurd (op_of_isJump (isJump_of_trait same)) other
  | debug | inert | exit => rfl

end Inst

namespace Procedure

variable {f g k : Procedure} {b c s t p x n : BlockId} {i j : InstId} {y : Inst}
  {S : InstId → Prop}

structure Led (S : InstId → Prop) (t x : BlockId) (f g : Procedure) : Prop where
  blocks : g.blocks = f.blocks
  layout : g.layout = f.layout
  sharing : g.sharing = f.sharing
  inst : ∀ i y, f.inst i = .ok y → ∃ z, g.inst i = .ok z ∧ z.op = y.op ∧
    (y.Able → z.Able ∧ (S i → z.trait = y.trait.lead t x) ∧ (¬ S i → z.trait = y.trait))

private theorem Led.refl : Led (fun _ => False) t x f f :=
  ⟨rfl, rfl, rfl, fun _ y found => ⟨y, found, rfl, fun able => ⟨able, False.elim, fun _ => rfl⟩⟩⟩

private theorem Led.update (S' : InstId → Prop) (h : Led S t x f g) (named : x ≠ -1)
    (found : f.inst i = .ok y) (same : ∀ j, j ≠ i → (S' j ↔ S j))
    (here : S' i ∨ y.op ≠ .br ∧ (S' i ↔ S i)) :
    Gives (g.updateInst i (Inst.retarget t x)) (Led S' t x f) := by
  obtain ⟨z, there, op, able⟩ := h.inst i y found
  obtain ⟨k, run, blocks, layout, sharing, inst⟩ := updateInst_gives there (Inst.retarget t x)
  refine ⟨k, run, blocks.trans h.blocks, layout.trans h.layout, sharing.trans h.sharing,
    fun j u at_j => ?_⟩
  by_cases this : j = i
  · subst this
    cases found.symm.trans at_j
    refine ⟨z.retarget t x, by rw [inst, if_pos rfl, there]; rfl, Inst.op_retarget.trans op,
      fun ableY => ?_⟩
    obtain ⟨ableZ, led, kept⟩ := able ableY
    have leads : (z.retarget t x).trait = y.trait.lead t x := by
      rw [Inst.trait_retarget ableZ]
      by_cases old : S j
      · rw [led old, Trait.lead_lead]
      · rw [kept old]
    refine ⟨ableZ.retarget named, fun _ => leads, fun out => ?_⟩
    obtain ⟨inner, -⟩ := here.resolve_left out
    rw [leads, Inst.lead_trait inner]
  · obtain ⟨v, at_g, op', able'⟩ := h.inst j u at_j
    refine ⟨v, by rw [inst, if_neg this]; exact at_g, op', fun ableU => ?_⟩
    simpa only [same j this] using able' ableU

theorem mem_sharers (h : j ∈ f.sharers i) : ∃ e ∈ f.sharing, e.1 = j := by
  unfold sharers at h
  split at h
  · cases h
  · obtain ⟨e, mem, rfl⟩ := List.mem_map.mp h
    exact ⟨e, List.mem_of_mem_filter mem, rfl⟩

private theorem Led.retarget (h : Led S t x f g) (shared : f.Shared) (named : x ≠ -1)
    (found : f.inst i = .ok y) :
    Gives (g.retarget i t x) (Led (fun j => S j ∨ j = i) t x f) := by
  unfold Procedure.retarget
  rw [List.foldlM_cons]
  refine (h.update (fun j => S j ∨ j = i) named found
    (fun j away => by simp [away]) (.inl (.inr rfl))).bind fun m led => ?_
  refine Gives.foldlM (fun k j mem led => ?_) led
  obtain ⟨e, entry, rfl⟩ := mem_sharers mem
  rw [h.sharing] at entry
  obtain ⟨z, there, inner⟩ := shared e entry
  exact led.update _ named there (fun _ _ => Iff.rfl) (.inr ⟨inner, Iff.rfl⟩)

private theorem Led.congr {S' : InstId → Prop} (h : Led S t x f g) (same : ∀ i, S' i ↔ S i) :
    Led S' t x f g := by
  obtain rfl : S' = S := funext fun i => propext (same i)
  exact h

theorem retargetAll_gives (firm : f.Firm) (named : x ≠ -1) :
    Gives ((f.blockAt p).code.foldlM (fun g i => g.retarget i t x) f)
      (Led (· ∈ (f.blockAt p).code) t x f) := by
  refine foldlM_ok (P := fun done g => Led (· ∈ done) t x f g)
    (fun done i rest g split led => ?_) (Led.refl.congr (by simp))
  obtain ⟨y, found, -⟩ := firm.able p i (by simp [split])
  obtain ⟨k, run, led⟩ := led.retarget firm.shared named found
  exact ⟨k, run, led.congr (by simp)⟩

theorem Led.firm (h : Led S t x f g) (firm : f.Firm) : g.Firm := by
  have view : ∀ c, g.blockAt c = f.blockAt c := blockAt_congr h.blocks
  refine ⟨firm.recode (sameLinks_of_blocks h.blocks h.layout) fun c dead => ?_, fun c i mem => ?_,
    fun i z c d found br hc hd => ?_, fun e mem => ?_⟩
  · rw [view]
    exact (firm.removed c dead).2
  · rw [view] at mem
    obtain ⟨y, found, able⟩ := firm.able c i mem
    obtain ⟨z, there, -, able'⟩ := h.inst i y found
    exact ⟨z, there, (able' able).1⟩
  · rw [view] at hc hd
    obtain ⟨y, there, -⟩ := firm.able c i hc
    obtain ⟨u, found', op, -⟩ := h.inst i y there
    cases found.symm.trans found'
    exact firm.apart i y c d there (op.symm.trans br) hc hd
  · rw [h.sharing] at mem
    obtain ⟨y, found, inner⟩ := firm.shared e mem
    obtain ⟨z, there, op, -⟩ := h.inst e.1 y found
    exact ⟨z, there, op ▸ inner⟩

/-- Only the traits of the block change. -/
private theorem Led.traits (h : Led (· ∈ (f.blockAt p).code) t x f g) (firm : f.Firm) (c : BlockId) :
    g.traits c = if c = p then (f.traits p).map (Trait.lead t x) else f.traits c := by
  have view : ∀ c, g.blockAt c = f.blockAt c := blockAt_congr h.blocks
  unfold Procedure.traits traitsOf
  rw [view]
  split
  · rename_i here
    subst here
    rw [List.map_filterMap]
    refine List.filterMap_congr fun i mem => ?_
    obtain ⟨y, found, able⟩ := firm.able c i mem
    obtain ⟨z, there, -, able'⟩ := h.inst i y found
    rw [inst?_eq_some.mpr found, inst?_eq_some.mpr there]
    simp only [Option.map_some]
    rw [(able' able).2.1 mem]
  · rename_i away
    refine List.filterMap_congr fun i mem => ?_
    obtain ⟨y, found, able⟩ := firm.able c i mem
    obtain ⟨z, there, -, able'⟩ := h.inst i y found
    rw [inst?_eq_some.mpr found, inst?_eq_some.mpr there]
    simp only [Option.map_some]
    by_cases inP : i ∈ (f.blockAt p).code
    · -- a branch stands in one block only
      have inner : y.op ≠ .br := fun br => away (firm.apart i y c p found br mem inP)
      rw [(able' able).2.1 inP, Inst.lead_trait inner]
    · rw [(able' able).2.2 inP]

/-- The branches of `p` lead to `x` where they led to `t`, and the edge goes with them. -/
structure Redirects (p t x : BlockId) (f g : Procedure) : Prop where
  firm : g.Firm
  layout : g.layout = f.layout
  code : ∀ c, (g.blockAt c).code = (f.blockAt c).code
  traits : ∀ c, g.traits c = if c = p then (f.traits p).map (Trait.lead t x) else f.traits c
  succs : ∀ c s, s ∈ (g.blockAt c).succs ↔
    if c = p then s ∈ (f.blockAt p).succs ∧ s ≠ t ∨ s = x else s ∈ (f.blockAt c).succs

theorem redirect_gives (firm : f.Firm) (hp : (f.blockAt p).dead = false)
    (ht : (f.blockAt t).dead = false) (hx : (f.blockAt x).dead = false) :
    Gives (redirect f p t x) (Redirects p t x f) := by
  have named : x ≠ -1 := by
    rintro rfl
    cases hx
  unfold redirect
  refine .of_run (code_eq hp) ((retargetAll_gives firm named).bind fun f₁ led => ?_)
  have view : ∀ c, f₁.blockAt c = f.blockAt c := blockAt_congr led.blocks
  have firm₁ := led.firm firm
  obtain ⟨f₂, run₂⟩ := removeSucc_gives (f := f₁) (b := p) (s := t)
    (block_of_live (by rw [view]; exact hp)) (block_of_live (by rw [view]; exact ht))
  have step₂ := firm₁.relinks_removeSucc run₂
  have hp₂ : (f₂.blockAt p).dead = false := step₂.live (by rw [view]; exact hp)
  have hx₂ : (f₂.blockAt x).dead = false := step₂.live (by rw [view]; exact hx)
  have succs₂ : ∀ c s, s ∈ (f₂.blockAt c).succs ↔ s ∈ (f.blockAt c).succs ∧ ¬ (c = p ∧ s = t) := by
    intro c s
    rw [mem_succs_removeSucc run₂ firm₁.toMeshed.paired, view]
  -- what is left to show once the edge to `x` is there
  have done : ∀ g, Relinks f₂ g →
      (∀ c s, s ∈ (g.blockAt c).succs ↔ s ∈ (f₂.blockAt c).succs ∨ c = p ∧ s = x) →
      Redirects p t x f g := by
    intro g step succs
    refine ⟨step.firm, ?_, fun c => ?_, fun c => ?_, fun c s => ?_⟩
    · rw [step.layout, step₂.layout, led.layout]
    · rw [step.code, step₂.code, view]
    · rw [step.traits step₂.firm, step₂.traits firm₁, led.traits firm]
    · rw [succs, succs₂]
      split
      · rename_i here
        simp [here]
      · rename_i away
        simp [away]
  refine .of_run run₂ (.of_run (isSucc_eq (block_of_live hp₂) x) ?_)
  split
  · rename_i old
    rw [decide_eq_true_eq] at old
    refine .of_ok (done f₂ (.refl step₂.firm) fun c s => ⟨.inl, ?_⟩)
    rintro (mem | ⟨rfl, rfl⟩)
    · exact mem
    · exact old
  · obtain ⟨f₃, run₃⟩ := addSucc_gives (block_of_live hp₂) (block_of_live hx₂)
    have step₃ := step₂.firm.relinks_addSucc run₃ hp₂
    refine .of_run run₃ ((copyPhiInputs_gives step₃.firm (step₃.live hx₂)).imp fun g revised => ?_)
    refine done g (step₃.trans (revised.relinks step₃.firm)) fun c s => ?_
    rw [revised.blockAt, mem_succs_addSucc run₃]

/-- Leading branches on keeps a procedure in order, where control does not run past the end of the
block into `t`. -/
theorem Redirects.guided (h : Redirects p t x f g) (guided : f.Guided)
    (hx : (f.blockAt x).dead = false)
    (falls : f.next? p = some t → Trait.runsOn (f.traits p) = false) : g.Guided := by
  have next : ∀ c, g.next? c = f.next? c := fun c => by rw [next?, next?, h.layout]
  have dead : ∀ c, (g.blockAt c).dead = (f.blockAt c).dead := by
    intro c
    have same : (g.blockAt c).dead = false ↔ (f.blockAt c).dead = false := by
      rw [← h.firm.laid, ← guided.laid, h.layout]
    cases old : (f.blockAt c).dead <;> simp_all
  refine ⟨h.firm, fun c s edge => ?_, fun c hc plain => ?_⟩
  · rw [dead]
    rw [h.succs] at edge
    split at edge
    · rcases edge with ⟨edge, -⟩ | rfl
      · exact guided.live p s edge
      · exact hx
    · exact guided.live c s edge
  · rw [h.layout] at hc
    rw [h.traits] at plain
    unfold goal
    rw [h.traits, next]
    by_cases here : c = p
    · subst here
      simp only [if_true, Trait.plain_map_lead] at plain ⊢
      obtain ⟨s, edge, goal⟩ := guided.goal c hc plain
      rw [Trait.firstJump?_map_lead]
      unfold Procedure.goal at goal
      cases jump : Trait.firstJump? (f.traits c) with
      | none =>
        -- control runs on, and so not to `t`
        rw [jump] at goal
        have away : s ≠ t := by
          rintro rfl
          have stops := falls goal
          rw [Trait.runsOn_of_plain plain jump] at stops
          cases stops
        exact ⟨s, by rw [h.succs, if_pos rfl]; exact .inl ⟨edge, away⟩, goal⟩
      | some u =>
        rw [jump] at goal
        cases goal
        refine ⟨if s = t then x else s, ?_, rfl⟩
        rw [h.succs, if_pos rfl]
        split
        · exact .inr rfl
        · rename_i away
          exact .inl ⟨edge, away⟩
    · rw [if_neg here] at plain ⊢
      obtain ⟨s, edge, goal⟩ := guided.goal c hc plain
      exact ⟨s, by rwa [h.succs, if_neg here], goal⟩

end Procedure

end Predication
