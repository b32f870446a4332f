import Predication.Proofs.BitSets
import Predication.Proofs.Guidance

/-!
Removal of what control cannot reach. The search from the entry gives a set of blocks that no edge
leaves, so the blocks outside can be unlinked and removed, and the others go where they went.
-/

set_option autoImplicit false
set_option relaxedAutoImplicit false

namespace Predication

open Cleanup

namespace Cleanup

open Procedure

variable {f g : Procedure} {b c s t : BlockId} {n : Nat} {seen : BitSet} {stack l lost : List BlockId}

structure Pushes (n : Nat) (l : List BlockId) (before after : BitSet × List BlockId) : Prop where
  seen : ∀ j, after.1.contains j = true ↔ before.1.contains j = true ∨ j ∈ l
  stack : ∀ j, j ∈ after.2 ↔ j ∈ before.2 ∨ ¬ before.1.contains j = true ∧ j ∈ l
  count : after.2.length + after.1.missing 1 n = before.2.length + before.1.missing 1 n

private theorem pushes_gives (known : ∀ t ∈ l, 0 ≤ t ∧ t < n) :
    Gives (l.foldlM (fun (seen, stack) t => do
      let (seen, new) ← seen.insertNew t
      return (seen, if new then t :: stack else stack)) (seen, stack)) (Pushes n l (seen, stack)) := by
  induction l generalizing seen stack with
  | nil => exact .of_ok ⟨fun j => by simp, fun j => by simp, rfl⟩
  | cons t l ih =>
    obtain ⟨low, high⟩ := known t List.mem_cons_self
    have rest := fun t ht => known t (List.mem_cons_of_mem _ ht)
    rw [List.foldlM_cons]
    by_cases old : seen.contains t = true
    · simp only [BitSet.insertNew_old old, bind, Except.bind]
      refine (ih rest).imp fun r pushes => ⟨fun j => ?_, fun j => ?_, pushes.count⟩
      · rw [pushes.seen, List.mem_cons]
        refine or_congr_right' fun new => ⟨.inr, fun h => h.resolve_left ?_⟩
        rintro rfl
        exact new old
      · rw [pushes.stack, List.mem_cons]
        refine or_congr Iff.rfl (and_congr_right fun new => ⟨.inr, fun h => h.resolve_left ?_⟩)
        rintro rfl
        exact new old
    · obtain ⟨seen', run, mem⟩ := BitSet.insertNew_new low old
      simp only [run, bind, Except.bind]
      refine (ih rest).imp fun r pushes => ⟨fun j => ?_, fun j => ?_, ?_⟩
      · rw [pushes.seen, mem, List.mem_cons, or_assoc]
      · rw [pushes.stack, mem, List.mem_cons]
        simp only [if_true, List.mem_cons]
        by_cases same : j = t
        · simp [same, old]
        · simp [same]
      · have one : _ + 1 = _ := BitSet.missing_insert 1 low high old mem
        have count := pushes.count
        simp only [if_true, List.length_cons] at count
        simp only
        omega

private theorem reach_gives (live : ∀ b, ∀ t ∈ (f.blockAt b).succs, f.block t = .ok (f.blockAt t))
    (fuel : Nat) (known : ∀ b ∈ stack, f.block b = .ok (f.blockAt b))
    (closed : ∀ b, seen.contains b = true →
      b ∈ stack ∨ ∀ t ∈ (f.blockAt b).succs, seen.contains t = true)
    (enough : stack.length + seen.missing 1 f.blocks.size ≤ fuel) :
    Gives (reach f fuel stack seen) fun r => (∀ b, seen.contains b = true → r.contains b = true) ∧
      ∀ b, r.contains b = true → ∀ t ∈ (f.blockAt b).succs, r.contains t = true := by
  induction fuel generalizing stack seen with
  | zero =>
    cases stack with
    | nil =>
      rw [reach]
      exact .of_ok ⟨fun _ => id, fun b mem => (closed b mem).resolve_left List.not_mem_nil⟩
    | cons b stack => simp at enough
  | succ fuel ih =>
    cases stack with
    | nil =>
      rw [reach]
      exact .of_ok ⟨fun _ => id, fun b mem => (closed b mem).resolve_left List.not_mem_nil⟩
    | cons b stack =>
      have succs : f.succs b = .ok (f.blockAt b).succs := by
        unfold Procedure.succs
        rw [known b List.mem_cons_self]
        rfl
      have range : ∀ t ∈ (f.blockAt b).succs, 0 ≤ t ∧ t < f.blocks.size := fun t ht =>
        Arena.get_range.mp ⟨_, live b t ht⟩
      rw [reach]
      refine .of_run succs ((pushes_gives range).bind fun r pushes => ?_)
      refine (ih (fun c hc => ?_) (fun c hc => ?_) ?_).imp fun r' h => ⟨fun c hc => ?_, h.2⟩
      · rcases (pushes.stack c).mp hc with old | ⟨-, new⟩
        · exact known c (List.mem_cons_of_mem _ old)
        · exact live b c new
      · -- a block that is seen is on the stack, or all that it leads to is seen
        by_cases old : seen.contains c = true
        · rcases closed c old with mem | all
          · rcases List.mem_cons.mp mem with rfl | mem
            · exact .inr fun t ht => (pushes.seen t).mpr (.inr ht)
            · exact .inl ((pushes.stack c).mpr (.inl mem))
          · exact .inr fun t ht => (pushes.seen t).mpr (.inl (all t ht))
        · have new := ((pushes.seen c).mp hc).resolve_left old
          exact .inl ((pushes.stack c).mpr (.inr ⟨old, new⟩))
      · have count := pushes.count
        simp only [List.length_cons] at enough count
        omega
      · exact h.1 c ((pushes.seen c).mpr (.inl hc))

/-- Of the blocks of the layout, those that are lost and those that are not: no edge leads from the
latter to the former. -/
structure Lost (f : Procedure) (entry : BlockId) (lost : List BlockId) : Prop where
  nodup : lost.Nodup
  laid : ∀ b ∈ lost, b ∈ f.layout
  entry : entry ∉ lost
  closed : ∀ b ∈ f.layout, b ∉ lost → ∀ t ∈ (f.blockAt b).succs, t ∉ lost

theorem unreachable_gives (guided : f.Guided) {entry : BlockId} (mem : entry ∈ f.layout) :
    Gives (unreachable f entry) (Lost f entry) := by
  have known : ∀ b ∈ f.layout, f.block b = .ok (f.blockAt b) := fun b hb =>
    block_of_live ((guided.laid b).mp hb)
  have low : ∀ b ∈ f.layout, 0 ≤ b := fun b hb => (Arena.get_range.mp ⟨_, known b hb⟩).1
  unfold unreachable
  refine (BitSet.insert_gives (low entry mem)).bind fun start first => ?_
  have only : ∀ b, start.contains b = true ↔ b = entry := fun b => by
    rw [first, BitSet.contains_empty]
    simp
  have fuel : [entry].length + start.missing 1 f.blocks.size ≤ f.blocks.size + 1 := by
    have most := start.missing_le 1 f.blocks.size
    simp at most ⊢
    omega
  refine (reach_gives (fun b t ht => block_of_live (guided.live b t ht)) _
    (fun b hb => known b ((List.mem_singleton.mp hb) ▸ mem))
    (fun b hb => .inl (List.mem_singleton.mpr ((only b).mp hb))) fuel).bind fun seen ⟨more, closed⟩ => ?_
  have collected : Gives (f.layout.foldlM
      (fun lost b => if seen.contains b then .ok lost else lost.insert b) BitSet.empty) fun lost =>
      ∀ b, lost.contains b = true ↔ b ∈ f.layout ∧ ¬ seen.contains b = true := by
    refine foldlM_ok (P := fun done (lost : BitSet) => ∀ b, lost.contains b = true ↔
      b ∈ done ∧ ¬ seen.contains b = true) (fun done b rest lost split members => ?_) ?_
    · split
      · rename_i here
        refine ⟨lost, rfl, fun c => ?_⟩
        rw [members, List.mem_append, List.mem_singleton]
        refine ⟨fun h => ⟨.inl h.1, h.2⟩, fun h => ⟨h.1.resolve_right ?_, h.2⟩⟩
        rintro rfl
        exact h.2 here
      · rename_i out
        obtain ⟨lost', run, members'⟩ := BitSet.insert_gives (s := lost) (low b (by simp [split]))
        refine ⟨lost', run, fun c => ?_⟩
        rw [members', members, List.mem_append, List.mem_singleton]
        constructor
        · rintro (h | rfl)
          · exact ⟨.inl h.1, h.2⟩
          · exact ⟨.inr rfl, out⟩
        · rintro ⟨h | h, new⟩
          · exact .inl ⟨h, new⟩
          · exact .inr h
    · intro b
      simp [BitSet.contains_empty]
  refine collected.bind fun lost members => .of_ok ?_
  have listed : ∀ b, b ∈ lost.toList.map Int.ofNat ↔ b ∈ f.layout ∧ ¬ seen.contains b = true := by
    intro b
    rw [← members, List.mem_map]
    constructor
    · rintro ⟨k, hk, rfl⟩
      exact BitSet.mem_toList.mp hk
    · intro hb
      obtain ⟨k, rfl⟩ := Int.eq_ofNat_of_zero_le (low b ((members b).mp hb).1)
      exact ⟨k, BitSet.mem_toList.mpr hb, rfl⟩
  refine ⟨BitSet.nodup_toList.map fun _ _ => Int.ofNat.inj, fun b hb => ((listed b).mp hb).1,
    fun hb => ?_, fun b hb kept t edge ht => ?_⟩
  · exact ((listed entry).mp hb).2 (more entry ((only entry).mpr rfl))
  · have here : seen.contains b = true := by
      by_contra out
      exact kept ((listed b).mpr ⟨hb, out⟩)
    exact ((listed t).mp ht).2 (closed b here t edge)

theorem unlink_gives (firm : f.Firm) (hb : (f.blockAt b).dead = false)
    (live : ∀ t ∈ (f.blockAt b).succs, (f.blockAt t).dead = false) :
    Gives (unlink f b) fun g => Relinks f g ∧
      ∀ c t, t ∈ (g.blockAt c).succs ↔ t ∈ (f.blockAt c).succs ∧ c ≠ b := by
  unfold unlink Procedure.succs
  rw [block_of_live hb]
  change Gives ((f.blockAt b).succs.reverse.foldlM _ f) _
  have all := foldlM_ok (l := (f.blockAt b).succs.reverse) (x := f) (P := fun done g => Relinks f g ∧
      ∀ c t, t ∈ (g.blockAt c).succs ↔ t ∈ (f.blockAt c).succs ∧ ¬ (c = b ∧ t ∈ done))
    (k := fun f s => do (← f.removePhiInputs s b).removeSucc b s) ?_ ?_
  · obtain ⟨g, run, relinks, succs⟩ := all
    refine ⟨g, run, relinks, fun c t => (succs c t).trans (and_congr_right fun edge => ?_)⟩
    rw [List.mem_reverse]
    exact not_congr ⟨fun h => h.1, fun same => ⟨same, same ▸ edge⟩⟩
  · rintro done s rest g split ⟨relinks, succs⟩
    have edge : s ∈ (f.blockAt b).succs := by
      rw [← List.mem_reverse, split]
      simp
    have liveS := relinks.live (live s edge)
    obtain ⟨g₁, run₁, revised⟩ := removePhiInputs_gives (p := b) relinks.firm liveS
    have step₁ := revised.relinks relinks.firm
    obtain ⟨g₂, run₂⟩ := removeSucc_gives (block_of_live (step₁.live (relinks.live hb)))
      (block_of_live (step₁.live liveS))
    have step₂ := step₁.firm.relinks_removeSucc run₂
    refine ⟨g₂, ?_, relinks.trans (step₁.trans step₂), fun c t => ?_⟩
    · simp only [run₁, bind, Except.bind]
      exact run₂
    · rw [mem_succs_removeSucc run₂ step₁.firm.toMeshed.paired, revised.blockAt, succs]
      simp only [List.mem_append, List.mem_singleton]
      tauto
  · exact ⟨.refl firm, fun c t => by simp⟩

private theorem unlinkAll_gives (firm : f.Firm) (lostLive : ∀ b ∈ lost, (f.blockAt b).dead = false)
    (live : ∀ b, ∀ t ∈ (f.blockAt b).succs, (f.blockAt t).dead = false) :
    Gives (lost.foldlM unlink f) fun g => Relinks f g ∧
      ∀ c t, t ∈ (g.blockAt c).succs ↔ t ∈ (f.blockAt c).succs ∧ c ∉ lost := by
  refine foldlM_ok (P := fun done g => Relinks f g ∧
    ∀ c t, t ∈ (g.blockAt c).succs ↔ t ∈ (f.blockAt c).succs ∧ c ∉ done)
    (fun done b rest g split ⟨relinks, succs⟩ => ?_) ⟨.refl firm, fun c t => by simp⟩
  have hb := relinks.live (lostLive b (by simp [split]))
  have liveG : ∀ t ∈ (g.blockAt b).succs, (g.blockAt t).dead = false := fun t edge =>
    relinks.live (live b t ((succs b t).mp edge).1)
  obtain ⟨k, run, relinks', succs'⟩ := unlink_gives relinks.firm hb liveG
  refine ⟨k, run, relinks.trans relinks', fun c t => ?_⟩
  rw [succs', succs, List.mem_append, List.mem_singleton]
  tauto

/-- Blocks are removed, and the others are left alone. -/
structure Prunes (lost : List BlockId) (f g : Procedure) : Prop where
  firm : g.Firm
  kin : Kin f g
  sub : g.layout.Sublist f.layout
  laid : ∀ c, c ∈ g.layout ↔ c ∈ f.layout ∧ c ∉ lost
  code : ∀ c, c ∉ lost → (g.blockAt c).code = (f.blockAt c).code
  succs : ∀ c, c ∉ lost → ∀ t, t ∈ (g.blockAt c).succs ↔ t ∈ (f.blockAt c).succs

theorem removeAll_returns (firm : f.Firm) (nodup : lost.Nodup) (laid : ∀ b ∈ lost, b ∈ f.layout)
    (alone : ∀ b ∈ lost, ∀ c, b ∉ (f.blockAt c).succs) :
    Traced.Returns (removeAll lost f) (Prunes lost f) := by
  induction lost generalizing f with
  | nil =>
    exact .pure ⟨firm, .refl f, .refl _, fun c => by simp, fun _ _ => rfl, fun _ _ _ => Iff.rfl⟩
  | cons b lost ih =>
    obtain ⟨new, nodup⟩ := List.nodup_cons.mp nodup
    have hb := (firm.laid b).mp (laid b List.mem_cons_self)
    have preds : (f.blockAt b).preds = [] := by
      rw [List.eq_nil_iff_forall_not_mem]
      intro c entered
      rw [← firm.mutual_ends] at entered
      exact alone b List.mem_cons_self c entered
    refine (Traced.Returns.report _).bind fun _ _ => ?_
    refine (Traced.Returns.ofExcept (removeBlock_gives firm hb preds)).bind ?_
    rintro g ⟨firm', kin, without⟩
    have laid' : ∀ c, c ∈ g.layout ↔ c ≠ b ∧ c ∈ f.layout := fun c => by
      rw [without.layout, firm.nodup.mem_erase_iff]
    have stays : ∀ c ∈ lost, c ≠ b := by
      rintro c hc rfl
      exact new hc
    refine (ih firm' nodup (fun c hc => (laid' c).mpr ⟨stays c hc, laid c (List.mem_cons_of_mem _ hc)⟩)
      fun c hc d edge => ?_).imp fun k prunes => ?_
    · by_cases here : d = b
      · rw [here, (firm'.removed b without.gone).1] at edge
        cases edge
      · rw [without.succs d here] at edge
        exact alone c (List.mem_cons_of_mem _ hc) d edge
    · have sub : g.layout.Sublist f.layout := without.layout ▸ List.erase_sublist
      refine ⟨prunes.firm, kin.trans prunes.kin, prunes.sub.trans sub, fun c => ?_, fun c hc => ?_,
        fun c hc t => ?_⟩
      · rw [prunes.laid, laid', List.mem_cons]
        tauto
      · rw [List.mem_cons, not_or] at hc
        rw [prunes.code c hc.2, without.code c hc.1]
      · rw [List.mem_cons, not_or] at hc
        rw [prunes.succs c hc.2, without.succs c hc.1]

theorem Prunes.guided {entry : BlockId} (h : Prunes lost f g) (guided : f.Guided)
    (closed : Lost f entry lost) : g.Guided := by
  have stays : ∀ c ∈ g.layout, ∀ t ∈ (g.blockAt c).succs, t ∈ g.layout := by
    intro c hc t edge
    obtain ⟨old, kept⟩ := (h.laid c).mp hc
    rw [h.succs c kept] at edge
    exact (h.laid t).mpr ⟨(guided.laid t).mpr (guided.live c t edge), closed.closed c old kept t edge⟩
  refine ⟨h.firm, fun c t edge => ?_, fun c hc plain => ?_⟩
  · exact (h.firm.laid t).mp (stays c ((h.firm.laid c).mpr (h.firm.live edge)) t edge)
  · obtain ⟨old, kept⟩ := (h.laid c).mp hc
    have traits : g.traits c = f.traits c := h.kin.traits guided.toFirm (h.code c kept)
    rw [traits] at plain
    obtain ⟨t, edge, goal⟩ := guided.goal c old plain
    have edge' := (h.succs c kept t).mpr edge
    exact ⟨t, edge', goal_of_sub guided.toMeshed h.firm.toMeshed h.sub hc (stays c hc t edge') traits
      goal⟩

theorem head_of_entry {entry : BlockId} (h : f.entry? = some entry) : f.layout.head? = some entry := by
  obtain ⟨b, first, named⟩ := Option.bind_eq_some_iff.mp h
  unfold BlockId.named? at named
  split at named
  · cases named
  · cases named
    exact first

theorem entry?_mem {entry : BlockId} (h : f.entry? = some entry) : entry ∈ f.layout :=
  List.mem_of_head? (head_of_entry h)

theorem removeUnreachable_returns (guided : f.Guided) :
    Traced.Returns (removeUnreachable f) fun r => r.1.Guided ∧ (r = (f, false) ∨
      ∃ lost, lost ≠ [] ∧ (∀ b ∈ lost, b ∈ f.layout) ∧ Prunes lost f r.1 ∧ r.2 = true) := by
  unfold removeUnreachable
  split
  · exact .pure ⟨guided, .inl rfl⟩
  · rename_i entry first
    refine (Traced.Returns.ofExcept (unreachable_gives guided (entry?_mem first))).bind ?_
    intro lost closed
    by_cases none : lost = []
    · subst none
      exact .pure ⟨guided, .inl rfl⟩
    have lostLive : ∀ b ∈ lost, (f.blockAt b).dead = false := fun b hb =>
      (guided.laid b).mp (closed.laid b hb)
    refine (Traced.Returns.ofExcept (unlinkAll_gives guided.toFirm lostLive guided.live)).bind ?_
    rintro m ⟨relinks, succs⟩
    have alone : ∀ b ∈ lost, ∀ c, b ∉ (m.blockAt c).succs := by
      intro b hb c edge
      obtain ⟨edge, kept⟩ := (succs c b).mp edge
      exact closed.closed c ((guided.laid c).mpr (guided.toMeshed.live edge)) kept b edge hb
    have laid : ∀ b ∈ lost, b ∈ m.layout := fun b hb => relinks.layout ▸ closed.laid b hb
    refine (removeAll_returns relinks.firm closed.nodup laid alone).bind fun g prunes => ?_
    have whole : Prunes lost f g := by
      refine ⟨prunes.firm, relinks.kin.trans prunes.kin, relinks.layout ▸ prunes.sub, fun c => ?_,
        fun c hc => ?_, fun c hc t => ?_⟩
      · rw [prunes.laid, relinks.layout]
      · rw [prunes.code c hc, relinks.code]
      · rw [prunes.succs c hc, succs]
        exact and_iff_left hc
    refine .pure ⟨whole.guided guided closed, .inr ⟨lost, none, closed.laid, whole, ?_⟩⟩
    simpa using none

end Cleanup

end Predication
