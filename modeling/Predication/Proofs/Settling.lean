import Mathlib.Algebra.Order.BigOperators.Group.Finset
import Mathlib.Data.Finset.Card
import Mathlib.Logic.Relation
import Mathlib.Tactic.Ring
import Predication.Proofs.Pruning
import Predication.Proofs.Spelling
import Predication.Proofs.Tunnels

/-!
A cleanup settles. Removing blocks, merging and dropping jumps make a procedure smaller. Leading
branches on does not, but it shortens the ways through blocks that only jump: the blocks that such a
way can still pass become fewer for the branches that are led on, and for no branch more.
-/

set_option autoImplicit false
set_option relaxedAutoImplicit false

namespace Predication

open Cleanup Relation

namespace Procedure

variable {f g k : Procedure} {b c s t p x n : BlockId}

structure Hop (f : Procedure) (b c : BlockId) : Prop where
  inner : f.isEntry b = false
  jump : Trait.soleJump? (f.traits b) = some c
  other : c ≠ b

open Classical in
noncomputable def passed (f : Procedure) (b : BlockId) : Finset BlockId :=
  f.layout.toFinset.filter fun c => ReflTransGen f.Hop b c

/-- The size of the code: its blocks count twice, so that a block outweighs a jump. -/
def bulk (f : Procedure) : Nat := ∑ b ∈ f.layout.toFinset, ((f.blockAt b).code.length + 2)

noncomputable def detours (f : Procedure) : Nat :=
  ∑ p ∈ f.layout.toFinset, ∑ s ∈ (f.blockAt p).succs.toFinset, (f.passed s).card

def Lower (f g : Procedure) : Prop := g.bulk < f.bulk ∨ g.bulk = f.bulk ∧ g.detours < f.detours

theorem Lower.trans (h : Lower f g) (h' : Lower g k) : Lower f k := by
  unfold Lower at h h' ⊢
  omega

private theorem mem_passed : c ∈ f.passed b ↔ c ∈ f.layout ∧ ReflTransGen f.Hop b c := by
  simp [passed]

/-- Branches of the blocks in `moved` that went to `t` are led on to `x`. -/
structure Bends (t x : BlockId) (moved : List BlockId) (f g : Procedure) : Prop where
  guided : g.Guided
  layout : g.layout = f.layout
  code : ∀ c, (g.blockAt c).code = (f.blockAt c).code
  traits : ∀ c, g.traits c = if c ∈ moved then (f.traits c).map (Trait.lead t x) else f.traits c
  succs : ∀ c s, s ∈ (g.blockAt c).succs ↔
    if c ∈ moved then s ∈ (f.blockAt c).succs ∧ s ≠ t ∨ s = x else s ∈ (f.blockAt c).succs

theorem Bends.refl (guided : f.Guided) : Bends t x [] f f :=
  ⟨guided, rfl, fun _ => rfl, fun _ => by simp, fun _ _ => by simp⟩

private theorem Bends.next? {moved : List BlockId} (h : Bends t x moved f g) (c : BlockId) :
    g.next? c = f.next? c := by
  unfold Procedure.next?
  rw [h.layout]

private theorem Bends.isEntry {moved : List BlockId} (h : Bends t x moved f g) : g.isEntry = f.isEntry := by
  unfold Procedure.isEntry
  rw [h.layout]

private theorem Bends.redirect {moved : List BlockId} (h : Bends t x moved f g) (new : p ∉ moved)
    (h' : Redirects p t x g k) (guided : k.Guided) : Bends t x (p :: moved) f k := by
  refine ⟨guided, h'.layout.trans h.layout, fun c => (h'.code c).trans (h.code c), fun c => ?_,
    fun c s => ?_⟩
  · rw [h'.traits, h.traits, h.traits]
    by_cases here : c = p
    · simp [here, new]
    · simp [here]
  · rw [h'.succs, h.succs, h.succs]
    by_cases here : c = p
    · simp [here, new]
    · simp [here]

end Procedure

namespace Cleanup

open Procedure

variable {f g : Procedure} {b c s t p x : BlockId}

structure Tunnels (t x : BlockId) (preds : List BlockId) (f : Procedure) (moved : List BlockId) :
    Prop where
  sub : ∀ p ∈ moved, p ∈ preds ∧ p ≠ t
  all : ∀ p ∈ preds, p ≠ t → (f.next? p = some t → Trait.runsOn (f.traits p) = false) →
    (∀ τ ∈ f.traits x, τ ≠ .inert) → p ∈ moved

private theorem tunnelFrom_returns {preds moved : List BlockId} (changed : Bool)
    (bends : Bends t x moved f g) (nodup : preds.Nodup) (fresh : ∀ p ∈ preds, p ∉ moved)
    (live : ∀ p ∈ preds, p ∈ f.layout) (ht : t ∈ f.layout) (hx : x ∈ f.layout) :
    Traced.Returns (tunnelFrom t x preds (g, changed)) fun r => ∃ moved', Tunnels t x preds f moved' ∧
      Bends t x (moved' ++ moved) f r.1 ∧ (moved' = [] ∧ r = (g, changed) ∨ moved' ≠ [] ∧ r.2 = true) := by
  induction preds generalizing g moved changed with
  | nil =>
    exact .pure ⟨[], ⟨fun _ mem => (nomatch mem), fun _ mem => nomatch mem⟩, bends, .inl ⟨rfl, rfl⟩⟩
  | cons p preds ih =>
    obtain ⟨once, nodup⟩ := List.nodup_cons.mp nodup
    have alive : ∀ c ∈ f.layout, (g.blockAt c).dead = false := fun c hc =>
      (bends.guided.laid c).mp (bends.layout ▸ hc)
    have hp := live p List.mem_cons_self
    have old : g.traits p = f.traits p := by
      rw [bends.traits, if_neg (fresh p List.mem_cons_self)]
    have inert : (∀ τ ∈ f.traits x, τ ≠ .inert) → ∀ τ ∈ g.traits x, τ ≠ .inert := by
      intro none τ mem
      rw [bends.traits] at mem
      split at mem
      · obtain ⟨σ, there, rfl⟩ := List.mem_map.mp mem
        cases σ with
        | inert => exact absurd rfl (none _ there)
        | debug | jump | exit => exact fun same => nomatch same
      · exact none τ mem
    rw [tunnelFrom]
    refine (Traced.Returns.ofExcept (canRedirect_gives (t := t) (alive p hp)
      (bends.guided.able p) (alive x hx) (bends.guided.able x))).bind ?_
    rintro can ⟨may, must⟩
    rw [bends.next?, old] at may must
    have later : ∀ c ∈ preds, c ∉ p :: moved := by
      intro c hc mem
      rcases List.mem_cons.mp mem with rfl | mem
      · exact once hc
      · exact fresh c (List.mem_cons_of_mem _ hc) mem
    cases can with
    | false =>
      refine (ih changed bends nodup (fun c hc => fresh c (List.mem_cons_of_mem _ hc))
        fun c hc => live c (List.mem_cons_of_mem _ hc)).imp ?_
      rintro r ⟨moved', tunnels, rest⟩
      refine ⟨moved', ⟨fun c hc => ?_, fun c hc other falls none => ?_⟩, rest⟩
      · exact ⟨List.mem_cons_of_mem _ (tunnels.sub c hc).1, (tunnels.sub c hc).2⟩
      · rcases List.mem_cons.mp hc with rfl | hc
        · exact nomatch must other falls (inert none)
        · exact tunnels.all c hc other falls none
    | true =>
      obtain ⟨other, falls⟩ := may rfl
      refine (Traced.Returns.ofExcept (redirect_gives bends.guided.toFirm (alive p hp) (alive t ht)
        (alive x hx))).bind fun k redirects => ?_
      have guided : k.Guided := redirects.guided bends.guided (alive x hx) (by
        rw [bends.next?, old]
        exact falls)
      refine (Traced.Returns.report _).bind fun _ _ => ?_
      have bends' := bends.redirect (fresh p List.mem_cons_self) redirects guided
      refine (ih true bends' nodup later fun c hc => live c (List.mem_cons_of_mem _ hc)).imp ?_
      rintro r ⟨moved', tunnels, all, rest⟩
      refine ⟨moved' ++ [p], ⟨fun c hc => ?_, fun c hc away falls none => ?_⟩, ?_, .inr ⟨by simp, ?_⟩⟩
      · rcases List.mem_append.mp hc with hc | hc
        · exact ⟨List.mem_cons_of_mem _ (tunnels.sub c hc).1, (tunnels.sub c hc).2⟩
        · rw [List.mem_singleton.mp hc]
          exact ⟨List.mem_cons_self, other⟩
      · rcases List.mem_cons.mp hc with rfl | hc
        · simp
        · exact List.mem_append_left _ (tunnels.all c hc away falls none)
      · rwa [List.append_assoc]
      · rcases rest with ⟨-, rfl⟩ | ⟨-, yes⟩
        · rfl
        · exact yes

/-- A jump-only block `t` that leads to `x`, with the branches to it led on. -/
structure Bypassed (t x : BlockId) (moved : List BlockId) (f g : Procedure) : Prop
    extends Bends t x moved f g where
  start : f.Guided
  inner : f.isEntry t = false
  mem : t ∈ f.layout
  jump : Trait.soleJump? (f.traits t) = some x
  other : x ≠ t
  tunnels : Tunnels t x (f.blockAt t).preds f moved

namespace Bypassed

variable {moved : List BlockId}

private theorem hop (h : Bypassed t x moved f g) : f.Hop t x := ⟨h.inner, h.jump, h.other⟩

private theorem hops (h : Bypassed t x moved f g) (hop : g.Hop b c) : ReflTransGen f.Hop b c := by
  obtain ⟨inner, jump, other⟩ := hop
  rw [h.isEntry] at inner
  rw [h.traits] at jump
  split at jump
  · rename_i led
    rw [Trait.soleJump?_map_lead] at jump
    obtain ⟨u, old, same⟩ := Option.map_eq_some_iff.mp jump
    split at same
    · rename_i through
      subst same through
      have first : f.Hop b u := ⟨inner, old, fun same => (h.tunnels.sub b led).2 same.symm⟩
      exact .tail (.single first) h.hop
    · subst same
      exact .single ⟨inner, old, other⟩
  · exact .single ⟨inner, jump, other⟩

private theorem passed_sub (h : Bypassed t x moved f g) (b : BlockId) : g.passed b ⊆ f.passed b := by
  intro c mem
  obtain ⟨laid, way⟩ := mem_passed.mp mem
  exact mem_passed.mpr ⟨h.layout ▸ laid, reflTransGen_closed (fun _ _ hop => h.hops hop) b c way⟩

/-- No way from `x` comes back to `t`: the block that would send control there is led on, since `x`
only jumps and has no phis. -/
private theorem not_passed (h : Bypassed t x moved f g) : t ∉ g.passed x := by
  intro mem
  have way := (mem_passed.mp mem).2
  obtain ⟨d, first, -⟩ := (ReflTransGen.cases_head way).resolve_left h.other
  obtain ⟨c, -, last⟩ := (ReflTransGen.cases_tail way).resolve_left h.other.symm
  have none : ∀ τ ∈ f.traits x, τ ≠ .inert := by
    intro τ mem
    have jump := first.jump
    rw [h.traits] at jump
    split at jump
    · rw [Trait.soleJump?_map_lead] at jump
      obtain ⟨u, old, -⟩ := Option.map_eq_some_iff.mp jump
      rcases Trait.mem_of_soleJump? old mem with rfl | rfl <;> exact fun same => nomatch same
    · rcases Trait.mem_of_soleJump? jump mem with rfl | rfl <;> exact fun same => nomatch same
  have jump := last.jump
  rw [h.traits] at jump
  split at jump
  · -- a block that is led on does not jump to `t`
    rw [Trait.soleJump?_map_lead] at jump
    obtain ⟨u, -, same⟩ := Option.map_eq_some_iff.mp jump
    split at same
    · exact h.other same
    · rename_i away
      exact away same
  · rename_i out
    have hc : c ∈ f.layout := by
      rw [h.start.laid]
      by_contra dead
      rw [Procedure.traits, (h.start.removed c (by simpa using dead)).2] at jump
      cases jump
    obtain ⟨s, edge, goal⟩ := h.start.goal c hc (Trait.plain_of_soleJump? jump)
    rw [Procedure.goal, Trait.firstJump?_of_soleJump? jump] at goal
    cases goal
    have entered := (h.start.mutual_ends c t).mp edge
    exact out (h.tunnels.all c entered last.other.symm (fun _ => Trait.runsOn_of_soleJump? jump) none)

private theorem passed_lt (h : Bypassed t x moved f g) : (g.passed x).card < (f.passed t).card := by
  refine Finset.card_lt_card ⟨fun c mem => ?_, fun all => ?_⟩
  · obtain ⟨laid, way⟩ := mem_passed.mp (h.passed_sub x mem)
    exact mem_passed.mpr ⟨laid, .head h.hop way⟩
  · exact h.not_passed (all (mem_passed.mpr ⟨h.mem, .refl⟩))

private theorem detours_lt_at (h : Bypassed t x moved f g) (hp : p ∈ moved) :
    ∑ s ∈ (g.blockAt p).succs.toFinset, (g.passed s).card <
      ∑ s ∈ (f.blockAt p).succs.toFinset, (f.passed s).card := by
  have edge : t ∈ (f.blockAt p).succs := (h.start.mutual_ends p t).mpr (h.tunnels.sub p hp).1
  have succs : (g.blockAt p).succs.toFinset = insert x ((f.blockAt p).succs.toFinset.erase t) := by
    ext s
    rw [List.mem_toFinset, h.succs, if_pos hp, Finset.mem_insert, Finset.mem_erase, List.mem_toFinset]
    tauto
  calc ∑ s ∈ (g.blockAt p).succs.toFinset, (g.passed s).card
      ≤ (g.passed x).card + ∑ s ∈ (f.blockAt p).succs.toFinset.erase t, (g.passed s).card := by
        rw [succs]
        by_cases old : x ∈ (f.blockAt p).succs.toFinset.erase t
        · rw [Finset.insert_eq_of_mem old]
          omega
        · rw [Finset.sum_insert old]
    _ ≤ (g.passed x).card + ∑ s ∈ (f.blockAt p).succs.toFinset.erase t, (f.passed s).card := by
        gcongr with s
        exact h.passed_sub s
    _ < (f.passed t).card + ∑ s ∈ (f.blockAt p).succs.toFinset.erase t, (f.passed s).card := by
        have := h.passed_lt
        omega
    _ = ∑ s ∈ (f.blockAt p).succs.toFinset, (f.passed s).card :=
        Finset.add_sum_erase _ (fun s => (f.passed s).card) (List.mem_toFinset.mpr edge)

private theorem detours_le_at (h : Bypassed t x moved f g) (p : BlockId) :
    ∑ s ∈ (g.blockAt p).succs.toFinset, (g.passed s).card ≤
      ∑ s ∈ (f.blockAt p).succs.toFinset, (f.passed s).card := by
  by_cases led : p ∈ moved
  · exact (h.detours_lt_at led).le
  · have succs : (g.blockAt p).succs.toFinset = (f.blockAt p).succs.toFinset := by
      ext s
      rw [List.mem_toFinset, h.succs, if_neg led, List.mem_toFinset]
    rw [succs]
    exact Finset.sum_le_sum fun s _ => Finset.card_le_card (h.passed_sub s)

private theorem lower (h : Bypassed t x moved f g) (some : moved ≠ []) : Lower f g := by
  obtain ⟨p, hp⟩ := List.exists_mem_of_ne_nil moved some
  refine .inr ⟨?_, ?_⟩
  · unfold bulk
    rw [h.layout]
    exact Finset.sum_congr rfl fun b _ => by rw [h.code]
  · unfold detours
    rw [h.layout]
    refine Finset.sum_lt_sum (fun p _ => h.detours_le_at p) ⟨p, List.mem_toFinset.mpr ?_,
      h.detours_lt_at hp⟩
    have edge := (h.start.mutual_ends p t).mpr (h.tunnels.sub p hp).1
    exact (h.start.laid p).mpr (h.start.toMeshed.live edge)

end Bypassed

/-- What a step makes of a procedure: it leaves it alone, or it makes it lower and says so. -/
structure Progress (f : Procedure) (changed : Bool) (r : Procedure × Bool) : Prop where
  guided : r.1.Guided
  layout : r.1.layout.length ≤ f.layout.length
  lower : r = (f, changed) ∨ r.2 = true ∧ Lower f r.1

theorem Progress.refl (guided : f.Guided) (changed : Bool) : Progress f changed (f, changed) :=
  ⟨guided, Nat.le_refl _, .inl rfl⟩

theorem Progress.trans {changed : Bool} {r r' : Procedure × Bool} (h : Progress f changed r)
    (h' : Progress r.1 r.2 r') : Progress f changed r' := by
  refine ⟨h'.guided, Nat.le_trans h'.layout h.layout, ?_⟩
  rcases h.lower with rfl | ⟨yes, low⟩
  · exact h'.lower
  · rcases h'.lower with rfl | ⟨yes', low'⟩
    · exact .inr ⟨yes, low⟩
    · exact .inr ⟨yes', low.trans low'⟩

theorem preds_eq (live : (f.blockAt b).dead = false) : f.preds b = .ok (f.blockAt b).preds := by
  unfold Procedure.preds
  rw [block_of_live live]
  rfl

private theorem tunnelThrough_returns {l : List BlockId} (changed : Bool) (guided : f.Guided)
    (laid : ∀ t ∈ l, t ∈ f.layout) :
    Traced.Returns (tunnelThrough f.isEntry l (f, changed)) (Progress f changed) := by
  suffices all : ∀ g : Procedure, g.Guided → g.layout = f.layout → ∀ changed,
      Traced.Returns (tunnelThrough f.isEntry l (g, changed)) (Progress g changed) from
    all f guided rfl changed
  induction l with
  | nil => exact fun g guided _ changed => .pure (.refl guided changed)
  | cons t l ih =>
    intro g guided layout changed
    have rest := ih fun t ht => laid t (List.mem_cons_of_mem _ ht)
    have ht : t ∈ g.layout := layout ▸ laid t List.mem_cons_self
    have live := (guided.laid t).mp ht
    rw [tunnelThrough]
    split
    · exact rest g guided layout changed
    · rename_i inner
      refine (Traced.Returns.ofExcept (P := fun found => found = Trait.soleJump? (g.traits t))
        ⟨_, onlyJump?_eq live (guided.able t), rfl⟩).bind ?_
      intro found same
      split
      · exact rest g guided layout changed
      · rename_i x
        split
        · exact rest g guided layout changed
        · rename_i other
          have inner : g.isEntry t = false := by
            unfold Procedure.isEntry at inner ⊢
            rw [layout]
            simpa using inner
          obtain ⟨s, edge, goal⟩ := guided.goal t ht (Trait.plain_of_soleJump? same.symm)
          rw [Procedure.goal, Trait.firstJump?_of_soleJump? same.symm] at goal
          cases goal
          have hx := (guided.laid x).mpr (guided.live t x edge)
          refine (Traced.Returns.ofExcept (P := fun preds => preds = (g.blockAt t).preds)
            ⟨_, preds_eq live, rfl⟩).bind ?_
          rintro _ rfl
          have preds : ∀ p ∈ (g.blockAt t).preds, p ∈ g.layout := fun p hp =>
            (guided.laid p).mpr (guided.toMeshed.live ((guided.mutual_ends p t).mpr hp))
          refine (tunnelFrom_returns changed (.refl guided) (guided.preds t)
            (fun p _ => List.not_mem_nil) preds ht hx).bind ?_
          rintro r ⟨moved, tunnels, bends, done⟩
          rw [List.append_nil] at bends
          have step : Progress g changed r := by
            refine ⟨bends.guided, Nat.le_of_eq (by rw [bends.layout]), ?_⟩
            rcases done with ⟨-, same⟩ | ⟨some, yes⟩
            · exact .inl same
            · exact .inr ⟨yes, Bypassed.lower ⟨bends, guided, inner, ht, same.symm, other, tunnels⟩ some⟩
          exact (rest r.1 bends.guided (bends.layout.trans layout) r.2).imp fun _ h => step.trans h

private theorem bulk_absorbs (h : Absorbs b s f g) (guided : f.Guided) (hb : b ∈ f.layout)
    (hs : s ∈ f.layout) (other : s ≠ b) : g.bulk < f.bulk := by
  have layout : g.layout.toFinset = f.layout.toFinset.erase s := by
    ext c
    rw [List.mem_toFinset, h.layout, guided.nodup.mem_erase_iff, Finset.mem_erase, List.mem_toFinset]
  have here : b ∈ f.layout.toFinset.erase s :=
    Finset.mem_erase.mpr ⟨other.symm, List.mem_toFinset.mpr hb⟩
  have rest : ∑ c ∈ (f.layout.toFinset.erase s).erase b, ((g.blockAt c).code.length + 2) =
      ∑ c ∈ (f.layout.toFinset.erase s).erase b, ((f.blockAt c).code.length + 2) := by
    refine Finset.sum_congr rfl fun c hc => ?_
    rw [Finset.mem_erase, Finset.mem_erase] at hc
    rw [h.code c hc.1 hc.2.1]
  have new := Finset.add_sum_erase _ (fun c => (g.blockAt c).code.length + 2) here
  have old := Finset.add_sum_erase _ (fun c => (f.blockAt c).code.length + 2) here
  have whole := Finset.add_sum_erase _ (fun c => (f.blockAt c).code.length + 2)
    (List.mem_toFinset.mpr hs)
  have length := h.length
  unfold bulk
  rw [layout]
  omega

private theorem mergeFrom_returns {isEntry : BlockId → Bool} (fuel index : Nat) (changed : Bool)
    (guided : f.Guided) (inside : index ≤ f.layout.length)
    (enough : f.layout.length < fuel + index) :
    Traced.Returns (mergeFrom isEntry fuel index (f, changed)) (Progress f changed) := by
  induction fuel generalizing index f changed with
  | zero => omega
  | succ fuel ih =>
    rw [mergeFrom]
    split
    · exact .pure (.refl guided changed)
    · rename_i b here
      have hb : b ∈ f.layout := List.mem_of_getElem? here
      have low : index < f.layout.length := (List.getElem?_eq_some_iff.mp here).1
      have linked := guided.toMeshed.linked guided.live
      refine (Traced.Returns.ofExcept (absorbable?_gives isEntry linked hb
        (guided.able b))).bind fun found absorbable => ?_
      cases found with
      | none => exact ih (index + 1) changed guided (by omega) (by omega)
      | some r =>
        obtain ⟨s, how⟩ := r
        have absorbable := absorbable _ rfl
        refine (Traced.Returns.ofExcept (absorb_gives guided absorbable)).bind fun g absorbs => ?_
        have edge : s ∈ (f.blockAt b).succs := by simp [absorbable.succs]
        have hs := (guided.laid s).mpr (guided.live b s edge)
        have guided' := absorbs.guided guided absorbable
        have shorter : g.layout.length + 1 = f.layout.length := by
          rw [absorbs.layout, List.length_erase_of_mem hs]
          have := List.length_pos_of_mem hs
          omega
        have step : Progress f changed (g, true) := by
          refine ⟨guided', by simp only; omega, .inr ⟨rfl, .inl ?_⟩⟩
          exact bulk_absorbs absorbs guided hb hs absorbable.other
        refine (Traced.Returns.report _).bind fun _ _ => ?_
        exact (ih index true guided' (by omega) (by omega)).imp fun _ h => step.trans h

private theorem bulk_prunes {lost : List BlockId} (h : Prunes lost f g) (some : lost ≠ [])
    (laid : ∀ b ∈ lost, b ∈ f.layout) : g.bulk < f.bulk := by
  obtain ⟨b, hb⟩ := List.exists_mem_of_ne_nil lost some
  have sub : g.layout.toFinset ⊆ f.layout.toFinset.erase b := by
    intro c hc
    obtain ⟨old, kept⟩ := (h.laid c).mp (List.mem_toFinset.mp hc)
    refine Finset.mem_erase.mpr ⟨?_, List.mem_toFinset.mpr old⟩
    rintro rfl
    exact kept hb
  calc g.bulk = ∑ c ∈ g.layout.toFinset, ((f.blockAt c).code.length + 2) := by
        refine Finset.sum_congr rfl fun c hc => ?_
        rw [h.code c ((h.laid c).mp (List.mem_toFinset.mp hc)).2]
    _ ≤ ∑ c ∈ f.layout.toFinset.erase b, ((f.blockAt c).code.length + 2) :=
        Finset.sum_le_sum_of_subset sub
    _ < ((f.blockAt b).code.length + 2) +
        ∑ c ∈ f.layout.toFinset.erase b, ((f.blockAt c).code.length + 2) := by omega
    _ = f.bulk := Finset.add_sum_erase _ (fun c => (f.blockAt c).code.length + 2)
        (List.mem_toFinset.mpr (laid b hb))

private theorem removeUnreachable_progress (guided : f.Guided) :
    Traced.Returns (removeUnreachable f) (Progress f false) := by
  refine (removeUnreachable_returns guided).imp ?_
  rintro r ⟨guided', rfl | ⟨lost, some, laid, prunes, yes⟩⟩
  · exact .refl guided false
  · exact ⟨guided', prunes.sub.length_le, .inr ⟨yes, .inl (bulk_prunes prunes some laid)⟩⟩

private theorem bulk_setCode {code : List InstId} (hb : b ∈ f.layout)
    (known : f.block b = .ok (f.blockAt b)) (less : code.length < (f.blockAt b).code.length) :
    (f.setCode b code).bulk < f.bulk := by
  unfold bulk
  rw [(sameLinks_setCode known code).layout]
  refine Finset.sum_lt_sum (fun c _ => ?_) ⟨b, List.mem_toFinset.mpr hb, ?_⟩
  · rw [code_setCode known]
    split
    · rename_i here
      rw [here]
      omega
    · exact Nat.le_refl _
  · rw [code_setCode known, if_pos rfl]
    omega

private theorem dropJumpsOf_gives {l : List BlockId} (changed : Bool) (guided : f.Guided)
    (laid : ∀ b ∈ l, b ∈ f.layout) : Gives (dropJumpsOf l (f, changed)) (Progress f changed) := by
  induction l generalizing f changed with
  | nil => exact .of_ok (.refl guided changed)
  | cons b l ih =>
    have hb := laid b List.mem_cons_self
    have rest := fun c hc => laid c (List.mem_cons_of_mem b hc)
    have live := (guided.laid b).mp hb
    have known := block_of_live live
    rw [dropJumpsOf]
    refine (idleJump?_gives live (guided.able b)).bind fun found idle => ?_
    cases found with
    | none => exact ih changed guided rest
    | some position =>
      obtain ⟨before, i, y, after, n, split, rfl, found, trait, markers, next⟩ := idle position rfl
      refine .of_run (eraseCode_eq known split) ?_
      have guided' := dropJump_guided guided hb split found trait markers next
      have layout := (sameLinks_setCode known (before ++ after)).layout
      have step : Progress f changed (f.setCode b (before ++ after), true) := by
        refine ⟨guided', Nat.le_of_eq (by rw [layout]), .inr ⟨rfl, .inl ?_⟩⟩
        refine bulk_setCode hb known ?_
        rw [split]
        simp
      exact (ih true guided' fun c hc => layout ▸ rest c hc).imp fun _ h => step.trans h

private theorem mergeBound_le : f.layout.length ≤ mergeBound f := Nat.le_add_right _ _

private theorem Progress.or {r r' : Procedure × Bool} (h : Progress f false r)
    (h' : Progress r.1 false r') : Progress f false (r'.1, r.2 || r'.2) := by
  refine ⟨h'.guided, Nat.le_trans h'.layout h.layout, ?_⟩
  rcases h.lower with rfl | ⟨yes, low⟩
  · rw [Bool.false_or]
    exact h'.lower
  · rw [yes, Bool.true_or]
    rcases h'.lower with rfl | ⟨-, low'⟩
    · exact .inr ⟨rfl, low⟩
    · exact .inr ⟨rfl, low.trans low'⟩

private theorem round_returns (guided : f.Guided) : Traced.Returns (round f) (Progress f false) := by
  unfold round
  refine (removeUnreachable_progress guided).bind fun r₁ h₁ => ?_
  refine (tunnelThrough_returns false h₁.guided fun _ => id).bind fun r₂ h₂ => ?_
  refine (mergeFrom_returns _ 0 false h₂.guided (Nat.zero_le _) ?_).bind fun r₃ h₃ => ?_
  · have := mergeBound_le (f := r₂.1)
    omega
  refine (Traced.Returns.ofExcept (dropJumpsOf_gives false h₃.guided fun _ => id)).bind fun r₄ h₄ => ?_
  exact .pure (((h₁.or h₂).or h₃).or h₄)

/-- After `n` rounds that change something comes one that changes nothing. -/
inductive Settles : Nat → Procedure → Procedure → Prop
  | last {f g : Procedure} : Traced.Returns (round f) (· = (g, false)) → Settles 0 f g
  | again {n : Nat} {f g h : Procedure} : Traced.Returns (round f) (· = (g, true)) →
      Settles n g h → Settles (n + 1) f h

private theorem detours_le (guided : f.Guided) : f.detours ≤ f.layout.length ^ 3 := by
  have few : ∀ b, (f.passed b).card ≤ f.layout.length := by
    intro b
    refine (Finset.card_le_card fun c hc => ?_).trans (List.toFinset_card_le f.layout)
    exact List.mem_toFinset.mpr (mem_passed.mp hc).1
  have succs : ∀ p, (f.blockAt p).succs.toFinset.card ≤ f.layout.length := by
    intro p
    refine (Finset.card_le_card fun s hs => ?_).trans (List.toFinset_card_le f.layout)
    rw [List.mem_toFinset] at hs ⊢
    exact (guided.laid s).mpr (guided.live p s hs)
  calc f.detours ≤ ∑ p ∈ f.layout.toFinset, f.layout.length * f.layout.length := by
        refine Finset.sum_le_sum fun p _ => (Finset.sum_le_card_nsmul _ _ _ fun s _ => few s).trans ?_
        exact Nat.mul_le_mul_right _ (succs p)
    _ = f.layout.toFinset.card * (f.layout.length * f.layout.length) :=
        Finset.sum_const_nat fun _ _ => rfl
    _ ≤ f.layout.length * (f.layout.length * f.layout.length) :=
        Nat.mul_le_mul_right _ (List.toFinset_card_le _)
    _ = f.layout.length ^ 3 := by ring

/-- What is left to be done: the size weighs more than all ways. -/
noncomputable def outlook (n : Nat) (f : Procedure) : Nat := f.bulk * (n ^ 3 + 1) + f.detours

private theorem outlook_lt {n : Nat} (guided : g.Guided) (small : g.layout.length ≤ n) (lower : Lower f g) :
    outlook n g < outlook n f := by
  have most : g.detours ≤ n ^ 3 := (detours_le guided).trans (Nat.pow_le_pow_left small 3)
  unfold outlook
  rcases lower with less | ⟨same, less⟩
  · calc g.bulk * (n ^ 3 + 1) + g.detours < g.bulk * (n ^ 3 + 1) + (n ^ 3 + 1) := by omega
      _ = (g.bulk + 1) * (n ^ 3 + 1) := by ring
      _ ≤ f.bulk * (n ^ 3 + 1) := Nat.mul_le_mul_right _ less
      _ ≤ f.bulk * (n ^ 3 + 1) + f.detours := Nat.le_add_right _ _
  · rw [same]
    omega

private theorem Settles.returns {n fuel : Nat} {g : Procedure} (h : Settles n f g) (enough : n < fuel)
    (number : Nat) (changed : Bool) :
    Traced.Returns (roundsFrom fuel number (f, changed)) (· = (g, changed || decide (0 < n))) := by
  obtain ⟨fuel, rfl⟩ : ∃ k, fuel = k + 1 := ⟨fuel - 1, by omega⟩
  induction h generalizing fuel number changed with
  | last round =>
    rw [roundsFrom]
    refine round.bind ?_
    rintro _ rfl
    refine (Traced.Returns.report _).bind fun _ _ => .pure ?_
    simp
  | again round settles ih =>
    obtain ⟨fuel, rfl⟩ : ∃ k, fuel = k + 1 := ⟨fuel - 1, by omega⟩
    rw [roundsFrom]
    refine round.bind ?_
    rintro _ rfl
    refine (Traced.Returns.report _).bind fun _ _ => ?_
    simpa using ih (number + 1) true fuel (by omega)

private theorem exists_settles {n : Nat} (fuel : Nat) (guided : f.Guided) (small : f.layout.length ≤ n)
    (enough : outlook n f < fuel) : ∃ k g, k < fuel ∧ Settles k f g := by
  induction fuel generalizing f with
  | zero => omega
  | succ fuel ih =>
    obtain ⟨⟨g, again⟩, progress, round⟩ := (round_returns guided).value
    cases again with
    | false => exact ⟨0, g, Nat.succ_pos _, .last round⟩
    | true =>
      have low : Lower f g := by
        rcases progress.lower with same | ⟨-, low⟩
        · cases same
        · exact low
      have less := outlook_lt progress.guided (progress.layout.trans small) low
      obtain ⟨k, h, bound, settles⟩ :=
        ih progress.guided (progress.layout.trans small) (by omega)
      exact ⟨k + 1, h, by omega, .again round settles⟩

private theorem bulk_eq (guided : f.Guided) :
    f.layout.foldr (fun b n => codeLength f b + 2 + n) 0 = f.bulk := by
  unfold bulk
  rw [List.sum_toFinset _ guided.nodup, ← List.foldr_map (f := fun b => codeLength f b + 2)]
  refine congrArg List.sum (List.map_congr_left fun b hb => ?_)
  rw [codeLength, code_eq ((guided.laid b).mp hb)]

private theorem outlook_lt_roundBound (guided : f.Guided) : outlook f.layout.length f < roundBound f := by
  have most := detours_le guided
  unfold outlook roundBound
  rw [bulk_eq guided]
  calc f.bulk * (f.layout.length ^ 3 + 1) + f.detours
      < f.bulk * (f.layout.length ^ 3 + 1) + (f.layout.length ^ 3 + 1) := by omega
    _ = (f.bulk + 1) * (f.layout.length * f.layout.length * f.layout.length + 1) := by ring

end Cleanup

namespace Procedure

variable {f : Procedure}

/-- What a cleanup needs beyond a proper graph. Every phi has a definition and every unconditional
branch leads to a block, no such branch stands in two blocks, and a block without a terminator is
followed by one of its successors. -/
structure Cleanable (f : Procedure) : Prop where
  defined : ∀ b ∈ f.layout, ∀ y ∈ f.instsAt b, y.op = .phi → y.defs ≠ []
  leads : ∀ b ∈ f.layout, ∀ y ∈ f.instsAt b, y.op = .br → (y.uses.head?.bind Operand.block?).isSome
  apart : ∀ b ∈ f.layout, ∀ c ∈ f.layout, b ≠ c → ∀ i ∈ (f.blockAt b).code, i ∈ (f.blockAt c).code →
    ∀ y ∈ f.inst? i, y.op ≠ .br
  followed : ∀ b ∈ f.layout, (∀ y ∈ f.instsAt b, y.op.isTerminator = false) →
    ∃ n ∈ (f.blockAt b).succs, f.next? b = some n
  shared : f.Shared

private theorem WellFormed.succ_live (h : f.WellFormed) {b s : BlockId} (edge : s ∈ (f.blockAt b).succs) :
    (f.blockAt s).dead = false := by
  by_contra dead
  have entered := (h.mutual_ends b s).mp edge
  rw [(h.removed s (by simpa using dead)).2.1] at entered
  cases entered

theorem guided_of_wellFormed (h : f.WellFormed) (cleanable : f.Cleanable) : f.Guided := by
  have laid : ∀ {b i}, i ∈ (f.blockAt b).code → b ∈ f.layout := by
    intro b i hi
    rw [h.laid]
    by_contra dead
    rw [(h.removed b (by simpa using dead)).2.2] at hi
    cases hi
  have target : ∀ {b y t rest}, y ∈ f.instsAt b → y.op = .br → y.uses = .block t :: rest →
      t ∈ (f.blockAt b).succs := by
    intro b y t rest mem br uses
    refine h.needs b t (.inl ⟨y, mem, ?_⟩)
    simp [Inst.targets, br, uses, Operand.block?]
  have able : ∀ b, f.AbleCode (f.blockAt b).code := by
    intro b i hi
    obtain ⟨y, found⟩ := h.found b i hi
    have mem : y ∈ f.instsAt b := mem_instsAt.mpr ⟨i, hi, found⟩
    refine ⟨y, found, cleanable.defined b (laid hi) y mem, fun br => ?_⟩
    obtain ⟨t, first⟩ := Option.isSome_iff_exists.mp (cleanable.leads b (laid hi) y mem br)
    have uses : ∃ rest, y.uses = .block t :: rest := by
      obtain ⟨u, head, block⟩ := Option.bind_eq_some_iff.mp first
      obtain ⟨rest, uses⟩ := List.head?_eq_some_iff.mp head
      cases u with
      | block b =>
        cases block
        exact ⟨rest, uses⟩
      | reg | imm => cases block
    obtain ⟨rest, uses⟩ := uses
    refine ⟨t, rest, uses, ?_⟩
    rintro rfl
    cases h.succ_live (target mem br uses)
  have apart : ∀ i y b c, f.inst i = .ok y → y.op = .br → i ∈ (f.blockAt b).code →
      i ∈ (f.blockAt c).code → b = c := by
    intro i y b c found br hb hc
    by_contra other
    exact cleanable.apart b (laid hb) c (laid hc) other i hb hc y (inst?_eq_some.mpr found) br
  refine ⟨⟨h.toLinked.meshed, able, apart, cleanable.shared⟩, fun b s => h.succ_live,
    fun b hb plain => ?_⟩
  unfold Procedure.goal
  cases first : Trait.firstJump? (f.traits b) with
  | some t =>
    refine ⟨t, ?_, rfl⟩
    obtain ⟨i, hi, y, found, trait⟩ := mem_traitsOf.mp (Trait.mem_of_firstJump? first)
    have jump := Inst.isJump_of_trait trait
    obtain ⟨z, there, ableZ⟩ := able b i hi
    cases found.symm.trans there
    obtain ⟨u, rest, uses, -, trait', -⟩ := Inst.trait_of_isJump jump ableZ
    cases trait.symm.trans trait'
    exact target (mem_instsAt.mpr ⟨i, hi, found⟩) (Inst.op_of_isJump jump) uses
  | none =>
    refine cleanable.followed b hb fun y mem => ?_
    obtain ⟨i, hi, found⟩ := mem_instsAt.mp mem
    have here : y.trait ∈ f.traits b := mem_traitsOf.mpr ⟨i, hi, y, found, rfl⟩
    rw [← Inst.isExit_trait]
    cases trait : y.trait with
    | jump t => exact absurd (trait ▸ here) (Trait.firstJump?_eq_none.mp first t)
    | exit e => exact absurd (trait ▸ here) (plain e)
    | debug | inert => rfl

end Procedure

namespace Cleanup

open Procedure

variable {f : Procedure}

/-- A cleanup comes to a round that changes nothing, whatever cycles of jumps and other loops there
are. -/
theorem run_settles (verified : f.verify = .ok (.ok ())) (cleanable : f.Cleanable) :
    ∃ n g, n < roundBound f ∧ Settles n f g ∧ Traced.Returns (run f) (· = (g, decide (0 < n))) := by
  have guided := guided_of_wellFormed (verify_iff.mp verified) cleanable
  obtain ⟨n, g, bound, settles⟩ := exists_settles (roundBound f) guided (Nat.le_refl _)
    (outlook_lt_roundBound guided)
  have run := settles.returns bound 0 false
  rw [Bool.false_or] at run
  exact ⟨n, g, bound, settles, run⟩

/-- Two blocks that jump to each other, entered at both, and a block that nothing leads to. -/
def carousel : Procedure where
  name := "carousel"
  blocks := #[
    { id := 0, name := "entry", code := [0, 1], succs := [1, 2] },
    { id := 1, name := "there", code := [2], succs := [2], preds := [0, 2] },
    { id := 2, name := "back", code := [3], succs := [1], preds := [0, 1] },
    { id := 3, name := "aside", code := [4] }]
  insts := #[.branch [⟨0, false⟩] 1, .jump 2, .jump 2, .jump 1, { op := .ret }]
  layout := [0, 1, 2, 3]

theorem carousel_settles : carousel.verify = .ok (.ok ()) ∧ carousel.Cleanable ∧
    ∃ n g, n < roundBound carousel ∧ Settles n carousel g ∧
      Traced.Returns (run carousel) (· = (g, decide (0 < n))) := by
  have verified : carousel.verify = .ok (.ok ()) := by decide +kernel
  have cleanable : carousel.Cleanable := ⟨by decide +kernel, by decide +kernel, by decide +kernel,
    by decide +kernel, fun _ mem => nomatch mem⟩
  exact ⟨verified, cleanable, run_settles verified cleanable⟩

def Blind {α : Type} (m : Traced Event α) : Prop := ∀ log log', (m.run log).1 = (m.run log').1

private theorem blind_pure {α : Type} (a : α) : Blind (pure a) := fun _ _ => rfl

private theorem blind_report (e : Event) : Blind (Traced.report e) := fun _ _ => rfl

private theorem blind_ofExcept {α : Type} (x : Except Fault α) : Blind (Traced.ofExcept x) := by
  intro log log'
  cases x <;> rfl

private theorem blind_bind {α β : Type} {m : Traced Event α} {k : α → Traced Event β} (h : Blind m)
    (h' : ∀ a, Blind (k a)) : Blind (m >>= k) := by
  intro log log'
  have same := h log log'
  rw [run_bind, run_bind]
  rcases ran : m.run log with ⟨r, mid⟩
  rcases ran' : m.run log' with ⟨r', mid'⟩
  rw [ran, ran'] at same
  cases same
  cases r with
  | error e => rfl
  | ok a => exact h' a mid mid'

private theorem blind_removeAll (l : List BlockId) (f : Procedure) : Blind (removeAll l f) := by
  induction l generalizing f with
  | nil => exact blind_pure f
  | cons b l ih => exact blind_bind (blind_report _) fun _ => blind_bind (blind_ofExcept _) ih

private theorem blind_tunnelFrom (t x : BlockId) (l : List BlockId) (state : Procedure × Bool) :
    Blind (tunnelFrom t x l state) := by
  induction l generalizing state with
  | nil => exact blind_pure state
  | cons p l ih =>
    refine blind_bind (blind_ofExcept _) fun can => ?_
    split
    · exact blind_bind (blind_ofExcept _) fun f => blind_bind (blind_report _) fun _ => ih _
    · exact ih _

private theorem blind_tunnelThrough (isEntry : BlockId → Bool) (l : List BlockId) (state : Procedure × Bool) :
    Blind (tunnelThrough isEntry l state) := by
  induction l generalizing state with
  | nil => exact blind_pure state
  | cons t l ih =>
    unfold tunnelThrough
    split
    · exact ih _
    · refine blind_bind (blind_ofExcept _) fun x? => ?_
      split
      · exact ih _
      · split
        · exact ih _
        · exact blind_bind (blind_ofExcept _) fun preds => blind_bind (blind_tunnelFrom _ _ _ _) ih

private theorem blind_mergeFrom (isEntry : BlockId → Bool) (fuel index : Nat) (state : Procedure × Bool) :
    Blind (mergeFrom isEntry fuel index state) := by
  induction fuel generalizing index state with
  | zero => exact fun _ _ => rfl
  | succ fuel ih =>
    unfold mergeFrom
    split
    · exact blind_pure _
    · refine blind_bind (blind_ofExcept _) fun s? => ?_
      split
      · exact ih _ _
      · exact blind_bind (blind_ofExcept _) fun f => blind_bind (blind_report _) fun _ => ih _ _

private theorem blind_round (f : Procedure) : Blind (round f) := by
  refine blind_bind ?_ fun r => blind_bind (blind_tunnelThrough _ _ _) fun r => ?_
  · unfold removeUnreachable
    split
    · exact blind_pure _
    · refine blind_bind (blind_ofExcept _) fun lost => blind_bind (blind_ofExcept _) fun f => ?_
      exact blind_bind (blind_removeAll _ _) fun f => blind_pure _
  · exact blind_bind (blind_mergeFrom _ _ _ _) fun r => blind_bind (blind_ofExcept _) fun r => blind_pure _

/-- After fewer than the given number of rounds comes one that reports a change and leaves all as it was.
-/
def circles : Nat → Procedure → Bool
  | 0, _ => false
  | k + 1, f =>
    match (round f).events.1 with
    | .ok (g, true) => decide (g = f) || circles k g
    | _ => false

private theorem exists_of_circles {k : Nat} (h : circles (k + 1) f = true) :
    ∃ g, (round f).events.1 = .ok (g, true) ∧ (g = f ∨ circles k g = true) := by
  unfold circles at h
  split at h
  · rename_i g told
    exact ⟨g, told, by simpa using h⟩
  · cases h

theorem roundsFrom_of_circles {k : Nat} (h : circles k f = true) (fuel number : Nat) (changed : Bool)
    (log : Array Event) : ((roundsFrom fuel number (f, changed)).run log).1 = .error .unsettled := by
  induction k generalizing f fuel number changed log with
  | zero => cases h
  | succ k ih =>
    obtain ⟨g, told, next⟩ := exists_of_circles h
    -- the round that repeats itself uses up one step after the other
    induction fuel generalizing number changed log with
    | zero => rfl
    | succ fuel again =>
      have told : ((round f).run log).1 = .ok (g, true) := (blind_round f log #[]).trans told
      rw [roundsFrom, run_bind]
      rcases ran : (round f).run log with ⟨r, log'⟩
      rw [ran] at told
      cases told
      rcases next with rfl | later
      · exact again _ _ _
      · exact ih later _ _ _ _

private theorem not_settles_of_circles {k : Nat} (h : circles k f = true) (n : Nat) (g : Procedure) :
    ¬ Settles n f g := by
  intro settles
  obtain ⟨r, -, run⟩ := settles.returns (Nat.lt_succ_self n) 0 false
  obtain ⟨log, run⟩ := run #[]
  have out := roundsFrom_of_circles h (n + 1) 0 false #[]
  rw [run] at out
  cases out

private theorem not_settles_of_error {e : Fault} (h : (round f).events.1 = .error e) (n : Nat)
    (g : Procedure) : ¬ Settles n f g := by
  rintro (⟨r, -, run⟩ | ⟨⟨r, -, run⟩, -⟩)
  all_goals
    obtain ⟨log, run⟩ := run #[]
    rw [Traced.events, run] at h
    cases h

/-- A jump that leads nowhere. -/
def aimless : Procedure where
  name := "aimless"
  blocks := #[{ id := 0, name := "entry", code := [0] }]
  insts := #[{ op := .br }]
  layout := [0]

private def test (b : BlockId) : Inst := .branch [⟨0, false⟩] b

/-- A phi that takes the first register on every way. -/
private def pass (d : Reg) (sources : List BlockId) : Inst :=
  { op := .phi, defs := [d], uses := sources.flatMap fun b => [.reg 0, .block b] }

/-- The last block `W` runs past its end. Its code comes to stand before other blocks, and in the end
`T` and `B` jump to each other without an edge: the branch of the entry is led from one to the other for
ever. -/
def wayward : List Listing.Source :=
  [{ name := "wayward", bytes := Listing.bytesOf (
      "func astray\nE:\n livein %a\n brc %a, L\n brc %a, T\n brc %a, K\n brc %a, M\n ret\n" ++
      "V:\n %d = phi [%a, Z]\n br W\nL:\n br A\nA:\nX:\nY:\nZ:\n br V\n" ++
      "F:\n %e = phi [%a, C], [%a, P]\n br X\nT:\nU:\n %f = phi [%a, T], [%a, P]\n br G\n" ++
      "K:\n brc %a, B\n ret\n nop\nG:\n %g = phi [%a, U], [%a, P]\n br Y\nB:\n" ++
      "C:\n %h = phi [%a, B], [%a, P]\n br F\nM:\nN:\n dbg P\n br A\n" ++
      "P:\n brc %a, U\n brc %a, G\n brc %a, C\n brc %a, F\n ret\nW:") }]

def astray : Procedure where
  name := "astray"
  regs := #["a", "d", "e", "f", "g", "h"]
  blocks := #[
    { id := 0, name := "E", code := [0, 1, 2, 3, 4], succs := [1, 2, 3, 4], liveIn := [0] },
    { id := 1, name := "L", code := [7], succs := [8], preds := [0] },
    { id := 2, name := "T", succs := [14], preds := [0] },
    { id := 3, name := "K", code := [13, 14, 15], succs := [16], preds := [0] },
    { id := 4, name := "M", succs := [17], preds := [0] },
    { id := 5, name := "V", code := [5, 6], succs := [7], preds := [6] },
    { id := 6, name := "Z", code := [8], succs := [5], preds := [10] },
    { id := 7, name := "W", preds := [5] },
    { id := 8, name := "A", succs := [9], preds := [1, 17] },
    { id := 9, name := "X", succs := [10], preds := [8, 11] },
    { id := 10, name := "Y", succs := [6], preds := [9, 15] },
    { id := 11, name := "F", code := [9, 10], succs := [9], preds := [12, 13] },
    { id := 12, name := "C", code := [18, 19], succs := [11], preds := [16, 13] },
    { id := 13, name := "P", code := [22, 23, 24, 25, 26], succs := [14, 15, 12, 11], preds := [17] },
    { id := 14, name := "U", code := [11, 12], succs := [15], preds := [2, 13] },
    { id := 15, name := "G", code := [16, 17], succs := [10], preds := [14, 13] },
    { id := 16, name := "B", succs := [12], preds := [3] },
    { id := 17, name := "N", code := [20, 21], succs := [13, 8], preds := [4] }]
  insts := #[
    test 1, test 2, test 3, test 4, { op := .ret }, pass 1 [6], .jump 7, .jump 8, .jump 5,
    pass 2 [12, 13], .jump 9, pass 3 [2, 13], .jump 15, test 16, { op := .ret },
    { op := .other "nop" }, pass 4 [14, 13], .jump 10, pass 5 [16, 13], .jump 11,
    { op := .dbg, uses := [.block 13] }, .jump 8, test 14, test 15, test 12, test 11, { op := .ret }]
  layout := [0, 5, 1, 8, 9, 10, 6, 11, 2, 14, 3, 15, 16, 12, 4, 17, 13, 7]

/-- One jump stands in `stray` and in `third`, and one phi in `join` and in `fork`. Leading the jump
of `stray` on leaves `third` without the edge to its target, and it comes to the same end. -/
def entwined : Procedure where
  name := "entwined"
  blocks := #[
    { id := 0, name := "entry", code := [0, 1, 2, 3, 4], succs := [1, 14, 16, 20] },
    { id := 1, name := "bypass", code := [5], succs := [3, 2], preds := [0] },
    { id := 2, name := "stray", code := [6], succs := [6], preds := [1] },
    { id := 3, name := "aside", code := [7], preds := [1, 21] },
    { id := 4, name := "left", code := [8], succs := [7, 8], preds := [6] },
    { id := 5, name := "right", code := [9], succs := [8, 7], preds := [11] },
    { id := 6, name := "tunnel", code := [10], succs := [4], preds := [2, 11] },
    { id := 7, name := "join", code := [11], succs := [8], preds := [4, 5] },
    { id := 8, name := "fork", code := [11], succs := [9], preds := [5, 7, 4] },
    { id := 9, name := "first", succs := [10], preds := [8, 13] },
    { id := 10, name := "second", succs := [11, 12], preds := [9, 17] },
    { id := 11, name := "third", code := [12, 6], succs := [6, 5], preds := [10, 12] },
    { id := 12, name := "fourth", code := [13], succs := [11], preds := [10] },
    { id := 13, name := "above", code := [14, 15], succs := [9], preds := [19, 23] },
    { id := 14, name := "there", succs := [15], preds := [0] },
    { id := 15, name := "thereafter", code := [16, 17], succs := [17], preds := [14, 23] },
    { id := 16, name := "keeper", code := [18, 19, 20], succs := [18], preds := [0] },
    { id := 17, name := "below", code := [21, 22], succs := [10], preds := [15, 23] },
    { id := 18, name := "back", succs := [19], preds := [16] },
    { id := 19, name := "backward", code := [23, 24], succs := [13], preds := [18, 23] },
    { id := 20, name := "late", succs := [21, 22], preds := [0] },
    { id := 21, name := "later", code := [25, 26], succs := [3, 23], preds := [20, 22] },
    { id := 22, name := "latest", code := [27], succs := [21], preds := [20] },
    { id := 23, name := "gate", code := [28, 29, 30, 31, 32], succs := [15, 17, 19, 13], preds := [21] }]
  insts := #[
    test 1, test 14, test 16, test 20, { op := .ret }, .jump 3, .jump 6, { op := .ret }, .jump 7,
    .jump 8, .jump 4, { op := .phi, defs := [1], uses := [.reg 8, .block 4, .reg 9, .block 5] },
    pass 2 [10, 12], .jump 11, pass 3 [19, 23], .jump 9, pass 4 [14, 23], .jump 17, test 18,
    { op := .ret }, { op := .other "nop" }, pass 5 [15, 23], .jump 10, pass 6 [18, 23], .jump 13,
    pass 7 [20, 22], .jump 3, .jump 21, test 15, test 17, test 19, test 13, { op := .ret }]
  layout := [0, 1, 2, 3, 4, 5, 6, 7, 8, 9, 10, 11, 12, 13, 14, 15, 16, 17, 18, 19, 20, 21, 22, 23]

/-- The procedure is a proper graph whose phis have definitions, and its cleanup does not settle. -/
def Unsettled (f : Procedure) : Prop :=
  f.verify = .ok (.ok ()) ∧ (∀ b ∈ f.layout, ∀ y ∈ f.instsAt b, y.op = .phi → y.defs ≠ []) ∧
    ∀ n g, ¬ Settles n f g

theorem read_wayward : Listing.read wayward = .ok [astray] := by decide +kernel

theorem verify_astray : astray.verify = .ok (.ok ()) := by decide +kernel

theorem circles_astray : circles 10 astray = true := by decide +kernel

/-- Each of these procedures lacks only one of the other conditions of `Cleanable`, and one of them comes
from a listing. -/
theorem unsettled : Unsettled aimless ∧ (Listing.read wayward = .ok [astray] ∧ Unsettled astray) ∧
    Unsettled entwined := by
  refine ⟨⟨?_, ?_, not_settles_of_error (e := .outOfRange) ?_⟩,
    ⟨read_wayward, verify_astray, ?_, not_settles_of_circles circles_astray⟩, ?_, ?_,
    not_settles_of_circles (k := 10) ?_⟩
  all_goals decide +kernel

end Cleanup

end Predication
