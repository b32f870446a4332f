import Predication.Proofs.Resolution

/-!
Merging keeps what a procedure does. Control that went through `b` and then through `s` goes through
the code of both in one block, and what phis took from `s` they take from `b`.
-/

set_option autoImplicit false
set_option relaxedAutoImplicit false

namespace Predication

open Cleanup

private theorem Operand.blockId_renameLabel (u : Operand) (s b : BlockId) :
    (u.renameLabel s b).blockId = if u.blockId = s then b else u.blockId := by
  unfold renameLabel
  split
  · cases u <;> rfl
  · rfl

private theorem PhiInput.ofUses_renameLabels (s b : BlockId) (uses : List Operand) :
    ofUses (renameLabels s b uses) =
      (ofUses uses).map fun y => ⟨y.value, y.label.renameLabel s b⟩ := by
  fun_induction ofUses uses with
  | case1 v label rest ih => simp [renameLabels, ofUses, ih]
  | case2 => rfl
  | case3 => rfl

namespace Inst

variable {x : Inst} {b p s : BlockId}

def relabel (s b : BlockId) (x : Inst) : Inst :=
  if x.op = .phi then { x with uses := renameLabels s b x.uses } else x

private theorem follows_relabel (x : Inst) : x.Follows (fun c => c) (x.relabel s b) := by
  unfold relabel
  split
  · rename_i phi
    exact .of_phi phi _
  · exact .refl x

private theorem phiInputs_relabel (phi : x.op = .phi) : (x.relabel s b).phiInputs =
    x.phiInputs.map fun y => ⟨y.value, y.label.renameLabel s b⟩ := by
  unfold relabel
  rw [if_pos phi]
  exact PhiInput.ofUses_renameLabels s b x.uses

private theorem sources_relabel (phi : x.op = .phi) :
    p ∈ (x.relabel s b).sources ↔ p ∈ x.sources ∧ p ≠ s ∨ p = b ∧ s ∈ x.sources := by
  have source : ∀ y : PhiInput, (⟨y.value, y.label.renameLabel s b⟩ : PhiInput).source =
      if y.source = s then b else y.source := fun y => Operand.blockId_renameLabel y.label s b
  unfold sources
  rw [phiInputs_relabel phi, List.map_map]
  simp only [List.mem_map, Function.comp_apply, source]
  constructor
  · rintro ⟨y, mem, same⟩
    split at same
    · rename_i here
      exact .inr ⟨same.symm, y, mem, here⟩
    · rename_i away
      exact .inl ⟨⟨y, mem, same⟩, same ▸ away⟩
  · rintro (⟨⟨y, mem, rfl⟩, away⟩ | ⟨rfl, y, mem, here⟩)
    · exact ⟨y, mem, if_neg away⟩
    · exact ⟨y, mem, if_pos here⟩

private theorem phiValue?_relabel (phi : x.op = .phi) (new : b ∉ x.sources) (away : p ≠ b) :
    (x.relabel s b).phiValue? (if p = s then b else p) = x.phiValue? p := by
  unfold sources at new
  unfold phiValue?
  rw [phiInputs_relabel phi]
  generalize x.phiInputs = l at new
  induction l with
  | nil => rfl
  | cons y l ih =>
    rw [List.map_cons, List.mem_cons, not_or] at new
    have source : (⟨y.value, y.label.renameLabel s b⟩ : PhiInput).source =
      if y.source = s then b else y.source := Operand.blockId_renameLabel y.label s b
    have same : (if y.source = s then b else y.source) = (if p = s then b else p) ↔ y.source = p := by
      have other := Ne.symm new.1
      split <;> split <;> grind
    rw [List.map_cons, List.find?_cons, List.find?_cons, source]
    by_cases here : y.source = p
    · rw [decide_eq_true (same.mpr here), decide_eq_true here]
      rfl
    · rw [decide_eq_false fun hit => here (same.mp hit), decide_eq_false here]
      exact ih new.2

private theorem renameLabels_of_not_mem {uses : List Operand} (even : uses.length % 2 = 0)
    (away : s ∉ (PhiInput.ofUses uses).map PhiInput.source) : renameLabels s b uses = uses := by
  fun_induction renameLabels s b uses with
  | case1 v label rest ih =>
    rw [PhiInput.ofUses, List.map_cons, List.mem_cons, not_or] at away
    simp only [List.length_cons] at even
    have kept : label.renameLabel s b = label := if_neg fun same => away.1 same.symm
    rw [kept, ih (by omega) away.2]
  | case2 => rfl

private theorem relabel_of_not_mem (regular : x.Regular) (away : x.op = .phi → s ∉ x.sources) :
    x.relabel s b = x := by
  unfold relabel
  split
  · rename_i phi
    rw [renameLabels_of_not_mem (regular.even phi) (away phi)]
  · rfl

private theorem Regular.relabel (h : x.Regular) (s b : BlockId) : (x.relabel s b).Regular := by
  by_cases phi : x.op = .phi
  · have follows := follows_relabel (s := s) (b := b) x
    have op : (x.relabel s b).op = .phi := follows.op.trans phi
    have length : ∀ uses : List Operand, (renameLabels s b uses).length = uses.length := by
      intro uses
      fun_induction renameLabels s b uses with
      | case1 v label rest ih => simp [ih]
      | case2 => rfl
    refine ⟨fun _ => follows.guard.trans (h.free phi), fun _ => ?_, fun _ => ?_, fun _ y mem => ?_,
      fun br => ?_, fun _ _ _ => ?_⟩
    · rw [follows.defs]
      exact h.defs phi
    · unfold Inst.relabel
      rw [if_pos phi]
      exact (congrArg (· % 2) (length x.uses)).trans (h.even phi)
    · rw [phiInputs_relabel phi] at mem
      obtain ⟨z, there, rfl⟩ := List.mem_map.mp mem
      exact h.values phi z there
    · cases br.symm.trans op
    · unfold targets
      rw [op]
  · have same : x.relabel s b = x := if_neg phi
    rw [same]
    exact h

private theorem regular_jump {n : BlockId} (named : n ≠ -1) : (Inst.jump n).Regular where
  free phi := by cases phi
  defs phi := by cases phi
  even phi := by cases phi
  values phi := by cases phi
  leads _ := ⟨n, [], rfl, named⟩
  plain other := absurd rfl other

end Inst

namespace Procedure

variable {f g : Procedure} {b c p s t : BlockId} {source : Option BlockId} {rs : List Reg}
  {head tail : List Inst}

inductive Straightens (f : Procedure) (b s : BlockId) (head : List Inst) : Prop
  | falls : f.instsAt b = head → f.next? b = some s → Straightens f b s head
  | jumps (l : List Inst) (j : Inst) (l' : List Inst) : f.instsAt b = l ++ j :: l' → head = l ++ l' →
      j.op = .br → j.guard = [] → j.targets.head? = some s → (∀ x ∈ l', x.op.isDebug = true) →
      Straightens f b s head

/-- The code of `s` stands behind that of `b`, and `s` is gone. -/
structure Merges (b s : BlockId) (head tail : List Inst) (f g : Procedure) : Prop where
  guided : g.Guided
  sited : g.Sited
  layout : g.layout = f.layout.erase s
  succs : ∀ c t, t ∈ (g.blockAt c).succs ↔
    if c = b then t ∈ (f.blockAt s).succs else c ≠ s ∧ t ∈ (f.blockAt c).succs
  straight : Straightens f b s head
  inner : ∀ x ∈ head, x.op.isTerminator = false
  here : g.instsAt b = (head ++ (f.instsAt s ++ tail)).map (Inst.relabel s b)
  others : ∀ c, c ≠ b → c ≠ s → g.instsAt c = (f.instsAt c).map (Inst.relabel s b)
  gone : g.instsAt s = []
  settled : ∀ x ∈ f.instsAt s, x.op ≠ .phi
  ending : tail = [] ∧ (Passable (f.instsAt s) → g.next? b = f.next? s) ∨
    ∃ n, tail = [.jump n] ∧ f.next? s = some n
  only : (f.blockAt b).succs = [s]
  single : (f.blockAt s).preds = [b]
  other : s ≠ b
  first : f.entry? ≠ some s

section Straightens

theorem Straightens.writes (h : Straightens f b s head) :
    writesOf (f.instsAt b) = writesOf head := by
  cases h with
  | falls same => rw [same]
  | jumps l j l' split same op =>
    have none : j.writes = [] := Inst.writes_eq_nil (.inl (by rw [op]; rfl))
    rw [split, same, writesOf_append, writesOf_append, writesOf_cons, none, List.nil_append]

private theorem Straightens.sub (h : Straightens f b s head) : head.Sublist (f.instsAt b) := by
  cases h with
  | falls same => rw [same]
  | jumps l j l' split same =>
    rw [split, same]
    exact (List.Sublist.refl l).append (List.sublist_cons_self j l')

theorem Straightens.leaves (h : Straightens f b s head)
    (inner : ∀ x ∈ head, x.op.isTerminator = false) :
    ∃ pre, f.Leaves b pre s ∧ writesOf pre = writesOf head := by
  have pass := passable_of_inner inner
  cases h with
  | falls same next => exact ⟨head, .inr ⟨⟨same ▸ pass, next⟩, same.symm⟩, rfl⟩
  | jumps l j l' split same op free target markers =>
    rw [same, Passable.append] at pass
    refine ⟨l, .inl ⟨pass.1, j, l', split, List.mem_of_head? target⟩, ?_⟩
    rw [same, writesOf_append, writesOf_debug markers, List.append_nil]

private theorem Straightens.place (h : Straightens f b s head) {pre post : List Inst} {x : Inst}
    (split : head = pre ++ x :: post) (reads : x.reads ≠ []) : ∃ post', f.instsAt b = pre ++ x :: post' := by
  cases h with
  | falls same => exact ⟨post, same.trans split⟩
  | jumps l j l' code same op free target markers =>
    rw [same] at split
    have real : x.op.isDebug = false := by
      cases debug : x.op.isDebug with
      | false => rfl
      | true =>
        rw [Inst.reads, if_pos (.inr debug)] at reads
        exact absurd rfl reads
    have front : x ∉ l' := fun mem => by
      rw [markers x mem] at real
      cases real
    rcases split_append split with ⟨post', rfl⟩ | ⟨inside, rfl, behind⟩
    · exact ⟨post' ++ j :: l', by rw [code]; simp⟩
    · exact absurd (by rw [behind]; simp) front

private theorem Straightens.departs (h : Straightens f b s head) {V : Type} {m : Machine V} {σ σ' : Store V}
    (run : m.run head σ = .on σ') : f.depart b (m.run (f.instsAt b) σ) = .arrive b (some s) σ' := by
  cases h with
  | falls same next =>
    rw [same, run]
    unfold depart
    simp only
    rw [next]
  | jumps l j l' split same op free target markers =>
    rw [same, Machine.run_append] at run
    rw [split, Machine.run_append]
    cases first : m.run l σ with
    | on τ =>
      rw [first, Exit.andThen_on, Machine.run_debug markers] at run
      cases run
      rw [Exit.andThen_on, Machine.run, Machine.execute_jump op free, target]
      rfl
    | leave | ret =>
      rw [first] at run
      cases run

end Straightens

def movedTo (s b : BlockId) : Option BlockId → Option BlockId := Option.map fun p => if p = s then b else p

private theorem relabel_follows (l : List Inst) : ∀ x ∈ l, x.Follows (fun c => c) (x.relabel s b) :=
  fun x _ => Inst.follows_relabel x

section Merges

variable (h : Merges b s head tail f g)

include h

private theorem Merges.into (sound : f.Sound) (edge : s ∈ (f.blockAt c).succs) : c = b := by
  rw [sound.mutual_ends, h.single] at edge
  simpa using edge

private theorem Merges.live (sound : f.Sound) : (f.blockAt b).dead = false ∧ (f.blockAt s).dead = false := by
  have edge : s ∈ (f.blockAt b).succs := by simp [h.only]
  exact ⟨sound.toMeshed.live edge, sound.live b s edge⟩

private theorem Merges.laid (sound : f.Sound) : c ∈ g.layout ↔ c ≠ s ∧ c ∈ f.layout := by
  rw [h.layout, sound.nodup.mem_erase_iff]

private theorem Merges.stays (sound : f.Sound) (other : c ≠ b) (leads : f.GoesTo c t) : t ≠ s := by
  rintro rfl
  exact other (h.into sound (sound.edges c t leads))

private theorem Merges.next? (sound : f.Sound) (hc : c ∈ f.layout) (away : c ≠ s) (other : c ≠ b)
    (pass : Passable (f.instsAt c)) : g.next? c = f.next? c := by
  obtain ⟨t, next⟩ := sound.closed c hc pass
  have stays := h.stays sound other ⟨_, .inr ⟨⟨pass, next⟩, rfl⟩⟩
  rw [next]
  refine sound.toMeshed.next?_of_sub h.guided.toMeshed ?_ ((h.laid sound).mpr ⟨away, hc⟩)
    ((h.laid sound).mpr ⟨stays, (next?_mem next).2⟩) next
  rw [h.layout]
  exact List.erase_sublist

private theorem Merges.entry? (sound : f.Sound) : g.entry? = f.entry? := by
  have named : s ≠ -1 := by
    rintro rfl
    cases (h.live sound).2
  have first := h.first
  unfold Procedure.entry? at first ⊢
  rw [h.layout]
  cases same : f.layout with
  | nil => rfl
  | cons c rest =>
    rw [same] at first
    have away : c ≠ s := by
      rintro rfl
      exact first (if_neg named)
    rw [List.erase_cons_tail (by simpa using away)]
    rfl

/-- Code is left where it was left, and `b` where `s` was. -/
theorem Merges.leaves (sound : f.Sound) {pre : List Inst} (leaves : g.Leaves c pre t) :
    (c ≠ b ∧ c ≠ s ∧ ∃ pre', f.Leaves c pre' t ∧ writesOf pre' = writesOf pre) ∨
      c = b ∧ ∃ pre', f.Leaves s pre' t ∧ writesOf head ++ writesOf pre' = writesOf pre := by
  by_cases gone : c = s
  · subst gone
    rcases leaves with branch | ⟨⟨-, next⟩, -⟩
    · rw [h.gone] at branch
      exact absurd branch not_branches_nil
    · exact absurd rfl ((h.laid sound).mp (next?_mem next).1).1
  by_cases here : c = b
  · subst here
    refine .inr ⟨rfl, ?_⟩
    have none : ∀ x ∈ head, x.targets = [] := fun x mem => by
      have inner := h.inner x mem
      refine (sound.regular c x (h.straight.sub.subset mem)).plain ?_ ?_ ?_ <;> intro op <;>
        rw [op] at inner <;> cases inner
    rcases leaves with branch | ⟨⟨pass, next⟩, rfl⟩
    · rw [h.here] at branch
      obtain ⟨pre', u, branch, rfl, same⟩ := branches_follows (relabel_follows _) branch
      rw [same]
      rcases branches_append.mp branch with inside | ⟨-, pre'', rfl, behind⟩
      · exact absurd inside (not_branches_of_targets none)
      · rw [writesOf_append]
        rcases branches_append.mp behind with inside | ⟨pass, last, rfl, jump⟩
        · exact ⟨pre'', .inl inside, rfl⟩
        · rcases h.ending with ⟨empty, -⟩ | ⟨n, only, next⟩
          · rw [empty] at jump
            exact absurd jump not_branches_nil
          · rw [only] at jump
            rcases branches_cons.mp jump with ⟨rfl, target⟩ | ⟨-, -, ends, -⟩
            · have same : t = n := by simpa [Inst.targets, Inst.jump, Operand.block?] using target
              rw [same, List.append_nil]
              exact ⟨_, .inr ⟨⟨pass, next⟩, rfl⟩, rfl⟩
            · cases ends
    · rw [h.here, passable_follows (relabel_follows _), Passable.append, Passable.append] at pass
      rw [h.here, writesOf_follows (relabel_follows _), writesOf_append, writesOf_append]
      rcases h.ending with ⟨empty, goes⟩ | ⟨n, only, -⟩
      · rw [goes pass.2.1] at next
        refine ⟨f.instsAt s, .inr ⟨⟨pass.2.1, next⟩, rfl⟩, ?_⟩
        rw [empty]
        simp [writesOf]
      · have ends := pass.2.2 (.jump n) (by rw [only]; simp)
        cases ends
  · refine .inl ⟨here, gone, ?_⟩
    rcases leaves with branch | ⟨⟨pass, next⟩, rfl⟩
    · rw [h.others c here gone] at branch
      obtain ⟨pre', u, old, rfl, same⟩ := branches_follows (relabel_follows _) branch
      exact ⟨pre', .inl old, same.symm⟩
    · rw [h.others c here gone] at pass ⊢
      have pass := (passable_follows (relabel_follows _)).mp pass
      have laid := ((h.laid sound).mp (next?_mem next).1).2
      rw [h.next? sound laid gone here pass] at next
      exact ⟨f.instsAt c, .inr ⟨⟨pass, next⟩, rfl⟩, (writesOf_follows (relabel_follows _)).symm⟩

private theorem Merges.arrives (sound : f.Sound) (way : g.Arrives source c rs) :
    c ≠ s ∧ ∃ source', source = movedTo s b source' ∧ f.Arrives source' c rs := by
  induction way with
  | entry first =>
    rw [h.entry? sound] at first
    refine ⟨?_, none, rfl, .entry first⟩
    rintro rfl
    exact h.first first
  | @edge source c t rs pre _ leaves ih =>
    obtain ⟨-, source', -, way⟩ := ih
    rcases h.leaves sound leaves with ⟨here, gone, pre', old, same⟩ | ⟨rfl, pre', old, same⟩
    · rw [← same]
      refine ⟨h.stays sound here ⟨pre', old⟩, some c, ?_, way.edge old⟩
      simp [movedTo, gone]
    · obtain ⟨before, first, writes⟩ := h.straight.leaves h.inner
      rw [← same, ← List.append_assoc, ← writes]
      refine ⟨h.stays sound h.other ⟨pre', old⟩, some s, ?_, (way.edge first).edge old⟩
      simp [movedTo]

private theorem Merges.value (sound : f.Sound) (way : f.Arrives source c rs) (away : c ≠ s) {z : Inst}
    (mem : z ∈ f.instsAt c) (phi : z.op = .phi) :
    (movedTo s b source).bind (z.relabel s b).phiValue? = source.bind z.phiValue? := by
  cases source with
  | none => rfl
  | some p =>
    have none : c ∉ (f.blockAt b).succs := by
      rw [h.only, List.mem_singleton]
      exact away
    refine Inst.phiValue?_relabel phi ?_ ?_
    · rw [sound.sources c z mem phi, ← sound.mutual_ends]
      exact none
    · rintro rfl
      exact none (sound.edges p c way.leads.1)

theorem Merges.writes : writesOf (g.instsAt b) = writesOf (f.instsAt b) ++ writesOf (f.instsAt s) := by
  have none : writesOf tail = [] := by
    rcases h.ending with ⟨rfl, -⟩ | ⟨n, rfl, -⟩ <;> rfl
  rw [h.here, writesOf_follows (relabel_follows _), writesOf_append, writesOf_append, none,
    List.append_nil, h.straight.writes]

private theorem Merges.written {r : Reg} (mem : r ∈ writesOf (g.instsAt c)) :
    ∃ a, r ∈ writesOf (f.instsAt a) ∧ c = if a = s then b else a := by
  by_cases gone : c = s
  · rw [gone, h.gone] at mem
    cases mem
  · by_cases here : c = b
    · rw [here, h.writes, List.mem_append] at mem
      rcases mem with mem | mem
      · exact ⟨b, mem, by rw [if_neg (Ne.symm h.other), here]⟩
      · exact ⟨s, mem, by rw [if_pos rfl, here]⟩
    · rw [h.others c here gone, writesOf_follows (relabel_follows _)] at mem
      exact ⟨c, mem, (if_neg gone).symm⟩

private theorem Merges.mem_phi {z : Inst} (mem : z ∈ g.instsAt c) (phi : z.op = .phi) :
    c ≠ s ∧ ∃ y ∈ f.instsAt c, y.op = .phi ∧ z = y.relabel s b := by
  by_cases gone : c = s
  · rw [gone, h.gone] at mem
    cases mem
  · refine ⟨gone, ?_⟩
    by_cases here : c = b
    · rw [here, h.here] at mem
      obtain ⟨y, there, rfl⟩ := List.mem_map.mp mem
      have phi : y.op = .phi := (Inst.follows_relabel y).op.symm.trans phi
      rw [List.mem_append, List.mem_append] at there
      rcases there with there | there | there
      · exact ⟨y, here ▸ h.straight.sub.subset there, phi, rfl⟩
      · exact absurd phi (h.settled y there)
      · rcases h.ending with ⟨rfl, -⟩ | ⟨n, rfl, -⟩
        · cases there
        · rw [List.mem_singleton.mp there] at phi
          cases phi
    · rw [h.others c here gone] at mem
      obtain ⟨y, there, rfl⟩ := List.mem_map.mp mem
      exact ⟨y, there, (Inst.follows_relabel y).op.symm.trans phi, rfl⟩

private theorem Merges.reads (sound : f.Sound) {pre post : List Inst} {x : Inst} (way : g.Arrives source c rs)
    (split : g.instsAt c = pre ++ x :: post) (pass : Passable pre) {r : Reg} (reads : r ∈ x.reads)
    (written : f.Writes r) : r ∈ rs ++ writesOf pre := by
  obtain ⟨gone, source', -, old⟩ := h.arrives sound way
  by_cases here : c = b
  · subst here
    rw [h.here] at split
    obtain ⟨pre', y, post', place, -, -, follows, pass', same⟩ := split_follows (relabel_follows _) split
    rw [follows.reads] at reads
    rw [same]
    have pass := pass' pass
    rcases split_append place with ⟨post', inside⟩ | ⟨pre', rfl, behind⟩
    · obtain ⟨post'', place⟩ := h.straight.place inside (List.ne_nil_of_mem reads)
      exact sound.strict.reads old place pass r reads written
    · -- the place was in `s`
      obtain ⟨before, first, writes⟩ := h.straight.leaves h.inner
      rw [writesOf_append, ← writes, ← List.append_assoc]
      rw [Passable.append] at pass
      rcases split_append behind with ⟨post', inside⟩ | ⟨last, rfl, jump⟩
      · exact sound.strict.reads (old.edge first) inside pass.2 r reads written
      · exfalso
        rcases h.ending with ⟨rfl, -⟩ | ⟨n, rfl, -⟩
        · simp at jump
        · have only : y = .jump n := by
            cases last with
            | nil =>
              cases jump
              rfl
            | cons z last => simp at jump
          rw [only] at reads
          cases reads
  · rw [h.others c here gone] at split
    obtain ⟨pre', y, post', place, -, -, follows, pass', same⟩ := split_follows (relabel_follows _) split
    rw [follows.reads] at reads
    rw [same]
    exact sound.strict.reads old place (pass' pass) r reads written

private theorem Merges.strict (sound : f.Sound) : g.Strict := by
  have writes : ∀ {r}, g.Writes r → f.Writes r := by
    rintro r ⟨c, mem⟩
    obtain ⟨a, mem, -⟩ := h.written mem
    exact ⟨a, mem⟩
  refine ⟨fun c d r hc hd => ?_, fun c => ?_, fun way split pass r reads written =>
    h.reads sound way split pass reads (writes written), ?_⟩
  · obtain ⟨a, old, rfl⟩ := h.written hc
    obtain ⟨a', old', rfl⟩ := h.written hd
    rw [sound.strict.alone a a' r old old']
  · by_cases gone : c = s
    · rw [gone, h.gone]
      exact List.nodup_nil
    · by_cases here : c = b
      · rw [here, h.writes]
        refine (sound.strict.once b).append (sound.strict.once s) fun r hb hs => h.other ?_
        exact sound.strict.alone s b r hs hb
      · rw [h.others c here gone, writesOf_follows (relabel_follows _)]
        exact sound.strict.once c
  · intro p c rs z r label way mem phi value written
    obtain ⟨gone, y, there, phi', rfl⟩ := h.mem_phi mem phi
    obtain ⟨-, source', moved, old⟩ := h.arrives sound way
    have same := h.value sound old gone there phi'
    rw [← moved, Option.bind_some, value] at same
    cases source' with
    | none => cases moved
    | some q => exact sound.strict.inputs old there phi' same.symm (writes written)

private theorem Merges.sound (sound : f.Sound) : g.Sound := by
  refine ⟨h.guided, h.sited, fun c z mem => ?_, fun c t leads => ?_, fun c z mem phi p => ?_,
    fun c hc pass => ?_, h.strict sound⟩
  · by_cases gone : c = s
    · rw [gone, h.gone] at mem
      cases mem
    · by_cases here : c = b
      · rw [here, h.here] at mem
        obtain ⟨y, there, rfl⟩ := List.mem_map.mp mem
        refine Inst.Regular.relabel ?_ s b
        rw [List.mem_append, List.mem_append] at there
        rcases there with there | there | there
        · exact sound.regular b y (h.straight.sub.subset there)
        · exact sound.regular s y there
        · rcases h.ending with ⟨rfl, -⟩ | ⟨n, rfl, next⟩
          · cases there
          · rw [List.mem_singleton.mp there]
            exact Inst.regular_jump (next?_eq_some.mp next).2
      · rw [h.others c here gone] at mem
        obtain ⟨y, there, rfl⟩ := List.mem_map.mp mem
        exact (sound.regular c y there).relabel s b
  · obtain ⟨pre, leaves⟩ := leads
    rw [h.succs]
    rcases h.leaves sound leaves with ⟨here, gone, pre', old, -⟩ | ⟨here, pre', old, -⟩
    · rw [if_neg here]
      exact ⟨gone, sound.edges c t ⟨pre', old⟩⟩
    · rw [if_pos here]
      exact sound.edges s t ⟨pre', old⟩
  · obtain ⟨gone, y, there, phi', rfl⟩ := h.mem_phi mem phi
    have sources := fun q => (sound.sources c y there phi' q).trans (sound.mutual_ends q c).symm
    rw [Inst.sources_relabel phi', sources, sources, ← h.guided.mutual_ends, h.succs]
    by_cases here : p = b
    · subst here
      rw [if_pos rfl, h.only, List.mem_singleton]
      constructor
      · rintro (⟨same, -⟩ | ⟨-, edge⟩)
        · exact absurd same gone
        · exact edge
      · exact fun edge => .inr ⟨rfl, edge⟩
    · rw [if_neg here]
      constructor
      · rintro (⟨edge, away⟩ | ⟨same, -⟩)
        · exact ⟨away, edge⟩
        · exact absurd same here
      · exact fun both => .inl ⟨both.2, both.1⟩
  · obtain ⟨gone, laid⟩ := (h.laid sound).mp hc
    by_cases here : c = b
    · rw [here, h.here, passable_follows (relabel_follows _), Passable.append, Passable.append] at pass
      rcases h.ending with ⟨-, goes⟩ | ⟨n, rfl, -⟩
      · rw [here, goes pass.2.1]
        exact sound.closed s ((sound.laid s).mpr (h.live sound).2) pass.2.1
      · have ends := pass.2.2 (.jump n) (by simp)
        cases ends
    · rw [h.others c here gone, passable_follows (relabel_follows _)] at pass
      rw [h.next? sound laid gone here pass]
      exact sound.closed c laid pass

section Simulation

variable {V : Type} {m : Machine V}

inductive Merged (f : Procedure) (s b : BlockId) : Snapshot V → Snapshot V → Prop
  | block {source : Option BlockId} {c : BlockId} {rs : List Reg} {σ : Store V} :
      f.Arrives source c rs → c ≠ s → Merged f s b ⟨.block source c, σ⟩ ⟨.block (movedTo s b source) c, σ⟩
  | returned (values : List V) (σ : Store V) : Merged f s b ⟨.returned values, σ⟩ ⟨.returned values, σ⟩
  | nowhere (σ : Store V) : Merged f s b ⟨.nowhere, σ⟩ ⟨.nowhere, σ⟩

private theorem Merges.merged_arrive (sound : f.Sound) (way : f.Arrives source c rs) (other : c ≠ b)
    {u : Option BlockId} (leads : ∀ t ∈ u, f.GoesTo c t) (σ : Store V) :
    Merged f s b (.arrive c u σ) (.arrive (if c = s then b else c) u σ) := by
  cases u with
  | none => exact .nowhere σ
  | some t =>
    obtain ⟨pre, leaves⟩ := leads t rfl
    exact .block (way.edge leaves) (h.stays sound other ⟨pre, leaves⟩)

private theorem Merges.enters_here (sound : f.Sound) (way : f.Arrives source b rs) (file : Reg → V) :
    m.enter (g.instsAt b) (movedTo s b source) file = m.enter (f.instsAt b) source file := by
  have late : (f.instsAt s ++ tail).filter (fun x => decide (x.op = .phi)) = [] := by
    refine List.filter_eq_nil_iff.mpr fun x mem phi => ?_
    rw [decide_eq_true_iff] at phi
    rcases List.mem_append.mp mem with mem | mem
    · exact h.settled x mem phi
    · rcases h.ending with ⟨rfl, -⟩ | ⟨n, rfl, -⟩
      · cases mem
      · rw [List.mem_singleton.mp mem] at phi
        cases phi
  have early : (f.instsAt b).filter (fun x => decide (x.op = .phi)) =
      head.filter fun x => decide (x.op = .phi) := by
    cases h.straight with
    | falls same => rw [same]
    | jumps l j l' split same op =>
      rw [split, same, List.filter_append, List.filter_append, List.filter_cons_of_neg (by simp [op])]
  have phis : ((f.instsAt b).map (Inst.relabel s b)).filter (fun x => decide (x.op = .phi)) =
      (g.instsAt b).filter fun x => decide (x.op = .phi) := by
    have same : (fun x : Inst => decide (x.op = .phi)) ∘ Inst.relabel s b =
        fun x => decide (x.op = .phi) := by
      funext x
      simp only [Function.comp_apply, (Inst.follows_relabel x).op]
    rw [h.here, List.filter_map, List.filter_map, same, early, List.filter_append, late, List.append_nil]
  rw [← Machine.enter_congr phis]
  exact Machine.enter_follows (relabel_follows _)
    (fun z mem phi => h.value sound way (Ne.symm h.other) mem phi) file

private theorem Merges.merged_here (sound : f.Sound) (way : f.Arrives source b rs) (σ : Store V) :
    Merged f s b ((f.step m)^[2] ⟨.block source b, σ⟩) (g.step m ⟨.block (movedTo s b source) b, σ⟩) := by
  obtain ⟨pre, leaves, -⟩ := h.straight.leaves h.inner
  have onward := way.edge leaves
  rw [Function.iterate_succ_apply, Function.iterate_one]
  have first : ∃ τ, m.run head { σ with file := m.enter (f.instsAt b) source σ.file } = .on τ :=
    Machine.run_inner h.inner
  obtain ⟨τ, first⟩ := first
  have arrived : f.step m ⟨.block source b, σ⟩ = ⟨.block (some b) s, τ⟩ := by
    unfold step
    simp only
    exact h.straight.departs first
  have entered : m.enter (f.instsAt s) (some b) τ.file = τ.file := by
    funext r
    exact Machine.enter_of_not_mem fun x mem phi => absurd phi (h.settled x mem)
  have second : f.step m ⟨.block (some b) s, τ⟩ = f.depart s (m.run (f.instsAt s) τ) := by
    unfold step
    simp only
    rw [entered]
  have both : g.step m ⟨.block (movedTo s b source) b, σ⟩ =
      g.depart b ((m.run (f.instsAt s) τ).andThen (m.run tail)) := by
    unfold step
    simp only
    rw [h.enters_here sound way, h.here, Machine.run_follows (relabel_follows _), Exit.lead_id,
      Machine.run_append, first, Exit.andThen_on, Machine.run_append]
  rw [arrived, second, both]
  have moved : (if s = s then b else s) = b := if_pos rfl
  cases run : m.run (f.instsAt s) τ with
  | on τ' =>
    have pass := Machine.passable_of_run run
    have arrives := h.merged_arrive sound onward h.other
      (fun t next => ⟨_, leaves_of_falls run next⟩) τ'
    rw [moved] at arrives
    rcases h.ending with ⟨rfl, goes⟩ | ⟨n, rfl, next⟩
    · have ends : g.depart b ((Exit.on τ').andThen (m.run [])) = .arrive b (f.next? s) τ' := by
        rw [← goes pass]
        rfl
      rw [ends]
      exact arrives
    · have ends : g.depart b ((Exit.on τ').andThen (m.run [.jump n])) = .arrive b (f.next? s) τ' := by
        rw [next]
        rfl
      rw [ends]
      exact arrives
  | leave u τ' =>
    have arrives := h.merged_arrive sound onward h.other (u := u) (fun t target => by
      cases target
      exact leaves_of_run run) τ'
    rw [moved] at arrives
    exact arrives
  | ret values τ' => exact .returned values τ'

private theorem Merges.merged_step (sound : f.Sound) {c d : Snapshot V} (related : Merged f s b c d) :
    ∃ n, Merged f s b ((f.step m)^[n + 1] c) (g.step m d) := by
  cases related with
  | returned values σ => exact ⟨0, .returned values σ⟩
  | nowhere σ => exact ⟨0, .nowhere σ⟩
  | @block source c rs σ way away =>
    by_cases here : c = b
    · subst here
      exact ⟨1, h.merged_here sound way σ⟩
    · refine ⟨0, ?_⟩
      have laid := sound.arrives_laid way
      have enters : m.enter (g.instsAt c) (movedTo s b source) σ.file =
          m.enter (f.instsAt c) source σ.file := by
        rw [h.others c here away]
        exact Machine.enter_follows (relabel_follows _) (fun z mem phi => h.value sound way away mem phi) _
      have runs : ∀ τ : Store V, m.run (g.instsAt c) τ = m.run (f.instsAt c) τ := by
        intro τ
        rw [h.others c here away, Machine.run_follows (relabel_follows _), Exit.lead_id]
      simp only [Function.iterate_one, Nat.zero_add, step]
      rw [enters, runs]
      generalize ({ σ with file := m.enter (f.instsAt c) source σ.file } : Store V) = τ
      have moved : (if c = s then b else c) = c := if_neg away
      cases run : m.run (f.instsAt c) τ with
      | on τ' =>
        unfold depart
        simp only
        rw [h.next? sound laid away here (Machine.passable_of_run run)]
        have := h.merged_arrive sound way here (fun t next => ⟨_, leaves_of_falls run next⟩) τ'
        rwa [moved] at this
      | leave u τ' =>
        have := h.merged_arrive sound way here (u := u) (fun t target => by
          cases target
          exact leaves_of_run run) τ'
        rwa [moved] at this
      | ret values τ' => exact .returned values τ'

private theorem Merges.alike (sound : f.Sound) : Alike f g := by
  refine alike_of_simulates fun V m => ⟨Merged f s b, fun file => ?_, fun c d => h.merged_step sound,
    ?_, ?_⟩
  · unfold start
    rw [h.entry? sound]
    cases first : f.entry? with
    | none => exact .nowhere _
    | some c =>
      refine .block (.entry first) ?_
      rintro rfl
      exact h.first first
  · rintro c d (way | values | σ) <;> rfl
  · rintro c d (way | values | σ) <;> rfl

end Simulation

end Merges

/-- The code of a block without phis moves to the end of another one. -/
private theorem Sited.moved (sited : f.Sited) (other : s ≠ b)
    (plain : ∀ x ∈ f.instsAt s, x.op ≠ .phi)
    (h : f.moveCode b s 0 (f.blockAt s).code.length = .ok g) : g.Sited ∧
      (∀ c, g.instsAt c =
        if c = s then [] else if c = b then f.instsAt b ++ f.instsAt s else f.instsAt c) ∧
      SameLinks f g := by
  have moved := moved_moveCode other h
  have insts : ∀ c, g.instsAt c =
      if c = s then [] else if c = b then f.instsAt b ++ f.instsAt s else f.instsAt c := by
    intro c
    unfold instsAt
    rw [moved.code, inst?_congr moved.inst]
    split
    · rfl
    · split
      · rw [List.filterMap_append]
      · rfl
  refine ⟨⟨fun c i mem => ?_, fun c => ?_, fun c d i hc hd => ?_, fun c => ?_,
    sited.quiet.congr moved.sharing fun e _ => moved.inst e.1⟩, insts, moved.links⟩
  · obtain ⟨a, old, -⟩ := moved.origin other mem
    rw [moved.inst]
    exact sited.found a i old
  · rw [moved.code]
    split
    · exact List.nodup_nil
    · split
      · exact (sited.single b).append (sited.single s) fun i hb hs => other (sited.alone s b i hs hb)
      · exact sited.single c
  · obtain ⟨a, old, rfl⟩ := moved.origin other hc
    obtain ⟨a', old', rfl⟩ := moved.origin other hd
    rw [sited.alone a a' i old old']
  · rw [insts]
    split
    · exact .nil
    · split
      · refine List.pairwise_append.mpr ⟨sited.ordered b, sited.ordered s, fun x _ y mem phi => ?_⟩
        exact absurd phi (plain y mem)
      · exact sited.ordered c

private theorem retouches_takeEdges (sited : f.Sited) (distinct : (f.blockAt s).succs.Nodup)
    (h : takeEdges f b s = .ok g) : Retouches
      (fun c x => if c ∈ (f.blockAt s).succs then x.relabel s b else x) f g := by
  obtain ⟨succs, asked, h⟩ := bind_ok_iff.mp h
  obtain ⟨blk, found, same⟩ := bind_ok_iff.mp asked
  cases same
  rw [← blockAt_eq found] at h
  have all := retouches_blocks (u := fun x => { x with uses := renameLabels s b x.uses })
    (fun _ => rfl) (fun sited run => by
      obtain ⟨k₁, renamed, rest⟩ := bind_ok_iff.mp run
      obtain ⟨k₂, removed, added⟩ := bind_ok_iff.mp rest
      exact ((retouches_renamePhiInputs sited renamed).trans (retouches_removeSucc removed)).trans
        (retouches_addSucc added)) distinct sited h
  refine all.congr fun c x _ => ?_
  rw [Inst.relabel, ite_and]

end Procedure

namespace Cleanup

open Procedure

variable {f g k : Procedure} {b s : BlockId} {how : Straight}

def Straight.opened (how : Straight) (code : List InstId) : List InstId :=
  match how with
  | .falls => code
  | .jumps position => code.take position ++ code.drop (position + 1)

private theorem openEnd_ok (known : f.block b = .ok (f.blockAt b)) (h : openEnd f b how = .ok g) :
    g = f.setCode b (how.opened (f.blockAt b).code) := by
  cases how with
  | falls =>
    cases h
    exact (setCode_self known).symm
  | jumps position =>
    obtain ⟨-, -, -, rfl⟩ := eraseCode_ok h
    rfl

private theorem Straight.Leads.straightens (firm : f.Firm) (leads : how.Leads f b s) :
    (how.opened (f.blockAt b).code).Sublist (f.blockAt b).code ∧
      Straightens f b s ((how.opened (f.blockAt b).code).filterMap f.inst?) ∧
      ∀ x ∈ (how.opened (f.blockAt b).code).filterMap f.inst?, x.op.isTerminator = false := by
  have inner : ∀ {code : List InstId}, (∀ τ ∈ f.traitsOf code, τ.isExit = false) →
      ∀ x ∈ code.filterMap f.inst?, x.op.isTerminator = false := by
    intro code none x mem
    obtain ⟨i, hi, found⟩ := List.mem_filterMap.mp mem
    rw [← Inst.isExit_trait]
    exact none _ (mem_traitsOf.mpr ⟨i, hi, x, inst?_eq_some.mp found, rfl⟩)
  cases how with
  | falls => exact ⟨List.Sublist.refl _, .falls rfl leads.2, inner leads.1⟩
  | jumps position =>
    obtain ⟨before, i, y, after, split, rfl, found, trait, markers, none⟩ := leads
    have same : Straight.opened (.jumps before.length) (f.blockAt b).code = before ++ after := by
      unfold Straight.opened
      rw [split]
      simp
    rw [same]
    obtain ⟨z, there, able⟩ := firm.able b i (by simp [split])
    cases found.symm.trans there
    obtain ⟨op, free, target⟩ := Inst.jump_spec able trait
    refine ⟨?_, .jumps (before.filterMap f.inst?) y (after.filterMap f.inst?) ?_ ?_ op free target
      (debug_of_traits markers), inner none⟩
    · rw [split]
      exact (List.Sublist.refl before).append (List.sublist_cons_self i after)
    · rw [instsAt, split, List.filterMap_append, List.filterMap_cons_some (inst?_eq_some.mpr found)]
    · rw [List.filterMap_append]

private theorem Straight.Leads.resolves (firm : f.Firm) (h : Resolves s f g) (other : s ≠ b)
    (leads : how.Leads f b s) : how.Leads g b s := by
  have code := h.code b (Ne.symm other)
  cases how with
  | falls =>
    refine ⟨fun τ mem => leads.1 τ ?_, by rw [h.links.next?]; exact leads.2⟩
    rwa [h.kin.traits firm code] at mem
  | jumps position =>
    obtain ⟨before, i, y, after, split, position, found, trait, markers, none⟩ := leads
    obtain ⟨z, there, like⟩ := h.kin.inst i y found
    have able : ∀ {l : List InstId}, (∀ i ∈ l, i ∈ (f.blockAt b).code) → f.AbleCode l := fun sub =>
      (firm.able b).of_sub sub
    refine ⟨before, i, z, after, code.trans split, position, there, like.trait.trans trait, ?_, ?_⟩
    · rw [h.kin.traitsOf (able fun i mem => by rw [split]; simp [mem])]
      exact markers
    · rw [h.kin.traitsOf (able fun i mem => by
        rw [split]
        rw [List.mem_append] at mem
        rw [List.mem_append, List.mem_cons]
        exact mem.imp id .inr)]
      exact none

private theorem fused_view {m₁ m₂ m₃ : Procedure} {code : List InstId} (sound : f.Sound)
    (sub : code.Sublist (f.blockAt b).code) (succs : (f.blockAt b).succs = [s])
    (preds : (f.blockAt s).preds = [b]) (other : s ≠ b) (plain : ∀ x ∈ f.instsAt s, x.op ≠ .phi)
    (moved : (f.setCode b code).moveCode b s 0 ((f.setCode b code).blockAt s).code.length = .ok m₁)
    (taken : takeEdges m₁ b s = .ok m₂) (removed : m₂.removeSucc b s = .ok m₃)
    (gone : m₃.removeBlock s = .ok g) :
    g.Firm ∧ g.Sited ∧ g.layout = f.layout.erase s ∧ ∀ c, g.instsAt c = if c = s then [] else
      (if c = b then code.filterMap f.inst? ++ f.instsAt s else f.instsAt c).map (Inst.relabel s b) := by
  have edge : s ∈ (f.blockAt b).succs := by simp [succs]
  have hb := sound.toMeshed.live edge
  have hs := sound.live b s edge
  have known := block_of_live hb
  have links := sameLinks_setCode known code
  have firm := sound.toFirm.setCode known fun i => (sub.subset ·)
  have here : ∀ c, (f.setCode b code).instsAt c =
      if c = b then code.filterMap f.inst? else f.instsAt c := instsAt_setCode known code
  have hb₀ : ((f.setCode b code).blockAt b).dead = false := by rw [links.dead]; exact hb
  have hs₀ : ((f.setCode b code).blockAt s).dead = false := by rw [links.dead]; exact hs
  have live₀ : ∀ c, ∀ t ∈ ((f.setCode b code).blockAt c).succs,
      ((f.setCode b code).blockAt t).dead = false := by
    intro c t edge
    rw [links.succs] at edge
    rw [links.dead]
    exact sound.live c t edge
  have fuses := (fuses_gives firm live₀ (by rw [links.succs, succs]) (by rw [links.preds, preds])
    other).holds g (bind_ok_iff.mpr ⟨m₁, moved, bind_ok_iff.mpr ⟨m₂, taken, bind_ok_iff.mpr
      ⟨m₃, removed, gone⟩⟩⟩)
  obtain ⟨firm₁, -⟩ := (firm.moveCode hb₀ hs₀ other).holds m₁ moved
  obtain ⟨sited₁, insts₁, links₁⟩ := (sound.sited.setCode known sub).moved other
    (fun x mem => plain x (by rwa [here, if_neg other] at mem)) moved
  have succs₁ : (m₁.blockAt s).succs = (f.blockAt s).succs := by rw [links₁.succs, links.succs]
  have retouches := (retouches_takeEdges sited₁ (firm₁.succs s) taken).trans
    (retouches_removeSucc removed)
  have insts₁ : ∀ c, m₁.instsAt c = if c = s then [] else
      if c = b then code.filterMap f.inst? ++ f.instsAt s else f.instsAt c := by
    intro c
    rw [insts₁, here b, here s, if_pos rfl, if_neg other]
    split
    · rfl
    · split
      · rfl
      · rename_i away
        rw [here c, if_neg away]
  have origin : ∀ c, ∀ x ∈ m₁.instsAt c, x.Regular ∧ (x.op = .phi → x ∈ f.instsAt c) := by
    intro c x mem
    rw [insts₁] at mem
    split at mem
    · cases mem
    · split at mem
      · rename_i at_b
        subst at_b
        rcases List.mem_append.mp mem with mem | mem
        · have old : x ∈ f.instsAt c := (sub.filterMap f.inst?).subset mem
          exact ⟨sound.regular c x old, fun _ => old⟩
        · exact ⟨sound.regular s x mem, fun phi => absurd phi (plain x mem)⟩
      · exact ⟨sound.regular c x mem, fun _ => mem⟩
  -- a phi elsewhere takes nothing from `s`
  have relabels : Retouches (fun _ x => x.relabel s b) m₁ m₃ := by
    refine retouches.congr fun c x mem => ?_
    split
    · rfl
    · rename_i away
      obtain ⟨regular, old⟩ := origin c x mem
      refine (Inst.relabel_of_not_mem regular fun phi source => away ?_).symm
      rw [sound.sources c x (old phi) phi, ← sound.mutual_ends] at source
      rwa [succs₁]
  have sited₃ : m₃.Sited := relabels.sited sited₁ fun _ x _ => (Inst.follows_relabel x).op
  have firm₂ := ((takeEdges_gives firm₁ (by rw [links₁.dead]; exact hb₀)
    (by rw [links₁.dead]; exact hs₀) fun t edge => by
      rw [links₁.succs] at edge
      rw [links₁.dead]
      exact live₀ s t edge).holds m₂ taken).1.firm
  obtain ⟨meshed, without⟩ := removeBlock_view (firm₂.removeSucc removed).toMeshed gone
  have code_gone : (g.blockAt s).code = [] := (meshed.removed s without.gone).2
  refine ⟨fuses.firm, sited₃.of_fewer without.inst (sharing_removeBlock gone) fun c => ?_,
    fuses.layout.trans (by rw [links.layout]), fun c => ?_⟩
  · by_cases at_s : c = s
    · rw [at_s, code_gone]
      exact List.nil_sublist _
    · rw [without.code c at_s]
  · split
    · rename_i at_s
      rw [at_s, instsAt, code_gone]
      rfl
    · rename_i at_s
      have stays : g.instsAt c = m₃.instsAt c := by
        rw [instsAt, instsAt, without.code c at_s, inst?_congr without.inst]
      rw [stays, relabels.instsAt, insts₁, if_neg at_s]

/-- A block is made to go on where control went on before. -/
structure Ends (b : BlockId) (next : Option BlockId) (tail : List Inst) (f g : Procedure) : Prop where
  sited : g.Sited
  here : g.instsAt b = f.instsAt b ++ tail
  others : ∀ c, c ≠ b → g.instsAt c = f.instsAt c
  ending : tail = [] ∧ (∀ n, next = some n → g.next? b = some n) ∨ ∃ n, tail = [.jump n] ∧ next = some n

private theorem ends_of_run {next : Option BlockId} (firm : f.Firm) (sited : f.Sited)
    (live : (f.blockAt b).dead = false) (run : (match next with
      | some n => if f.next? b = some n then return f else return (← f.append b (.jump n)).1
      | none => return f : Except Fault Procedure) = .ok g) : ∃ tail, Ends b next tail f g := by
  have known := block_of_live live
  cases next with
  | none =>
    cases run
    exact ⟨[], sited, (List.append_nil _).symm, fun _ _ => rfl, .inl ⟨rfl, fun n same => by cases same⟩⟩
  | some n =>
    simp only at run
    split at run
    · rename_i goes
      cases run
      refine ⟨[], sited, (List.append_nil _).symm, fun _ _ => rfl, .inl ⟨rfl, fun m same => ?_⟩⟩
      cases same
      exact goes
    · rw [append_eq known] at run
      cases run
      have split : (f.blockAt b).code = (f.blockAt b).code ++ [] := (List.append_nil _).symm
      have insts := instsAt_place (y := .jump n) firm known split
      refine ⟨[.jump n], sited.place firm known split ?_, ?_, fun c away => ?_, .inr ⟨n, rfl, rfl⟩⟩
      · refine List.pairwise_append.mpr ⟨sited.ordered b, List.pairwise_singleton _ _, fun x _ y mem phi => ?_⟩
        cases List.mem_singleton.mp mem
        cases phi
      · rw [insts, if_pos rfl]
        rfl
      · rw [insts, if_neg away]

private theorem Ends.relabel {next : Option BlockId} {tail : List Inst} (h : Ends b next tail f g) :
    tail.map (Inst.relabel s b) = tail := by
  rcases h.ending with ⟨rfl, -⟩ | ⟨n, rfl, -⟩ <;> rfl

/-- The part of `fuse` that follows once `s` is rid of its phis. -/
def splice (f : Procedure) (b s : BlockId) : Except Fault Procedure := do
  let next := if ← mayFallThrough f s then f.next? s else none
  let f ← f.moveCode b s 0 (← f.code s).length
  let f ← takeEdges f b s
  let f ← (← f.removeSucc b s).removeBlock s
  match next with
  | some n => if f.next? b = some n then return f else return (← f.append b (.jump n)).1
  | none => return f

private theorem fuse_eq (f : Procedure) (b s : BlockId) : fuse f b s = (do
    splice (← (← f.phis s).foldlM (fun f id => resolvePhi f s id) f) b s) :=
  rfl

/-- Taking in `s` is splicing once its phis are replaced: that could as well happen before the jump
to it is taken away. -/
private theorem absorb_resolves {isEntry : BlockId → Bool} (sound : f.Sound)
    (absorbable : Absorbable isEntry f b s how) (inner : f.entry? ≠ some s)
    (run : absorb f b s how = .ok g) : ∃ k, (k.Sound ∧ Alike f k) ∧ Resolves s f k ∧
      (∀ x ∈ k.instsAt s, x.op ≠ .phi) ∧ splice (k.setCode b (how.opened (k.blockAt b).code)) b s = .ok g := by
  have other := absorbable.other
  have edge : s ∈ (f.blockAt b).succs := by simp [absorbable.succs]
  have hs := sound.live b s edge
  have entered : b ∈ (f.blockAt s).preds := by simp [absorbable.preds]
  have only : ∀ p ∈ (f.blockAt s).preds, p = b := by simp [absorbable.preds]
  obtain ⟨f₁, opened, run⟩ := bind_ok_iff.mp run
  obtain rfl := openEnd_ok (block_of_live (sound.toMeshed.live edge)) opened
  rw [fuse_eq] at run
  obtain ⟨ids, asked, run⟩ := bind_ok_iff.mp run
  obtain ⟨f₂, resolved, run⟩ := bind_ok_iff.mp run
  rw [phis_setCode other] at asked
  obtain ⟨_, asked', k, settles, resolves⟩ := resolvePhis_gives sound.toFirm hs
  cases asked.symm.trans asked'
  cases (resolvePhis_setCode other settles).symm.trans resolved
  obtain ⟨rest, split, phis, -⟩ := sound.sited.phis asked
  have nodup : ids.Nodup := by
    have single := sound.sited.single s
    rw [split] at single
    exact (List.nodup_append.mp single).1
  have known : ∀ j, f.IsPhi s j ↔ j ∈ ids := by
    refine fun j => ⟨fun ⟨mem, x, found, phi⟩ => ?_, fun mem => ?_⟩
    · exact (sound.sited.mem_phis asked found).mpr ⟨mem, phi⟩
    · obtain ⟨x, found, phi⟩ := phis j mem
      exact ⟨((sound.sited.mem_phis asked found).mp mem).1, x, found, phi⟩
  obtain ⟨kept, -, none⟩ := resolvePhis_sound sound entered only inner nodup known k settles
  refine ⟨k, kept, resolves, fun x mem phi => ?_, ?_⟩
  · obtain ⟨i, placed, found⟩ := mem_instsAt.mp mem
    exact none i ⟨placed, x, found, phi⟩
  · rwa [resolves.code b (Ne.symm other)]

private theorem splice_view (sound : f.Sound) (succs : (f.blockAt b).succs = [s])
    (preds : (f.blockAt s).preds = [b]) (other : s ≠ b) (plain : ∀ x ∈ f.instsAt s, x.op ≠ .phi)
    {code : List InstId} (sub : code.Sublist (f.blockAt b).code)
    (run : splice (f.setCode b code) b s = .ok g) : ∃ m next tail, Ends b next tail m g ∧
      (∀ n, next = some n → f.next? s = some n) ∧ (Passable (f.instsAt s) → next = f.next? s) ∧
      ∀ c, m.instsAt c = if c = s then [] else
        (if c = b then code.filterMap f.inst? ++ f.instsAt s else f.instsAt c).map (Inst.relabel s b) := by
  have edge : s ∈ (f.blockAt b).succs := by simp [succs]
  have hb := sound.toMeshed.live edge
  have known := block_of_live hb
  have links := sameLinks_setCode known code
  have live : ((f.setCode b code).blockAt s).dead = false := by
    rw [links.dead]
    exact sound.live b s edge
  have firm := sound.toFirm.setCode known fun i => (sub.subset ·)
  obtain ⟨falls, asked, run⟩ := bind_ok_iff.mp run
  cases (mayFallThrough_eq live (firm.able s)).symm.trans asked
  obtain ⟨l, asked, run⟩ := bind_ok_iff.mp run
  cases (code_eq live).symm.trans asked
  obtain ⟨m₁, moved, run⟩ := bind_ok_iff.mp run
  obtain ⟨m₂, taken, run⟩ := bind_ok_iff.mp run
  obtain ⟨m₃, removed, run⟩ := bind_ok_iff.mp run
  obtain ⟨m, gone, run⟩ := bind_ok_iff.mp run
  obtain ⟨firm', sited, layout, insts⟩ := fused_view sound sub succs preds other plain moved taken
    removed gone
  have live' : (m.blockAt b).dead = false := by
    rw [← firm'.laid, layout, sound.nodup.mem_erase_iff]
    exact ⟨Ne.symm other, (sound.laid b).mpr hb⟩
  obtain ⟨tail, ends⟩ := ends_of_run firm' sited live' run
  refine ⟨m, _, tail, ends, fun n next => ?_, fun pass => ?_, insts⟩
  · split at next
    · rwa [links.next?] at next
    · cases next
  · rw [links.next?, if_pos]
    by_contra stops
    refine not_passable_of_runsOn (Bool.eq_false_iff.mpr stops) ?_
    rwa [instsAt_setCode known, if_neg other]

private theorem absorb_sound {isEntry : BlockId → Bool} (sound : f.Sound)
    (absorbable : Absorbable isEntry f b s how) (inner : f.entry? ≠ some s) :
    Holds (fun g => (g.Sound ∧ Alike f g) ∧ g.layout = f.layout.erase s) (absorb f b s how) := by
  intro g run
  have other := absorbable.other
  have absorbs := (absorb_gives sound.toGuided absorbable).holds g run
  obtain ⟨k, ⟨soundK, alike⟩, resolves, plain, spliced⟩ := absorb_resolves sound absorbable inner run
  have links := resolves.links
  have succs : (k.blockAt b).succs = [s] := by rw [links.succs, absorbable.succs]
  have preds : (k.blockAt s).preds = [b] := by rw [links.preds, absorbable.preds]
  have edge : s ∈ (k.blockAt b).succs := by simp [succs]
  obtain ⟨sub, straight, inside⟩ := (absorbable.leads.resolves sound.toFirm resolves other).straightens
    soundK.toFirm
  obtain ⟨m, next, tail, ends, goes, onward, insts⟩ := splice_view soundK succs preds other plain sub spliced
  have merges : Merges b s ((how.opened (k.blockAt b).code).filterMap k.inst?) tail k g := by
    refine ⟨absorbs.guided sound.toGuided absorbable, ends.sited, ?_, fun c t => ?_, straight, inside, ?_,
      fun c here away => ?_, ?_, plain, ?_, succs, preds, other, ?_⟩
    · rw [absorbs.layout, links.layout]
    · rw [absorbs.succs, links.succs, links.succs]
    · rw [ends.here, insts, if_neg (Ne.symm other), if_pos rfl, ← List.append_assoc,
        List.map_append, List.map_append, List.map_append, ends.relabel]
    · rw [ends.others c here, insts, if_neg away, if_neg here]
    · rw [ends.others s other, insts, if_pos rfl]
    · rcases ends.ending with ⟨rfl, falls⟩ | ⟨n, rfl, same⟩
      · refine .inl ⟨rfl, fun pass => ?_⟩
        obtain ⟨n, there⟩ := soundK.closed s ((soundK.laid s).mpr (soundK.live b s edge)) pass
        rw [there]
        exact falls n ((onward pass).trans there)
      · exact .inr ⟨n, rfl, goes n same⟩
    · rw [Procedure.entry?, links.layout]
      exact inner
  exact ⟨⟨merges.sound soundK, alike.trans (merges.alike soundK)⟩, absorbs.layout⟩

private theorem mergeFrom_sound {isEntry : BlockId → Bool} (fuel index : Nat) (changed : Bool)
    (sound : f.Sound)
    (entry : ∀ e, f.layout.head? = some e → isEntry e = true) :
    Traced.Holds (fun r => r.1.Sound ∧ Alike f r.1) (mergeFrom isEntry fuel index (f, changed)) := by
  induction fuel generalizing index f changed with
  | zero => exact .throw _
  | succ fuel ih =>
    rw [mergeFrom]
    split
    · exact .pure ⟨sound, .refl f⟩
    · rename_i b here
      have linked := sound.toMeshed.linked sound.live
      refine (Traced.Holds.ofExcept (absorbable?_gives isEntry linked (List.mem_of_getElem? here)
        (sound.able b)).holds).bind fun found absorbable => ?_
      cases found with
      | none => exact ih (index + 1) changed sound entry
      | some r =>
        obtain ⟨s, how⟩ := r
        have absorbable := absorbable _ rfl
        have away : f.layout.head? ≠ some s := fun same => by
          have inner := absorbable.inner
          rw [entry s same] at inner
          cases inner
        have inner : f.entry? ≠ some s := fun same => away (head_of_entry same)
        refine (Traced.Holds.ofExcept (absorb_sound sound absorbable inner)).bind ?_
        rintro g ⟨⟨sound', alike⟩, layout⟩
        have entry' : ∀ e, g.layout.head? = some e → isEntry e = true := by
          rw [layout]
          cases same : f.layout with
          | nil => exact fun e none => by cases none
          | cons c l =>
            rw [same] at away entry
            rw [List.erase_cons_tail (by simpa using away)]
            exact entry
        refine .after fun _ => ?_
        intro log r log' run
        obtain ⟨soundR, alikeR⟩ := ih index true sound' entry' log r log' run
        exact ⟨soundR, alike.trans alikeR⟩

theorem merge_sound (sound : f.Sound) :
    Traced.Holds (fun r => r.1.Sound ∧ Alike f r.1) (merge f) :=
  mergeFrom_sound _ _ _ sound fun _ first => decide_eq_true first

end Cleanup

end Predication
