import Mathlib.Data.List.Flatten
import Predication.Proofs.Shedding

/-!
A phi of a block with one predecessor always takes the same operand. Where that is a register, the
register can be read in place of the phi: in strict form it still has its value wherever the phi is
read.
-/

set_option autoImplicit false
set_option relaxedAutoImplicit false

namespace Predication

open Cleanup

section Tracking

variable {V : Type} {m : Machine V} {d v r : Reg} {known known' : Prop} {s s' : Store V} {x : Inst}
  {l : List Inst}

structure Store.Tracks (d v : Reg) (known : Prop) (s s' : Store V) : Prop where
  history : s'.history = s.history
  file : ∀ r, r ≠ d → s'.file r = s.file r
  value : known → s'.file v = s.file d

private theorem Store.Tracks.mono (h : Store.Tracks d v known s s') (less : known' → known) :
    Store.Tracks d v known' s s' :=
  ⟨h.history, h.file, h.value ∘ less⟩

private theorem Store.Tracks.read (h : Store.Tracks d v known s s') (reads : r = d → known) :
    s'.file (if r = d then v else r) = s.file r := by
  split
  · rename_i same
    rw [h.value (reads same), same]
  · rename_i other
    exact h.file r other

private theorem Store.Tracks.write (h : Store.Tracks d v known s s') {defs : List Reg} (kept : d ∉ defs)
    (apart : known → v ∉ defs) (result : Nat → V) :
    Store.Tracks d v known (s.write defs result) (s'.write defs result) := by
  refine ⟨h.history, fun r other => ?_, fun known => ?_⟩
  · unfold Store.write
    simp only
    rw [h.file r other]
  · unfold Store.write
    simp only
    rw [if_neg (apart known), if_neg kept]
    exact h.value known

private theorem Store.Tracks.holds (h : Store.Tracks d v known s s') {c : Condition}
    (reads : d ∈ c.map Term.reg → known) :
    m.holds s'.file (c.map (Term.rename d v)) = m.holds s.file c := by
  unfold Machine.holds
  rw [List.all_map, Bool.eq_iff_iff, List.all_eq_true, List.all_eq_true]
  refine forall₂_congr fun t mem => ?_
  have reg : (t.rename d v).reg = if t.reg = d then v else t.reg := by
    unfold Term.rename
    split <;> rfl
  have sign : (t.rename d v).negated = t.negated := by
    unfold Term.rename
    split <;> rfl
  simp only [Function.comp_apply]
  rw [reg, sign, h.read fun same => reads (List.mem_map.mpr ⟨t, mem, same⟩)]

private theorem Store.Tracks.value? (h : Store.Tracks d v known s s') {u : Operand}
    (reads : u.reg? = some d → known) : m.value? s'.file (u.renameReg d v) = m.value? s.file u := by
  cases u with
  | reg r label =>
    have same : (Operand.reg r label).renameReg d v = .reg (if r = d then v else r) label :=
      (apply_ite (Operand.reg · label) _ _ _).symm
    rw [same]
    exact congrArg some (h.read fun same => reads (congrArg some same))
  | imm | block => rfl

private theorem Store.Tracks.operands (h : Store.Tracks d v known s s')
    (reads : d ∈ x.uses.filterMap Operand.reg? → known) :
    m.operands s'.file (x.renameReads d v) = m.operands s.file x := by
  unfold Machine.operands Inst.renameReads
  rw [List.filterMap_map]
  exact List.filterMap_congr fun u mem =>
    h.value? fun same => reads (List.mem_filterMap.mpr ⟨u, mem, same⟩)

inductive Exit.Tracks (d v : Reg) (known : Prop) : Exit V → Exit V → Prop
  | on {s s' : Store V} : s.Tracks d v known s' → Tracks d v known (.on s) (.on s')
  | leave {s s' : Store V} (t : Option BlockId) :
      s.Tracks d v known s' → Tracks d v known (.leave t s) (.leave t s')
  | ret {s s' : Store V} (values : List V) :
      s.Tracks d v known s' → Tracks d v known (.ret values s) (.ret values s')

private theorem Machine.execute_tracks (h : Store.Tracks d v known s s') (reads : d ∈ x.reads → known)
    (kept : d ∉ x.writes) (apart : known → v ∉ x.writes) :
    Exit.Tracks d v known (m.execute x s) (m.execute (x.renameReads d v) s') := by
  by_cases phi : x.op = .phi
  · rw [execute_phi phi, execute_phi (x := x.renameReads d v) phi]
    exact .on h
  by_cases debug : x.op.isDebug = true
  · rw [execute_debug debug, execute_debug (x := x.renameReads d v) debug]
    exact .on h
  rw [Inst.reads, if_neg (not_or.mpr ⟨phi, debug⟩), List.mem_append, List.mem_append] at reads
  have guard : m.holds s'.file (x.renameReads d v).guard = m.holds s.file x.guard :=
    h.holds fun mem => reads (.inr mem)
  have values : m.operands s'.file (x.renameReads d v) = m.operands s.file x :=
    h.operands fun mem => reads (.inl (.inl mem))
  have cond : x.op.tests = true →
      m.holds s'.file (x.renameReads d v).cond = m.holds s.file x.cond := fun tests =>
    h.holds fun mem => reads (.inl (.inr (by rwa [if_pos tests])))
  have writer : x.isWriter = true → d ∉ x.defs ∧ (known → v ∉ x.defs) := by
    intro writer
    rw [Inst.writes, if_pos writer] at kept apart
    exact ⟨kept, apart⟩
  unfold execute
  rw [guard]
  split
  · rw [values, Inst.targets_renameReads]
    have op : (x.renameReads d v).op = x.op := rfl
    have defs : (x.renameReads d v).defs = x.defs := rfl
    rw [op, defs]
    cases same : x.op with
    | phi => exact absurd same phi
    | dbg => exact absurd (by rw [same]; rfl) debug
    | copy | undef =>
      obtain ⟨kept, apart⟩ := writer (by rw [Inst.isWriter, same]; rfl)
      exact .on (h.write kept apart _)
    | sel =>
      obtain ⟨kept, apart⟩ := writer (by rw [Inst.isWriter, same]; rfl)
      rw [cond (by rw [same]; rfl)]
      exact .on (h.write kept apart _)
    | br => exact .leave _ h
    | brc =>
      rw [cond (by rw [same]; rfl)]
      unfold act
      simp only
      split
      · exact .leave _ h
      · exact .on h
    | ret => exact .ret _ h
    | switch => exact .leave _ h
    | other name =>
      obtain ⟨kept, apart⟩ := writer (by rw [Inst.isWriter, same]; rfl)
      rw [cond (by rw [same]; rfl)]
      unfold act
      simp only
      rw [h.history]
      have logged : ∀ calls, Store.Tracks d v known { s with history := calls }
          { s' with history := calls } := fun calls => ⟨rfl, h.file, h.value⟩
      exact .on ((logged _).write kept apart _)
  · exact .on h

private theorem Machine.run_tracks (h : Store.Tracks d v known s s')
    (reads : ∀ pre x post, l = pre ++ x :: post → Passable pre → d ∈ x.reads → known)
    (kept : d ∉ writesOf l) (apart : known → v ∉ writesOf l) :
    Exit.Tracks d v known (m.run l s) (m.run (l.map (Inst.renameReads d v)) s') := by
  induction l generalizing s s' with
  | nil => exact .on h
  | cons x l ih =>
    simp only [writesOf_cons, List.mem_append, not_or] at kept apart
    rw [List.map_cons, run, run]
    have first := execute_tracks (m := m) h (reads [] x l rfl passable_nil) kept.1
      fun known => (apart known).1
    generalize same : m.execute x s = e at first
    generalize m.execute (x.renameReads d v) s' = e' at first
    cases first with
    | on h =>
      refine ih h (fun pre y post split pass => ?_) kept.2 fun known => (apart known).2
      exact reads (x :: pre) y post (by rw [split]; rfl)
        (passable_cons.mpr ⟨endsFlow_of_execute same, pass⟩)
    | leave t h => exact .leave t h
    | ret values h => exact .ret values h

end Tracking

private theorem Operand.reg?_reread (σ : Reg → Reg) (u : Operand) : (u.reread σ).reg? = u.reg?.map σ := by
  cases u <;> rfl

namespace Inst

variable {x : Inst} {d v r : Reg} {p : BlockId}

private theorem phiValue?_renameReads (x : Inst) (d v : Reg) (p : BlockId) :
    (x.renameReads d v).phiValue? p = (x.phiValue? p).map (Operand.renameReg d v) := by
  rw [renameReads_eq, phiValue?_reread, Operand.renameReg_eq]

private theorem sources_renameReads (x : Inst) (d v : Reg) : (x.renameReads d v).sources = x.sources := by
  rw [renameReads_eq, sources_reread]

private theorem endsFlow_renameReads (x : Inst) (d v : Reg) : (x.renameReads d v).endsFlow = x.endsFlow := by
  simp [endsFlow, isGuarded, renameReads]

private theorem reads_renameReads (x : Inst) (d v : Reg) :
    (x.renameReads d v).reads = x.reads.map fun r => if r = d then v else r := by
  rw [renameReads_eq]
  simp only [reads, reread, List.filterMap_map, Function.comp_def, Operand.reg?_reread, List.map_map]
  split
  · rfl
  · split <;> simp [List.map_filterMap, Function.comp_def]

private theorem Regular.renameReads (h : x.Regular) (d v : Reg) : (x.renameReads d v).Regular := by
  refine ⟨fun phi => ?_, h.defs, fun phi => ?_, fun phi y mem => ?_, fun br => ?_,
    fun hbr hbrc hswitch => ?_⟩
  · unfold Inst.renameReads
    rw [h.free phi]
    rfl
  · unfold Inst.renameReads
    rw [List.length_map]
    exact h.even phi
  · rw [renameReads_eq, phiInputs_reread] at mem
    obtain ⟨z, there, rfl⟩ := List.mem_map.mp mem
    exact (Operand.block?_reread _ _).trans (h.values phi z there)
  · obtain ⟨t, rest, uses, known⟩ := h.leads br
    refine ⟨t, rest.map (Operand.renameReg d v), ?_, known⟩
    unfold Inst.renameReads
    rw [uses]
    rfl
  · rw [targets_renameReads]
    exact h.plain hbr hbrc hswitch

def sparedBy (d : Reg) (x : Inst) : Bool := !(decide (x.op = .phi) && decide (x.defs = [d]))

theorem sparedBy_eq_false : x.sparedBy d = false ↔ x.op = .phi ∧ x.defs = [d] := by
  simp [sparedBy]

theorem writes_phi (phi : x.op = .phi) : x.writes = x.defs := by
  unfold writes isWriter
  rw [phi]
  rfl

end Inst

section Dropping

variable {l pre post : List Inst} {x : Inst} {d v r : Reg} {t : BlockId}

def forwarded (d v : Reg) (l : List Inst) : List Inst :=
  (l.filter (Inst.sparedBy d)).map (Inst.renameReads d v)

private theorem passable_spared : Passable (l.filter (Inst.sparedBy d)) ↔ Passable l := by
  refine ⟨fun h x mem => ?_, fun h x mem => h x (List.mem_of_mem_filter mem)⟩
  cases spared : x.sparedBy d with
  | true => exact h x (List.mem_filter.mpr ⟨mem, spared⟩)
  | false => simp [Inst.endsFlow, (Inst.sparedBy_eq_false.mp spared).1]

private theorem passable_forwarded : Passable (forwarded d v l) ↔ Passable l := by
  rw [← passable_spared (l := l) (d := d)]
  unfold Passable forwarded
  rw [List.forall_mem_map]
  exact forall₂_congr fun x _ => by rw [Inst.endsFlow_renameReads]

private theorem mem_writesOf_forwarded (h : r ∈ writesOf (forwarded d v l)) : r ∈ writesOf l := by
  obtain ⟨y, mem, written⟩ := mem_writesOf.mp h
  obtain ⟨x, there, rfl⟩ := List.mem_map.mp mem
  exact mem_writesOf.mpr ⟨x, List.mem_of_mem_filter there, written⟩

private theorem writesOf_filter : writesOf (forwarded d v l) = writesOf (l.filter (Inst.sparedBy d)) := by
  unfold forwarded writesOf
  rw [List.flatMap_map]
  rfl

private theorem mem_forwarded (h : r ∈ writesOf l) (other : r ≠ d) : r ∈ writesOf (forwarded d v l) := by
  rw [writesOf_filter]
  obtain ⟨x, mem, written⟩ := mem_writesOf.mp h
  refine mem_writesOf.mpr ⟨x, List.mem_filter.mpr ⟨mem, ?_⟩, written⟩
  by_contra dropped
  obtain ⟨phi, defs⟩ := Inst.sparedBy_eq_false.mp (Bool.eq_false_iff.mpr dropped)
  rw [Inst.writes_phi phi, defs, List.mem_singleton] at written
  exact other written

private theorem split_spared (split : l.filter (Inst.sparedBy d) = pre ++ x :: post) : ∃ pre' post',
    l = pre' ++ x :: post' ∧ pre = pre'.filter (Inst.sparedBy d) := by
  obtain ⟨pre', rest, rfl, rfl, cut⟩ := List.filter_eq_append_iff.mp split
  obtain ⟨skipped, post', rfl, dropped, -, -⟩ := List.filter_eq_cons_iff.mp cut
  refine ⟨pre' ++ skipped, post', (List.append_assoc _ _ _).symm, ?_⟩
  have none : skipped.filter (Inst.sparedBy d) = [] :=
    List.filter_eq_nil_iff.mpr fun y mem => dropped y mem
  rw [List.filter_append, none, List.append_nil]

private theorem split_forwarded (split : forwarded d v l = pre ++ x :: post) : ∃ pre' x' post',
    l = pre' ++ x' :: post' ∧ pre = forwarded d v pre' ∧ x = x'.renameReads d v := by
  obtain ⟨a, b, here, rfl, tail⟩ := List.map_eq_append_iff.mp split
  obtain ⟨x', c, rfl, rfl, -⟩ := List.map_eq_cons_iff.mp tail
  obtain ⟨pre', post', rfl, rfl⟩ := split_spared here
  exact ⟨pre', x', post', rfl, rfl, rfl⟩

private theorem branches_forwarded (h : Branches (forwarded d v l) pre t) :
    ∃ pre', Branches l pre' t ∧ pre = forwarded d v pre' := by
  obtain ⟨pass, x, post, split, target⟩ := h
  obtain ⟨pre', x', post', rfl, rfl, rfl⟩ := split_forwarded split
  rw [Inst.targets_renameReads] at target
  exact ⟨pre', ⟨passable_forwarded.mp pass, x', post', rfl, target⟩, rfl⟩

private theorem Machine.enter_forwarded {V : Type} {m : Machine V} {file file' : Reg → V}
    {source : Option BlockId} (values : ∀ x ∈ l, x.op = .phi → ∀ u, source.bind x.phiValue? = some u →
      m.value? file' (u.renameReg d v) = m.value? file u) (other : r ≠ d)
    (same : file' r = file r) : m.enter (forwarded d v l) source file' r = m.enter l source file r := by
  unfold enter
  rw [same]
  congr 1
  induction l with
  | nil => rfl
  | cons x l ih =>
    have rest := ih fun y hy => values y (List.mem_cons_of_mem x hy)
    unfold forwarded at rest ⊢
    cases spared : x.sparedBy d with
    | true =>
      rw [List.filter_cons_of_pos spared, List.map_cons, List.findSome?_cons, List.findSome?_cons, rest]
      have op : (x.renameReads d v).op = x.op := rfl
      have defs : (x.renameReads d v).defs = x.defs := rfl
      rw [op, defs]
      by_cases here : x.op = .phi ∧ r ∈ x.defs
      · rw [if_pos here, if_pos here]
        have value : (source.bind (x.renameReads d v).phiValue?).bind (m.value? file') =
            (source.bind x.phiValue?).bind (m.value? file) := by
          have input := values x List.mem_cons_self here.1
          cases source with
          | none => rfl
          | some p =>
            simp only [Option.bind_some] at input ⊢
            rw [Inst.phiValue?_renameReads]
            cases brought : x.phiValue? p with
            | none => rfl
            | some u => exact input u brought
        rw [value]
      · rw [if_neg here, if_neg here]
    | false =>
      obtain ⟨-, defs⟩ := Inst.sparedBy_eq_false.mp spared
      rw [List.filter_cons_of_neg (by simp [spared]), List.findSome?_cons, rest]
      have away : ¬ (x.op = .phi ∧ r ∈ x.defs) := by
        rw [defs, List.mem_singleton]
        exact fun both => other both.2
      rw [if_neg away]

end Dropping

namespace Procedure

variable {f g : Procedure} {b c p s t : BlockId} {d v r : Reg} {source : Option BlockId}
  {rs : List Reg}

theorem Resolves.guided (h : Resolves s f g) (guided : f.Guided) : g.Guided := by
  have exits : ∀ c, (g.traits c).filter Trait.isExit = (f.traits c).filter Trait.isExit := by
    intro c
    by_cases here : c = s
    · rw [here, h.exits]
    · rw [h.kin.traits guided.toFirm (h.code c here)]
  refine ⟨h.firm, fun c t edge => ?_, fun c hc plain => ?_⟩
  · rw [h.links.dead]
    rw [h.links.succs] at edge
    exact guided.live c t edge
  · rw [h.links.layout] at hc
    rw [← Trait.plain_filter, exits, Trait.plain_filter] at plain
    obtain ⟨t, edge, goal⟩ := guided.goal c hc plain
    refine ⟨t, by rwa [h.links.succs], ?_⟩
    unfold Procedure.goal at goal ⊢
    rwa [← Trait.firstJump?_filter, exits, Trait.firstJump?_filter, h.links.next?]

/-- The phi for `d` of a block `s` that control comes to from `b` only goes, and its value `v` is
read in its place. -/
structure Forwards (s b : BlockId) (d v : Reg) (f g : Procedure) : Prop where
  resolves : Resolves s f g
  sited : g.Sited
  insts : ∀ c, g.instsAt c = forwarded d v (f.instsAt c)
  phi : ∃ x ∈ f.instsAt s, x.op = .phi ∧ x.defs = [d] ∧ ∃ label, x.phiValue? b = some (.reg v label)
  only : ∀ p ∈ (f.blockAt s).preds, p = b
  inner : f.entry? ≠ some s

section Forwards

variable (h : Forwards s b d v f g)

include h

private theorem Forwards.home : d ∈ writesOf (f.instsAt s) := by
  obtain ⟨x, mem, phi, defs, -⟩ := h.phi
  refine mem_writesOf.mpr ⟨x, mem, ?_⟩
  rw [Inst.writes_phi phi, defs]
  exact List.mem_singleton_self d

private theorem Forwards.away (strict : f.Strict) (other : c ≠ s) : d ∉ writesOf (f.instsAt c) := fun mem =>
  other (strict.alone c s d mem h.home)

private theorem Forwards.dropped (strict : f.Strict) (c : BlockId) :
    d ∉ writesOf ((f.instsAt c).filter (Inst.sparedBy d)) := by
  intro mem
  obtain ⟨y, there, written⟩ := mem_writesOf.mp mem
  obtain ⟨there, spared⟩ := List.mem_filter.mp there
  by_cases here : c = s
  · subst here
    obtain ⟨x, mem, phi, defs, -⟩ := h.phi
    obtain rfl := strict.same mem there (by rw [Inst.writes_phi phi, defs]; simp) written
    rw [Inst.sparedBy_eq_false.mpr ⟨phi, defs⟩] at spared
    cases spared
  · exact h.away strict here (mem_writesOf.mpr ⟨y, there, written⟩)

private theorem Forwards.brings (sound : f.Sound) (way : f.Arrives source s rs) :
    source = some b ∧ (f.Writes v → v ∈ rs) := by
  obtain ⟨x, mem, phi, -, label, value⟩ := h.phi
  cases source with
  | none => exact absurd way.of_none.1 h.inner
  | some p =>
    obtain rfl := h.only p (sound.arrives_edge way)
    exact ⟨rfl, fun written => sound.strict.inputs way mem phi value written⟩

private theorem Forwards.before (sound : f.Sound) (way : f.Arrives source c rs) (mem : d ∈ rs)
    (written : f.Writes v) : v ∈ rs := by
  induction way with
  | entry => cases mem
  | @edge source c t rs pre way leaves ih =>
    rw [List.mem_append] at mem ⊢
    rcases mem with old | new
    · exact .inl (ih old)
    · obtain rfl := sound.strict.alone c s d (leaves.writes new) h.home
      exact .inl ((h.brings sound way).2 written)

/-- The value of `d` is there throughout the block: the block writes it, or control has passed `s`
whichever way it came. -/
def Forwards.Known (_ : Forwards s b d v f g) (c : BlockId) : Prop :=
  c = s ∨ ∀ source rs, f.Arrives source c rs → d ∈ rs

private theorem Forwards.apart (sound : f.Sound) (way : f.Arrives source c rs) (known : h.Known c) :
    v ∉ writesOf (f.instsAt c) := by
  intro mem
  obtain ⟨source', rs', first, new⟩ := sound.strict.first way mem
  rcases known with rfl | all
  · exact new ((h.brings sound first).2 ⟨c, mem⟩)
  · exact new (h.before sound first (all _ _ first) ⟨c, mem⟩)

private theorem Forwards.known_of_reads (sound : f.Sound) {pre post : List Inst} {x : Inst}
    (split : f.instsAt c = pre ++ x :: post) (pass : Passable pre) (reads : d ∈ x.reads) :
    h.Known c := by
  by_cases here : c = s
  · exact .inl here
  · refine .inr fun source rs way => ?_
    have mem := sound.strict.reads way split pass d reads ⟨s, h.home⟩
    refine (List.mem_append.mp mem).resolve_right fun written => h.away sound.strict here ?_
    rw [split, writesOf_append]
    exact List.mem_append_left _ written

private theorem Forwards.known_of_edge (sound : f.Sound) (leads : f.GoesTo c t)
    (all : ∀ rs, f.Arrives (some c) t rs → d ∈ rs) : h.Known c := by
  by_cases here : c = s
  · exact .inl here
  · obtain ⟨pre, leaves⟩ := leads
    refine .inr fun source rs way => ?_
    have mem := all _ (way.edge leaves)
    exact (List.mem_append.mp mem).resolve_right fun written =>
      h.away sound.strict here (leaves.writes written)

private theorem Forwards.leaves {pre : List Inst} (leaves : g.Leaves c pre t) :
    ∃ pre', f.Leaves c pre' t ∧ pre = forwarded d v pre' := by
  rcases leaves with branch | ⟨⟨pass, next⟩, rfl⟩
  · rw [h.insts] at branch
    obtain ⟨pre', old, same⟩ := branches_forwarded branch
    exact ⟨pre', .inl old, same⟩
  · rw [h.insts, passable_forwarded] at pass
    rw [h.resolves.links.next?] at next
    exact ⟨f.instsAt c, .inr ⟨⟨pass, next⟩, rfl⟩, h.insts c⟩

private theorem Forwards.arrives (way : g.Arrives source c rs) :
    ∃ rs', f.Arrives source c rs' ∧ ∀ r ∈ rs', r ≠ d → r ∈ rs := by
  induction way with
  | entry first =>
    refine ⟨[], .entry ?_, fun r mem => absurd mem List.not_mem_nil⟩
    rw [← first]
    unfold entry?
    rw [h.resolves.links.layout]
  | edge _ leaves ih =>
    obtain ⟨rs', way, kept⟩ := ih
    obtain ⟨pre', old, rfl⟩ := h.leaves leaves
    refine ⟨_, way.edge old, fun r mem other => ?_⟩
    rw [List.mem_append] at mem ⊢
    exact mem.imp (fun old => kept r old other) fun new => mem_forwarded new other

private theorem Forwards.strict (sound : f.Sound) : g.Strict := by
  have strict := sound.strict
  have old : ∀ {r}, g.Writes r → f.Writes r ∧ r ≠ d := by
    rintro r ⟨c, mem⟩
    rw [h.insts] at mem
    refine ⟨⟨c, mem_writesOf_forwarded mem⟩, ?_⟩
    rintro rfl
    rw [writesOf_filter] at mem
    exact h.dropped strict c mem
  refine ⟨fun b c r hb hc => ?_, fun c => ?_, ?_, ?_⟩
  · rw [h.insts] at hb hc
    exact strict.alone b c r (mem_writesOf_forwarded hb) (mem_writesOf_forwarded hc)
  · rw [h.insts, writesOf_filter]
    exact (strict.once c).sublist (List.Sublist.flatMap List.filter_sublist _)
  · intro source c rs pre x post new split pass r reads writes
    obtain ⟨written, other⟩ := old writes
    obtain ⟨rs', way, kept⟩ := h.arrives new
    rw [h.insts] at split
    obtain ⟨pre', x', post', place, rfl, rfl⟩ := split_forwarded split
    rw [passable_forwarded] at pass
    rw [Inst.reads_renameReads] at reads
    obtain ⟨q, there, renamed⟩ := List.mem_map.mp reads
    have mem := strict.reads way place pass q there
    rw [List.mem_append]
    by_cases same : q = d
    · rw [if_pos same] at renamed
      subst same renamed
      left
      refine kept v ?_ other
      rcases List.mem_append.mp (mem ⟨s, h.home⟩) with earlier | here
      · exact h.before sound way earlier written
      · have home : c = s := by
          refine strict.alone c s q ?_ h.home
          rw [place, writesOf_append]
          exact List.mem_append_left _ here
        subst home
        exact (h.brings sound way).2 written
    · rw [if_neg same] at renamed
      subst renamed
      exact (List.mem_append.mp (mem written)).imp (fun old => kept q old other)
        fun new => mem_forwarded new other
  · intro p c rs x r label way mem phi value written
    obtain ⟨written, other⟩ := old written
    obtain ⟨rs', way, kept⟩ := h.arrives way
    rw [h.insts] at mem
    obtain ⟨y, there, rfl⟩ := List.mem_map.mp mem
    rw [Inst.phiValue?_renameReads] at value
    obtain ⟨u, value, same⟩ := Option.map_eq_some_iff.mp value
    have inputs : ∀ {q label'}, u = .reg q label' → f.Writes q → q ∈ rs' := fun is =>
      strict.inputs way (List.mem_of_mem_filter there) phi (is ▸ value)
    refine kept r ?_ other
    cases u with
    | reg q label' =>
      have reg : (if q = d then v else q) = r := by
        have := congrArg Operand.reg? same
        rw [Operand.renameReg_eq, Operand.reg?_reread] at this
        exact Option.some.inj this
      by_cases hit : q = d
      · rw [if_pos hit] at reg
        subst reg hit
        exact h.before sound way (inputs rfl ⟨s, h.home⟩) written
      · rw [if_neg hit] at reg
        subst reg
        exact inputs rfl written
    | imm | block => cases same

theorem Forwards.sound (sound : f.Sound) : g.Sound := by
  have links := h.resolves.links
  refine ⟨h.resolves.guided sound.toGuided, h.sited, fun c x mem => ?_, fun c t leads => ?_,
    fun c x mem phi p => ?_, fun c hc pass => ?_, h.strict sound⟩
  · rw [h.insts] at mem
    obtain ⟨y, there, rfl⟩ := List.mem_map.mp mem
    exact (sound.regular c y (List.mem_of_mem_filter there)).renameReads d v
  · obtain ⟨pre, leaves⟩ := leads
    obtain ⟨pre', leaves, -⟩ := h.leaves leaves
    rw [links.succs]
    exact sound.edges c t ⟨pre', leaves⟩
  · rw [h.insts] at mem
    obtain ⟨y, there, rfl⟩ := List.mem_map.mp mem
    rw [Inst.sources_renameReads, links.preds]
    exact sound.sources c y (List.mem_of_mem_filter there) phi p
  · rw [links.layout] at hc
    rw [h.insts, passable_forwarded] at pass
    rw [links.next?]
    exact sound.closed c hc pass

section Simulation

variable {V : Type} {m : Machine V} {σ σ' : Store V}

/-- A block is entered with the value of `d` in `v`, where it is known. -/
private theorem Forwards.enters (sound : f.Sound) (way : f.Arrives source c rs)
    (tracks : σ.Tracks d v (∀ rs, f.Arrives source c rs → d ∈ rs) σ') :
    Store.Tracks d v (h.Known c) { σ with file := m.enter (f.instsAt c) source σ.file }
      { σ' with file := m.enter (g.instsAt c) source σ'.file } := by
  refine ⟨tracks.history, fun r other => ?_, fun known => ?_⟩
  · rw [h.insts]
    refine Machine.enter_forwarded (fun x mem phi u value => tracks.value? fun reads rs way => ?_) other
      (tracks.file r other)
    -- what a phi takes is known on the edge
    cases source with
    | none => cases value
    | some p =>
      cases u with
      | reg q label =>
        cases reads
        exact sound.strict.inputs way mem phi value ⟨s, h.home⟩
      | imm | block => cases reads
  · have apart := h.apart sound way known
    have stays : m.enter (g.instsAt c) source σ'.file v = σ'.file v := by
      rw [h.insts]
      refine Machine.enter_of_not_mem fun y mem phi defs => apart ?_
      rw [← Inst.writes_phi phi] at defs
      exact mem_writesOf_forwarded (mem_writesOf.mpr ⟨y, mem, defs⟩)
    refine stays.trans ?_
    by_cases here : c = s
    · subst here
      obtain ⟨rfl, -⟩ := h.brings sound way
      obtain ⟨x, mem, phi, defs, label, value⟩ := h.phi
      have mine : d ∈ x.writes := by
        rw [Inst.writes_phi phi, defs]
        exact List.mem_singleton_self d
      have different : v ≠ d := fun same => apart (same ▸ h.home)
      refine (tracks.file v different).trans (Machine.enter_of_mem mem phi (by simp [defs])
        (fun y hy phi' defs' => ?_) ?_).symm
      · exact sound.strict.same hy mem (by rwa [Inst.writes_phi phi']) mine
      · simp only [Option.bind_some, value, Machine.value?]
    · have kept : m.enter (f.instsAt c) source σ.file d = σ.file d := by
        refine Machine.enter_of_not_mem fun y mem phi defs => h.away sound.strict here ?_
        rw [← Inst.writes_phi phi] at defs
        exact mem_writesOf.mpr ⟨y, mem, defs⟩
      exact (tracks.value ((known.resolve_left here) source)).trans kept.symm

private theorem Forwards.runs (sound : f.Sound) (way : f.Arrives source c rs)
    (tracks : σ.Tracks d v (h.Known c) σ') :
    Exit.Tracks d v (h.Known c) (m.run (f.instsAt c) σ) (m.run (g.instsAt c) σ') := by
  rw [h.insts, ← Machine.run_filter (Inst.sparedBy d) fun x _ dropped =>
    (Inst.sparedBy_eq_false.mp dropped).1]
  refine Machine.run_tracks tracks (fun pre x post split pass reads => ?_)
    (h.dropped sound.strict c) fun known mem => h.apart sound way known ?_
  · obtain ⟨pre', post', place, rfl⟩ := split_spared split
    exact h.known_of_reads sound place (passable_spared.mp pass) reads
  · obtain ⟨x, there, written⟩ := mem_writesOf.mp mem
    exact mem_writesOf.mpr ⟨x, List.mem_of_mem_filter there, written⟩

structure Forwards.Related (_ : Forwards s b d v f g) (c e : Snapshot V) : Prop where
  spot : e.spot = c.spot
  located : c.Located f
  store : c.store.Tracks d v (∃ source a, c.spot = .block source a ∧
    ∀ rs, f.Arrives source a rs → d ∈ rs) e.store

private theorem Forwards.related_arrive (sound : f.Sound) {u : Option BlockId} (way : f.Arrives source c rs)
    (leads : ∀ t ∈ u, f.GoesTo c t) (tracks : σ.Tracks d v (h.Known c) σ') :
    h.Related (.arrive c u σ) (.arrive c u σ') := by
  refine ⟨by cases u <;> rfl, located_arrive way leads, ?_⟩
  cases u with
  | none =>
    refine tracks.mono ?_
    rintro ⟨source, a, same, -⟩
    cases same
  | some t =>
    refine tracks.mono ?_
    rintro ⟨source, a, same, all⟩
    cases same
    exact h.known_of_edge sound (leads t rfl) all

private theorem Forwards.related_step (sound : f.Sound) {c e : Snapshot V} (related : h.Related c e) :
    h.Related (f.step m c) (g.step m e) := by
  obtain ⟨spot, σ⟩ := c
  obtain ⟨spot', σ'⟩ := e
  obtain ⟨same, located, tracks⟩ := related
  cases same
  cases spot with
  | returned | nowhere => exact ⟨rfl, located, tracks⟩
  | block source c =>
    obtain ⟨rs, way⟩ := located source c rfl
    have entered := h.enters (m := m) sound way (tracks.mono fun all => ⟨source, c, rfl, all⟩)
    unfold step
    simp only
    generalize ({ σ with file := m.enter (f.instsAt c) source σ.file } : Store V) = τ at *
    generalize ({ σ' with file := m.enter (g.instsAt c) source σ'.file } : Store V) = τ' at *
    have runs := h.runs (m := m) sound way entered
    generalize run : m.run (f.instsAt c) τ = e at runs
    generalize m.run (g.instsAt c) τ' = e' at runs
    cases runs with
    | on tracks =>
      unfold depart
      simp only
      rw [h.resolves.links.next?]
      exact h.related_arrive sound way (fun t next => ⟨_, leaves_of_falls run next⟩) tracks
    | leave t tracks =>
      refine h.related_arrive sound way (fun u target => ?_) tracks
      cases target
      exact leaves_of_run run
    | ret values tracks =>
      refine ⟨rfl, fun _ _ spot => absurd spot (by simp [depart]), tracks.mono ?_⟩
      rintro ⟨source, a, same, -⟩
      cases same

theorem Forwards.alike (sound : f.Sound) : Alike f g := by
  refine alike_of_simulates fun V m => ⟨h.Related, fun file => ?_, fun c e related => ?_,
    fun c e related => related.store.history.symm, fun c e related => ?_⟩
  · have same : g.start file = f.start file := by
      unfold start entry?
      rw [h.resolves.links.layout]
    rw [same]
    refine ⟨rfl, located_start file, rfl, fun _ _ => rfl, ?_⟩
    -- nothing was written before
    rintro ⟨source, a, spot, all⟩
    obtain ⟨rs, way⟩ := located_start file source a spot
    unfold start at spot
    split at spot
    · cases spot
      cases way.of_none.2
      exact absurd (all [] way) List.not_mem_nil
    · cases spot
  · exact ⟨0, h.related_step sound related⟩
  · unfold Snapshot.result?
    rw [related.spot]

end Simulation

end Forwards

end Procedure

end Predication
