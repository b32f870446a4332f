import Predication.Proofs.Outlines

/-!
What the lines of a listing leave in a draft. Each line adds to the outline that the draft holds, and
all registers and blocks of a draft are named by its outline.
-/

set_option autoImplicit false
set_option relaxedAutoImplicit false

namespace Predication.Listing

namespace NamedProcedure

def addBlock (name : String) (v : NamedProcedure) : NamedProcedure :=
  { v with blocks := v.blocks ++ [{ name := name }] }

def updateLast (g : NamedBlock → NamedBlock) (v : NamedProcedure) : NamedProcedure :=
  { v with blocks := v.blocks.dropLast ++ (v.blocks.getLast?.map g).toList }

def registers (v : NamedProcedure) : List String :=
  v.blocks.flatMap fun n => n.liveIn ++ n.code.flatMap NamedInst.registers

def labels (v : NamedProcedure) : List String := v.blocks.map NamedBlock.name

def targets (v : NamedProcedure) : List String :=
  v.blocks.flatMap fun n => n.code.flatMap NamedInst.blocks

end NamedProcedure

structure NamedBlock.Valid (n : NamedBlock) : Prop where
  name : IsName n.name
  label : n.name ≠ "func"
  liveIn : ∀ s ∈ n.liveIn, IsRegisterName s
  code : ∀ i ∈ n.code, i.Valid

structure NamedProcedure.Valid (v : NamedProcedure) : Prop where
  name : IsName v.name
  blocks : ∀ n ∈ v.blocks, n.Valid

private theorem Draft.Holds.currentBlock {d : Draft} {v : NamedProcedure} (h : d.Holds v) {b : Nat}
    (current : d.current = some b) :
    ∃ before front last blk, d.procedure.layout = before ++ [(b : BlockId)] ∧
      v.blocks = front ++ [last] ∧
      List.Forall₂ (fun b n => ∃ blk, BlockOutlined d.procedure b n blk) before front ∧
      BlockOutlined d.procedure b last blk := by
  have last : d.procedure.layout.getLast? = some (b : BlockId) := by
    rw [← h.current, current]
    rfl
  obtain ⟨before, layout⟩ := List.getLast?_eq_some_iff.mp last
  have outlined := h.layout
  rw [layout] at outlined
  obtain ⟨front, back, fronts, backs, blocks⟩ := exists_append_of_forall₂ outlined
  cases backs with
  | cons current none =>
    cases none
    obtain ⟨blk, current⟩ := current
    exact ⟨before, front, _, blk, layout, blocks, fronts, current⟩

theorem Draft.Holds.updateLast {d : Draft} {v : NamedProcedure} (h : d.Holds v) {b : Nat}
    (current : d.current = some b) (insts : Array Inst) (regs : List Reg) (ids : List InstId)
    (names : List String) (more : List NamedInst)
    (kept : ∀ id x, Arena.get d.procedure.insts id = .ok x → Arena.get insts id = .ok x)
    (range : (List.range insts.size).map Int.ofNat =
      (List.range d.procedure.insts.size).map Int.ofNat ++ ids)
    (named : List.Forall₂ (RegNamed d.procedure) regs names)
    (added : List.Forall₂ (fun id i => ∃ x, Arena.get insts id = .ok x ∧ InstNamed d.procedure x i)
      ids more) :
    ({ d with procedure := { d.procedure with
        insts := insts
        blocks := d.procedure.blocks.modify b fun x =>
          { x with liveIn := x.liveIn ++ regs, code := x.code ++ ids } } } : Draft).Holds
      (v.updateLast fun n => { n with liveIn := n.liveIn ++ names, code := n.code ++ more }) := by
  obtain ⟨before, front, last, blk, layout, blocks, fronts, outlined⟩ := h.currentBlock current
  generalize change : (fun x : Block =>
    { x with liveIn := x.liveIn ++ regs, code := x.code ++ ids }) = g
  have name : ∀ x, (g x).name = x.name := fun x => by rw [← change]
  have liveIn : ∀ x, (g x).liveIn = x.liveIn ++ regs := fun x => by rw [← change]
  have code : ∀ x, (g x).code = x.code ++ ids := fun x => by rw [← change]
  have here : Arena.get (d.procedure.blocks.modify b g) b = .ok (g blk) := by
    rw [Arena.get_modify, if_pos rfl, show Arena.get d.procedure.blocks b = .ok blk from
      outlined.found]
    rfl
  have elsewhere : ∀ c : BlockId, c ≠ b →
      Arena.get (d.procedure.blocks.modify b g) c = d.procedure.block c := fun c other => by
    rw [Arena.get_modify, if_neg other]
    rfl
  have old : ∀ c x, Arena.get (d.procedure.blocks.modify b g) c = .ok x →
      ∃ y, d.procedure.block c = .ok y ∧ (c = b ∧ x = g y ∨ c ≠ b ∧ x = y) := by
    intro c x found
    by_cases same : c = b
    · subst same
      rw [here] at found
      cases found
      exact ⟨blk, outlined.found, Or.inl ⟨rfl, rfl⟩⟩
    · rw [elsewhere c same] at found
      exact ⟨x, found, Or.inr ⟨same, rfl⟩⟩
  have grows : Extends d.procedure { d.procedure with
      insts := insts, blocks := d.procedure.blocks.modify b g } := by
    refine ⟨fun _ _ h => h, fun c s => ?_⟩
    rintro ⟨x, found, rfl⟩
    by_cases same : c = b
    · subst same
      rw [outlined.found] at found
      cases found
      exact ⟨g blk, here, name blk⟩
    · exact ⟨x, (elsewhere c same).trans found, rfl⟩
  have apart : ∀ c ∈ before, c ≠ b := by
    have := h.nodup
    rw [layout, List.nodup_append] at this
    exact fun c hc => this.2.2 c hc b (by simp)
  exact {
    name := h.name
    sharing := h.sharing
    regs := h.regs
    names := by
      have : (d.procedure.blocks.modify b g).map Block.name = d.procedure.blocks.map Block.name := by
        apply Array.ext
        · simp
        · intro n _ _
          rw [Array.getElem_map, Array.getElem_map, Array.getElem_modify]
          split
          · exact name _
          · rfl
      rw [← Array.toList_map, this, Array.toList_map]
      exact h.names
    bare := by
      intro c x found
      obtain ⟨y, before, ⟨rfl, rfl⟩ | ⟨-, rfl⟩⟩ := old c x found
      · rw [← change]
        exact h.bare _ y before
      · exact h.bare c x before
    unopened := by
      intro c x found out
      obtain ⟨y, before, ⟨rfl, rfl⟩ | ⟨-, rfl⟩⟩ := old c x found
      · exact absurd (by rw [layout]; simp) out
      · exact h.unopened c x before out
    defined_size := by simpa using h.defined_size
    mentioned_size := by simpa using h.mentioned_size
    defined := h.defined
    nodup := h.nodup
    layout := by
      have outline : (v.updateLast fun n =>
          { n with liveIn := n.liveIn ++ names, code := n.code ++ more }).blocks =
            front ++ [{ last with liveIn := last.liveIn ++ names, code := last.code ++ more }] := by
        simp [NamedProcedure.updateLast, blocks]
      rw [outline]
      change List.Forall₂ _ d.procedure.layout _
      rw [layout]
      refine List.rel_append ?_ (.cons ⟨g blk, here, ?_, ?_, ?_⟩ .nil)
      · refine ((List.forall₂_and_left before front).mpr ⟨apart, fronts⟩).imp fun c n => ?_
        rintro ⟨other, x, there⟩
        exact ⟨x, there.mono grows kept ((elsewhere c other).trans there.found)⟩
      · exact (name blk).trans outlined.name
      · rw [liveIn]
        exact List.rel_append outlined.liveIn named
      · rw [code]
        refine List.rel_append (outlined.code.imp fun id i => ?_) (added.imp fun id i => ?_)
        · rintro ⟨x, found, inst⟩
          exact ⟨x, kept id x found, grows.inst inst⟩
        · rintro ⟨x, found, inst⟩
          exact ⟨x, found, grows.inst inst⟩
    ordered := by
      have before_code : before.flatMap (codeOf { d.procedure with
          insts := insts, blocks := d.procedure.blocks.modify b g }) =
            before.flatMap (codeOf d.procedure) :=
        List.flatMap_congr fun c hc => by simp only [codeOf, Procedure.block, elsewhere c (apart c hc)]
      have ordered := h.ordered
      rw [layout, List.flatMap_append, List.flatMap_singleton, codeOf_eq outlined.found] at ordered
      have here_code : codeOf { d.procedure with
          insts := insts, blocks := d.procedure.blocks.modify b g } b = blk.code ++ ids := by
        simp only [codeOf, Procedure.block, here, code]
      change d.procedure.layout.flatMap (codeOf { d.procedure with
          insts := insts, blocks := d.procedure.blocks.modify b g }) =
        (List.range insts.size).map Int.ofNat
      rw [range, layout, List.flatMap_append, List.flatMap_singleton, before_code, here_code,
        ← ordered, List.append_assoc]
    current := h.current }

/-- A new block at the end of the layout. -/
private theorem Draft.Holds.openBlock {d : Draft} {v : NamedProcedure} (h : d.Holds v) {b : Nat}
    {name : String} (named : BlockNamed d.procedure b name)
    (fresh : d.defined.getD b false = false) : (d.openBlock b).Holds (v.addBlock name) := by
  obtain ⟨blk, found, rfl⟩ := named
  have outside : (b : BlockId) ∉ d.procedure.layout := by
    rw [← h.defined b, fresh]
    exact Bool.false_ne_true
  obtain ⟨empty, unread⟩ := h.unopened b blk found outside
  have bound : b < d.defined.size := by
    have := Arena.get_range.mp ⟨blk, found⟩
    have := h.defined_size
    omega
  exact { h with
    unopened := fun c x found out => h.unopened c x found fun inside =>
      out (List.mem_append_left _ inside)
    defined_size := by simpa [Draft.openBlock] using h.defined_size
    defined := by
      intro n
      have old := h.defined n
      simp only [Draft.openBlock, Array.getD_eq_getD_getElem?, Array.getElem?_modify,
        List.mem_append, List.mem_singleton] at old ⊢
      split
      · rename_i same
        subst same
        simp [bound]
      · rename_i other
        have : (n : Int) ≠ b := fun same => other (Int.ofNat.inj same).symm
        simp [old, this]
    nodup := by
      refine List.nodup_append.mpr ⟨h.nodup, by simp, ?_⟩
      rintro c hc e he rfl
      exact outside (List.mem_singleton.mp he ▸ hc)
    layout := by
      have last : BlockOutlined d.procedure b { name := blk.name } blk := by
        refine ⟨found, rfl, ?_, ?_⟩
        · rw [unread]
          exact .nil
        · rw [empty]
          exact .nil
      have same : Extends d.procedure (d.openBlock b).procedure := ⟨fun _ _ h => h, fun _ _ h => h⟩
      refine List.Forall₂.imp (fun c n => ?_) (List.rel_append h.layout (.cons ⟨blk, last⟩ .nil))
      rintro ⟨x, outlined⟩
      exact ⟨x, outlined.mono same (fun _ _ h => h) outlined.found⟩
    ordered := by
      have : codeOf d.procedure b = [] := (codeOf_eq found).trans empty
      refine Eq.trans ?_ h.ordered
      change (d.procedure.layout ++ [(b : BlockId)]).flatMap (codeOf d.procedure) = _
      rw [List.flatMap_append, List.flatMap_singleton, this, List.append_nil]
    current := by simp [Draft.openBlock] }

structure Draft.Sound (d : Draft) (v : NamedProcedure) : Prop where
  holds : d.Holds v
  regs : ∀ s ∈ d.procedure.regs, s ∈ v.registers
  blocks : ∀ b s, BlockNamed d.procedure b s → s ∈ v.labels ∨ s ∈ v.targets
  valid : v.Valid

theorem sound_header {name : String} (hn : IsName name) :
    ({ procedure := { name := name } } : Draft).Sound { name := name } where
  holds := {
    name := rfl
    sharing := rfl
    regs := List.nodup_nil
    names := List.nodup_nil
    bare := by
      intro b blk found
      obtain ⟨n, -, none⟩ := Arena.get_eq_ok.mp found
      simp at none
    unopened := by
      intro b blk found
      obtain ⟨n, -, none⟩ := Arena.get_eq_ok.mp found
      simp at none
    defined_size := rfl
    mentioned_size := rfl
    defined := by simp
    nodup := List.nodup_nil
    layout := .nil
    ordered := rfl
    current := rfl }
  regs := by simp
  blocks := by
    rintro b s ⟨blk, found, -⟩
    obtain ⟨n, -, none⟩ := Arena.get_eq_ok.mp found
    simp at none
  valid := ⟨hn, by simp⟩

theorem Draft.Sound.label {d e : Draft} {v : NamedProcedure} (h : d.Sound v) {number b : Nat}
    {name : String} (hn : IsName name) (other : name ≠ "func")
    (numbered : Draft.block number name d = (b, e)) (fresh : e.defined.getD b false = false) :
    (e.openBlock b).Sound (v.addBlock name) := by
  obtain ⟨grown, named⟩ := numbered_block number d hn.ne_empty
  rw [numbered] at grown named
  refine ⟨(grown.holds v h.holds).openBlock named fresh, ?_, ?_, h.valid.name, ?_⟩
  · intro s hs
    have : s ∈ v.registers := (grown.regs s hs).elim (h.regs s) (by simp)
    simpa [NamedProcedure.registers, NamedProcedure.addBlock] using this
  · intro c s hs
    have : s ∈ v.labels ∨ s ∈ v.targets ∨ s = name := by
      rcases grown.blocks c s hs with old | new
      · exact (h.blocks c s old).imp_right Or.inl
      · exact Or.inr (Or.inr (List.mem_singleton.mp new))
    simp only [NamedProcedure.labels, NamedProcedure.targets, NamedProcedure.addBlock] at this ⊢
    simp only [List.map_append, List.mem_append, List.map_cons, List.map_nil, List.mem_singleton,
      List.flatMap_append, List.flatMap_cons, List.flatMap_nil, List.append_nil]
    tauto
  · intro n hn'
    rcases List.mem_append.mp hn' with old | new
    · exact h.valid.blocks n old
    · rw [List.mem_singleton.mp new]
      exact ⟨hn, other, by simp, by simp⟩

private theorem updateLast_names {v : NamedProcedure} {front : List NamedBlock} {last : NamedBlock}
    (blocks : v.blocks = front ++ [last]) (names : List String) (more : List NamedInst) :
    (v.updateLast fun n => { n with liveIn := n.liveIn ++ names, code := n.code ++ more }).labels =
        v.labels ∧
      (∀ s, s ∈ (v.updateLast fun n =>
          { n with liveIn := n.liveIn ++ names, code := n.code ++ more }).registers ↔
        s ∈ v.registers ∨ s ∈ names ∨ s ∈ more.flatMap NamedInst.registers) ∧
      ∀ s, s ∈ (v.updateLast fun n =>
          { n with liveIn := n.liveIn ++ names, code := n.code ++ more }).targets ↔
        s ∈ v.targets ∨ s ∈ more.flatMap NamedInst.blocks := by
  simp only [NamedProcedure.updateLast, NamedProcedure.labels, NamedProcedure.registers,
    NamedProcedure.targets, blocks, List.dropLast_concat, List.getLast?_concat, Option.map_some,
    Option.toList_some, List.map_append, List.map_cons, List.map_nil, List.flatMap_append,
    List.flatMap_cons, List.flatMap_nil, List.append_nil, List.mem_append, true_and]
  exact ⟨fun s => by tauto, fun s => by tauto⟩

theorem Draft.Sound.updateLast {d e : Draft} {v : NamedProcedure} (h : d.Sound v) {b : Nat}
    (current : d.current = some b) {rs bs : List String} (grown : Numbered rs bs d e)
    (insts : Array Inst) (regs : List Reg) (ids : List InstId) (names : List String)
    (more : List NamedInst)
    (kept : ∀ id x, Arena.get e.procedure.insts id = .ok x → Arena.get insts id = .ok x)
    (range : (List.range insts.size).map Int.ofNat =
      (List.range e.procedure.insts.size).map Int.ofNat ++ ids)
    (named : List.Forall₂ (RegNamed e.procedure) regs names)
    (added : List.Forall₂ (fun id i => ∃ x, Arena.get insts id = .ok x ∧ InstNamed e.procedure x i)
      ids more)
    (hrs : ∀ s ∈ rs, s ∈ names ∨ s ∈ more.flatMap NamedInst.registers)
    (hbs : ∀ s ∈ bs, s ∈ more.flatMap NamedInst.blocks)
    (hnames : ∀ s ∈ names, IsRegisterName s) (hmore : ∀ i ∈ more, i.Valid) :
    ({ e with procedure := { e.procedure with
        insts := insts
        blocks := e.procedure.blocks.modify b fun x =>
          { x with liveIn := x.liveIn ++ regs, code := x.code ++ ids } } } : Draft).Sound
      (v.updateLast fun n => { n with liveIn := n.liveIn ++ names, code := n.code ++ more }) := by
  have here : e.current = some b := grown.current.trans current
  have held := grown.holds v h.holds
  obtain ⟨-, front, last, -, -, blocks, -⟩ := held.currentBlock here
  obtain ⟨labels, registers, others⟩ := updateLast_names blocks names more
  refine ⟨held.updateLast here insts regs ids names more kept range named added, ?_, ?_,
    h.valid.name, ?_⟩
  · intro s hs
    rw [registers]
    exact (grown.regs s hs).imp (h.regs s) (hrs s)
  · rintro c s ⟨blk, found, rfl⟩
    have old : BlockNamed e.procedure c blk.name := by
      simp only [Procedure.block, Arena.get_modify] at found
      split at found
      · cases before : Arena.get e.procedure.blocks c with
        | error fault =>
          rw [before] at found
          cases found
        | ok x =>
          rw [before] at found
          cases found
          exact ⟨x, before, rfl⟩
      · exact ⟨blk, found, rfl⟩
    rw [labels, others]
    rcases grown.blocks c blk.name old with old | new
    · exact (h.blocks c blk.name old).imp_right Or.inl
    · exact Or.inr (Or.inr (hbs _ new))
  · intro n hn
    simp only [NamedProcedure.updateLast, blocks, List.dropLast_concat, List.getLast?_concat,
      Option.map_some, Option.toList_some, List.mem_append, List.mem_singleton] at hn
    have old : ∀ n ∈ front ++ [last], n.Valid := blocks ▸ h.valid.blocks
    rcases hn with hn | rfl
    · exact old n (by simp [hn])
    · have := old last (by simp)
      refine ⟨this.name, this.label, fun s hs => ?_, fun i hi => ?_⟩
      · exact (List.mem_append.mp hs).elim (this.liveIn s) (hnames s)
      · exact (List.mem_append.mp hi).elim (this.code i) (hmore i)

theorem Draft.Sound.liveIn {d e : Draft} {v : NamedProcedure} (h : d.Sound v) {b : Nat}
    (current : d.current = some b) {names : List String} (hn : ∀ s ∈ names, IsRegisterName s)
    {regs : List Reg} (numbered : names.mapM Draft.register d = (regs, e)) :
    (e.updateBlock b fun x => { x with liveIn := x.liveIn ++ regs }).Sound
      (v.updateLast fun n => { n with liveIn := n.liveIn ++ names }) := by
  obtain ⟨grown, named⟩ := numbered_registers hn d
  rw [numbered] at grown named
  have sound := h.updateLast current grown e.procedure.insts regs [] names [] (fun _ _ h => h)
    (List.append_nil _).symm named .nil (by simp) (by simp) hn (by simp)
  simpa [Draft.updateBlock] using sound

theorem Draft.Sound.inst {d e : Draft} {v : NamedProcedure} (h : d.Sound v) {b : Nat}
    (current : d.current = some b) {number : Nat} {i : NamedInst} (hi : i.Valid) {x : Inst}
    (numbered : Draft.inst number i d = (x, e)) :
    (e.addInst b x).Sound (v.updateLast fun n => { n with code := n.code ++ [i] }) := by
  obtain ⟨grown, named⟩ := numbered_inst number hi d
  rw [numbered] at grown named
  have sound := h.updateLast current grown (e.procedure.insts.push x) []
    [(e.procedure.insts.size : Int)] [] [i] (fun id y found => Arena.get_push found x)
    (by simp [List.range_succ]) .nil (.cons ⟨x, Arena.get_push_size _ x, named⟩ .nil)
    (by simp) (by simp) (by simp) (by simpa using hi)
  simpa [Draft.addInst, Draft.updateBlock] using sound

end Predication.Listing
