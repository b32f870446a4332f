import Predication.Proofs.Arenas
import Predication.Proofs.Lines

/-!
Outlines: procedures with names in place of numbers. A draft holds an outline, and every line adds
to the outline what it says. Numbers are given out in the order in which names come up, and a name
keeps its number.
-/

set_option autoImplicit false
set_option relaxedAutoImplicit false

namespace Predication.Listing

/-- A block by name. -/
structure NamedBlock where
  name : String
  liveIn : List String := []
  code : List NamedInst := []
  deriving Repr, DecidableEq

/-- A procedure by name, with its blocks in the order of the layout. -/
structure NamedProcedure where
  name : String
  blocks : List NamedBlock := []
  deriving Repr, DecidableEq

section Naming

variable (f : Procedure)

def RegNamed (r : Reg) (s : String) : Prop := Arena.get f.regs r = .ok s

def BlockNamed (b : BlockId) (s : String) : Prop := ∃ blk, f.block b = .ok blk ∧ blk.name = s

def TermNamed (t : Term) (u : NamedTerm) : Prop := RegNamed f t.reg u.reg ∧ t.negated = u.negated

/-- The operand has the name. -/
inductive OperandNamed : Operand → NamedOperand → Prop where
  | reg (r : Reg) (s : String) (named : RegNamed f r s) : OperandNamed (.reg r) (.reg s)
  | imm (v : Int) : OperandNamed (.imm v) (.imm v)
  | block (b : BlockId) (s : String) (named : BlockNamed f b s) : OperandNamed (.block b) (.block s)

/-- The instruction is the named one. -/
structure InstNamed (x : Inst) (i : NamedInst) : Prop where
  op : x.op = i.op
  guard : List.Forall₂ (TermNamed f) x.guard i.guard
  defs : List.Forall₂ (RegNamed f) x.defs i.defs
  cond : List.Forall₂ (TermNamed f) x.cond i.cond
  uses : List.Forall₂ (OperandNamed f) x.uses i.uses
  implicits : List.Forall₂ (RegNamed f) x.implicits i.implicits

def CodeNamed (id : InstId) (i : NamedInst) : Prop := ∃ x, f.inst id = .ok x ∧ InstNamed f x i

/-- The block is the named one. -/
structure BlockOutlined (b : BlockId) (n : NamedBlock) (blk : Block) : Prop where
  found : f.block b = .ok blk
  name : blk.name = n.name
  liveIn : List.Forall₂ (RegNamed f) blk.liveIn n.liveIn
  code : List.Forall₂ (CodeNamed f) blk.code n.code

end Naming

theorem BlockNamed.unique {f : Procedure} (names : (f.blocks.toList.map Block.name).Nodup)
    {b c : BlockId} {s : String} (hb : BlockNamed f b s) (hc : BlockNamed f c s) : b = c := by
  have place : ∀ {b : BlockId}, BlockNamed f b s → Arena.get (f.blocks.map Block.name) b = .ok s := by
    rintro b ⟨blk, found, rfl⟩
    rw [Arena.get_map, show Arena.get f.blocks b = .ok blk from found]
    rfl
  rw [← Array.toList_map] at names
  exact Arena.get_inj names (place hb) (place hc)

/-- Registers and blocks keep their numbers and their names. -/
structure Extends (f g : Procedure) : Prop where
  regs : ∀ r s, RegNamed f r s → RegNamed g r s
  blocks : ∀ b s, BlockNamed f b s → BlockNamed g b s

namespace Extends

variable {f g h : Procedure}

theorem refl (f : Procedure) : Extends f f := ⟨fun _ _ h => h, fun _ _ h => h⟩

theorem trans (hfg : Extends f g) (hgh : Extends g h) : Extends f h :=
  ⟨fun r s named => hgh.regs r s (hfg.regs r s named),
    fun b s named => hgh.blocks b s (hfg.blocks b s named)⟩

theorem registers (e : Extends f g) {rs : List Reg} {ss : List String}
    (named : List.Forall₂ (RegNamed f) rs ss) : List.Forall₂ (RegNamed g) rs ss :=
  named.imp fun r s => e.regs r s

private theorem terms (e : Extends f g) {ts : List Term} {us : List NamedTerm}
    (named : List.Forall₂ (TermNamed f) ts us) : List.Forall₂ (TermNamed g) ts us :=
  named.imp fun t u h => ⟨e.regs t.reg u.reg h.1, h.2⟩

private theorem operand (e : Extends f g) {x : Operand} {u : NamedOperand} (named : OperandNamed f x u) :
    OperandNamed g x u := by
  cases named with
  | reg r s named => exact .reg r s (e.regs r s named)
  | imm v => exact .imm v
  | block b s named => exact .block b s (e.blocks b s named)

theorem inst (e : Extends f g) {x : Inst} {i : NamedInst} (named : InstNamed f x i) :
    InstNamed g x i :=
  ⟨named.op, e.terms named.guard, e.registers named.defs, e.terms named.cond,
    named.uses.imp fun _ _ => e.operand, e.registers named.implicits⟩

end Extends

theorem BlockOutlined.mono {f g : Procedure} {b : BlockId} {n : NamedBlock} {blk : Block}
    (h : BlockOutlined f b n blk) (grows : Extends f g)
    (insts : ∀ id x, f.inst id = .ok x → g.inst id = .ok x) (found : g.block b = .ok blk) :
    BlockOutlined g b n blk :=
  ⟨found, h.name, grows.registers h.liveIn,
    h.code.imp fun id _ => fun ⟨x, found, named⟩ => ⟨x, insts id x found, grows.inst named⟩⟩

/-- The code of a block, and none for an id that names no block. -/
def codeOf (f : Procedure) (b : BlockId) : List InstId :=
  match f.block b with
  | .ok blk => blk.code
  | .error _ => []

theorem codeOf_eq {f : Procedure} {b : BlockId} {blk : Block} (h : f.block b = .ok blk) :
    codeOf f b = blk.code := by
  simp only [codeOf, h]

/-- A draft holds an outline: the blocks of its layout are the blocks of the outline, blocks that
are only mentioned so far are empty, and instructions are numbered in the order of the layout. -/
structure Draft.Holds (d : Draft) (v : NamedProcedure) : Prop where
  name : d.procedure.name = v.name
  sharing : d.procedure.sharing = []
  regs : d.procedure.regs.toList.Nodup
  names : (d.procedure.blocks.toList.map Block.name).Nodup
  bare : ∀ b blk, d.procedure.block b = .ok blk →
    blk.id = b ∧ blk.succs = [] ∧ blk.preds = [] ∧ blk.dead = false
  unopened : ∀ b blk, d.procedure.block b = .ok blk → b ∉ d.procedure.layout →
    blk.code = [] ∧ blk.liveIn = []
  defined_size : d.defined.size = d.procedure.blocks.size
  mentioned_size : d.mentioned.size = d.procedure.blocks.size
  defined : ∀ n : Nat, d.defined.getD n false = true ↔ (n : BlockId) ∈ d.procedure.layout
  nodup : d.procedure.layout.Nodup
  layout : List.Forall₂ (fun b n => ∃ blk, BlockOutlined d.procedure b n blk) d.procedure.layout
    v.blocks
  ordered : d.procedure.layout.flatMap (codeOf d.procedure) =
    (List.range d.procedure.insts.size).map Int.ofNat
  current : d.current.map Int.ofNat = d.procedure.layout.getLast?

theorem Draft.Holds.found {d : Draft} {v : NamedProcedure} (h : d.Holds v) {b : BlockId}
    (hb : b ∈ d.procedure.layout) : ∃ blk, d.procedure.block b = .ok blk := by
  obtain ⟨n, -, blk, outlined⟩ := exists_right_of_forall₂ h.layout hb
  exact ⟨blk, outlined.found⟩

/-- Names were numbered: the draft is the same but for registers and blocks that are new, whose
names are among the given ones. -/
structure Numbered (rs bs : List String) (d e : Draft) : Prop where
  grows : Extends d.procedure e.procedure
  current : e.current = d.current
  holds : ∀ v, d.Holds v → e.Holds v
  regs : ∀ s ∈ e.procedure.regs, s ∈ d.procedure.regs ∨ s ∈ rs
  blocks : ∀ b s, BlockNamed e.procedure b s → BlockNamed d.procedure b s ∨ s ∈ bs

namespace Numbered

variable {rs rs' bs bs' : List String} {d e e' : Draft}

theorem refl (d : Draft) : Numbered [] [] d d :=
  ⟨.refl _, rfl, fun _ h => h, fun _ h => Or.inl h, fun _ _ h => Or.inl h⟩

theorem trans (h : Numbered rs bs d e) (h' : Numbered rs' bs' e e') :
    Numbered (rs ++ rs') (bs ++ bs') d e' := by
  refine ⟨h.grows.trans h'.grows, h'.current.trans h.current, fun v hv => h'.holds v (h.holds v hv),
    fun s hs => ?_, fun b s hb => ?_⟩
  · rcases h'.regs s hs with old | new
    · exact (h.regs s old).imp_right fun m => List.mem_append_left _ m
    · exact Or.inr (List.mem_append_right _ new)
  · rcases h'.blocks b s hb with old | new
    · exact (h.blocks b s old).imp_right fun m => List.mem_append_left _ m
    · exact Or.inr (List.mem_append_right _ new)

end Numbered

private theorem register_eq (d : Draft) {s : String} (hs : s ≠ "") :
    (∃ r, Draft.register s d = (r, d) ∧ RegNamed d.procedure r s) ∨
      s ∉ d.procedure.regs ∧ Draft.register s d = ((d.procedure.regs.size : Int),
        { d with procedure := { d.procedure with regs := d.procedure.regs.push s } }) := by
  have step : Draft.register s d = (d.procedure.lookupReg? s).elim
      ((d.procedure.newReg s).2, { d with procedure := (d.procedure.newReg s).1 })
      fun r => (r, d) := by
    have looks : ∀ k : Draft → StateM Draft Reg, (get >>= k) d = k d d := fun _ => rfl
    rw [Draft.register, looks]
    cases d.procedure.lookupReg? s <;> rfl
  cases place : d.procedure.regs.findIdx? (fun n => decide (n = s)) with
  | some n =>
    obtain ⟨bound, same, -⟩ := Array.findIdx?_eq_some_iff_getElem.mp place
    refine Or.inl ⟨(n : Int), ?_, (Arena.get_natCast _ n s).mpr ?_⟩
    · rw [step, Procedure.lookupReg?, place]
      rfl
    · rw [Array.getElem?_eq_getElem bound]
      simpa using same
  | none =>
    refine Or.inr ⟨?_, ?_⟩
    · have := Array.findIdx?_eq_none_iff.mp place
      intro mem
      simpa using this s mem
    · rw [step, Procedure.lookupReg?, place]
      simp only [Option.map_none, Option.elim_none, Procedure.newReg, hs, if_false]

private theorem block_eq (line : Nat) (d : Draft) {s : String} (hs : s ≠ "") :
    (∃ n : Nat, Draft.block line s d = (n, d) ∧ BlockNamed d.procedure n s) ∨
      (∀ b, ¬ BlockNamed d.procedure b s) ∧
        Draft.block line s d = (d.procedure.blocks.size, { d with
          procedure := { d.procedure with
            blocks := d.procedure.blocks.push { id := d.procedure.blocks.size, name := s } }
          defined := d.defined.push false
          mentioned := d.mentioned.push line }) := by
  have step : Draft.block line s d =
      (d.procedure.blocks.findIdx? fun b : Block => decide (b.name = s)).elim
        (d.procedure.blocks.size, { d with
          procedure := (d.procedure.newBlock s).1
          defined := d.defined.push false
          mentioned := d.mentioned.push line })
        fun n => (n, d) := by
    have looks : ∀ k : Draft → StateM Draft Nat, (get >>= k) d = k d d := fun _ => rfl
    rw [Draft.block, looks]
    cases d.procedure.blocks.findIdx? (fun b : Block => decide (b.name = s)) <;> rfl
  cases place : d.procedure.blocks.findIdx? (fun b : Block => decide (b.name = s)) with
  | some n =>
    obtain ⟨bound, same, -⟩ := Array.findIdx?_eq_some_iff_getElem.mp place
    refine Or.inl ⟨n, ?_, d.procedure.blocks[n], (Arena.get_natCast _ n _).mpr ?_, by simpa using same⟩
    · rw [step, place, Option.elim_some]
    · exact Array.getElem?_eq_getElem bound
  | none =>
    refine Or.inr ⟨?_, ?_⟩
    · have := Array.findIdx?_eq_none_iff.mp place
      rintro b ⟨blk, found, rfl⟩
      simpa using this blk (Arena.get_ok_mem found)
    · rw [step, place, Option.elim_none]
      simp only [Procedure.newBlock, hs, if_false]

private theorem numbered_register (d : Draft) {s : String} (hs : s ≠ "") :
    Numbered [s] [] d (Draft.register s d).2 ∧
      RegNamed (Draft.register s d).2.procedure (Draft.register s d).1 s := by
  rcases register_eq d hs with ⟨r, step, named⟩ | ⟨fresh, step⟩
  · rw [step]
    exact ⟨⟨.refl _, rfl, fun _ h => h, fun _ h => Or.inl h, fun _ _ h => Or.inl h⟩, named⟩
  · rw [step]
    have grows : Extends d.procedure
        { d.procedure with regs := d.procedure.regs.push s } :=
      ⟨fun r t named => Arena.get_push named s, fun _ _ h => h⟩
    refine ⟨⟨grows, rfl, fun v h => ?_, fun t ht => ?_, fun _ _ h => Or.inl h⟩,
      Arena.get_push_size _ s⟩
    · refine { h with
        regs := ?_
        layout := h.layout.imp fun b n => fun ⟨blk, outlined⟩ =>
          ⟨blk, outlined.mono grows (fun _ _ h => h) outlined.found⟩ }
      rw [Array.toList_push, List.nodup_append]
      refine ⟨h.regs, by simp, fun t ht u hu same => fresh ?_⟩
      rwa [← List.mem_singleton.mp hu, ← same, ← Array.mem_toList_iff]
    · rcases Array.mem_push.mp ht with old | rfl
      · exact Or.inl old
      · exact Or.inr (by simp)

theorem numbered_block (line : Nat) (d : Draft) {s : String} (hs : s ≠ "") :
    Numbered [] [s] d (Draft.block line s d).2 ∧
      BlockNamed (Draft.block line s d).2.procedure (Draft.block line s d).1 s := by
  rcases block_eq line d hs with ⟨n, step, named⟩ | ⟨fresh, step⟩
  · rw [step]
    exact ⟨⟨.refl _, rfl, fun _ h => h, fun _ h => Or.inl h, fun _ _ h => Or.inl h⟩, named⟩
  · rw [step]
    have kept : ∀ b blk, d.procedure.block b = .ok blk →
        Arena.get (d.procedure.blocks.push { id := d.procedure.blocks.size, name := s }) b = .ok blk :=
      fun b blk found => Arena.get_push found _
    have grows : Extends d.procedure { d.procedure with
        blocks := d.procedure.blocks.push { id := d.procedure.blocks.size, name := s } } :=
      ⟨fun _ _ h => h, fun b t ⟨blk, found, named⟩ => ⟨blk, kept b blk found, named⟩⟩
    refine ⟨⟨grows, rfl, fun v h => ?_, fun _ h => Or.inl h, fun b t => ?_⟩,
      _, Arena.get_push_size _ _, rfl⟩
    · exact {
        name := h.name
        sharing := h.sharing
        regs := h.regs
        names := by
          rw [Array.toList_push, List.map_append, List.nodup_append]
          refine ⟨h.names, by simp, ?_⟩
          intro t ht u hu same
          obtain ⟨blk, mem, named⟩ := List.mem_map.mp ht
          obtain ⟨b, found⟩ := Arena.get_of_mem (Array.mem_toList_iff.mp mem)
          refine fresh b ⟨blk, found, ?_⟩
          rw [named, same]
          simpa using hu
        bare := by
          intro b blk found
          rcases Arena.get_push_cases found with ⟨rfl, rfl⟩ | old
          · exact ⟨rfl, rfl, rfl, rfl⟩
          · exact h.bare b blk old
        unopened := by
          intro b blk found out
          rcases Arena.get_push_cases found with ⟨rfl, rfl⟩ | old
          · exact ⟨rfl, rfl⟩
          · exact h.unopened b blk old out
        defined_size := by simp [h.defined_size]
        mentioned_size := by simp [h.mentioned_size]
        defined := by
          intro n
          refine Iff.trans ?_ (h.defined n)
          simp only [Array.getD_eq_getD_getElem?, Array.getElem?_push]
          split
          · rename_i last
            simp [last]
          · rfl
        nodup := h.nodup
        layout := h.layout.imp fun b n => fun ⟨blk, outlined⟩ =>
          ⟨blk, outlined.mono grows (fun _ _ h => h) (kept b blk outlined.found)⟩
        ordered := by
          refine Eq.trans (List.flatMap_congr fun b hb => ?_) h.ordered
          obtain ⟨blk, found⟩ := h.found hb
          rw [codeOf_eq found]
          exact codeOf_eq (kept b blk found)
        current := h.current }
    · rintro ⟨blk, found, named⟩
      rcases Arena.get_push_cases found with ⟨rfl, rfl⟩ | old
      · exact Or.inr (by simp [← named])
      · exact Or.inl ⟨blk, old, named⟩

private theorem numbered_mapM {α β : Type} {g : α → StateM Draft β} (P : Procedure → β → α → Prop)
    (keeps : ∀ f f' x a, Extends f f' → P f x a → P f' x a) (rs bs : α → List String) {l : List α}
    (step : ∀ a ∈ l, ∀ d, Numbered (rs a) (bs a) d (g a d).2 ∧ P (g a d).2.procedure (g a d).1 a)
    (d : Draft) : Numbered (l.flatMap rs) (l.flatMap bs) d (l.mapM g d).2 ∧
      List.Forall₂ (P (l.mapM g d).2.procedure) (l.mapM g d).1 l := by
  induction l generalizing d with
  | nil => exact ⟨.refl d, .nil⟩
  | cons a l ih =>
    obtain ⟨first, named⟩ := step a List.mem_cons_self d
    obtain ⟨others, all⟩ := ih (fun a ha => step a (List.mem_cons_of_mem _ ha)) (g a d).2
    have run : (a :: l).mapM g d =
        ((g a d).1 :: (l.mapM g (g a d).2).1, (l.mapM g (g a d).2).2) := by
      rw [List.mapM_cons]
      rfl
    rw [run]
    exact ⟨first.trans others, .cons (keeps _ _ _ _ others.grows named) all⟩

theorem numbered_registers {ss : List String} (hss : ∀ s ∈ ss, IsRegisterName s) (d : Draft) :
    Numbered (ss.flatMap fun s => [s]) (ss.flatMap fun _ => []) d (ss.mapM Draft.register d).2 ∧
      List.Forall₂ (RegNamed (ss.mapM Draft.register d).2.procedure)
        (ss.mapM Draft.register d).1 ss :=
  numbered_mapM RegNamed (fun _ _ r s grows named => grows.regs r s named) _ _
    (fun s hs d => numbered_register d (hss s hs).ne_empty) d

private theorem numbered_terms {ts : List NamedTerm} (hts : ∀ t ∈ ts, IsRegisterName t.reg) (d : Draft) :
    Numbered (ts.flatMap fun t => [t.reg]) (ts.flatMap fun _ => []) d (ts.mapM Draft.term d).2 ∧
      List.Forall₂ (TermNamed (ts.mapM Draft.term d).2.procedure) (ts.mapM Draft.term d).1 ts := by
  refine numbered_mapM TermNamed (fun _ _ t u grows named => ⟨grows.regs _ _ named.1, named.2⟩) _ _
    (fun t ht d => ?_) d
  obtain ⟨numbered, named⟩ := numbered_register d (hts t ht).ne_empty
  exact ⟨numbered, named, rfl⟩

def NamedOperand.registers : NamedOperand → List String
  | reg s => [s]
  | imm _ | block _ => []

/-- The blocks that an operand names. -/
def NamedOperand.blocks : NamedOperand → List String
  | block s => [s]
  | reg _ | imm _ => []

private theorem numbered_operands (line : Nat) {us : List NamedOperand} (hus : ∀ u ∈ us, u.Valid)
    (d : Draft) :
    Numbered (us.flatMap NamedOperand.registers) (us.flatMap NamedOperand.blocks) d
        (us.mapM (Draft.operand line) d).2 ∧
      List.Forall₂ (OperandNamed (us.mapM (Draft.operand line) d).2.procedure)
        (us.mapM (Draft.operand line) d).1 us := by
  refine numbered_mapM OperandNamed (fun _ _ x u grows named => grows.operand named) _ _
    (fun u hu d => ?_) d
  cases u with
  | reg s =>
    obtain ⟨numbered, named⟩ := numbered_register d (IsRegisterName.ne_empty (hus _ hu))
    exact ⟨numbered, .reg _ s named⟩
  | imm v => exact ⟨.refl d, .imm v⟩
  | block s =>
    obtain ⟨numbered, named⟩ := numbered_block line d
      (IsRegisterName.ne_empty (IsName.toIsRegisterName (hus _ hu)))
    exact ⟨numbered, .block _ s named⟩

def NamedInst.registers (i : NamedInst) : List String :=
  i.guard.map NamedTerm.reg ++ i.defs ++ i.cond.map NamedTerm.reg ++
    i.uses.flatMap NamedOperand.registers ++ i.implicits

/-- The blocks that an instruction names. -/
def NamedInst.blocks (i : NamedInst) : List String := i.uses.flatMap NamedOperand.blocks

private theorem ValidArguments.names {cond : List NamedTerm} {uses : List NamedOperand} {op : Op}
    (h : ValidArguments cond uses op) :
    (∀ t ∈ cond, IsRegisterName t.reg) ∧ ∀ u ∈ uses, u.Valid := by
  cases op with
  | phi =>
    obtain ⟨rfl, xs, rfl, hxs⟩ := h
    refine ⟨by simp, fun u hu => ?_⟩
    obtain ⟨x, hx, hu⟩ := List.mem_flatMap.mp hu
    rcases List.mem_pair.mp hu with rfl | rfl
    · exact (hxs x hx).1
    · exact (hxs x hx).2
  | sel =>
    obtain ⟨-, hc, x, y, rfl, hx, hy⟩ := h
    refine ⟨hc, fun u hu => ?_⟩
    rcases List.mem_pair.mp hu with rfl | rfl
    · exact hx
    · exact hy
  | brc =>
    obtain ⟨-, hc, s, rfl, hs⟩ := h
    exact ⟨hc, fun u hu => List.mem_singleton.mp hu ▸ hs⟩
  | br =>
    obtain ⟨rfl, s, rfl, hs⟩ := h
    exact ⟨by simp, fun u hu => List.mem_singleton.mp hu ▸ hs⟩
  | copy | undef | ret | switch | dbg | other name =>
    obtain ⟨rfl, hus, -⟩ := h
    exact ⟨by simp, hus⟩

theorem Numbered.mono {rs rs' bs bs' : List String} {d e : Draft} (h : Numbered rs bs d e)
    (hr : rs ⊆ rs') (hb : bs ⊆ bs') : Numbered rs' bs' d e :=
  ⟨h.grows, h.current, h.holds, fun s hs => (h.regs s hs).imp_right fun m => hr m,
    fun b s hs => (h.blocks b s hs).imp_right fun m => hb m⟩

theorem numbered_inst (line : Nat) {i : NamedInst} (hi : i.Valid) (d : Draft) :
    Numbered i.registers i.blocks d (Draft.inst line i d).2 ∧
      InstNamed (Draft.inst line i d).2.procedure (Draft.inst line i d).1 i := by
  obtain ⟨hcond, huses⟩ := hi.arguments.names
  -- the parts are numbered in the order of the text, and each keeps its names to the end
  obtain ⟨n₁, guard⟩ := numbered_terms hi.guard d
  obtain ⟨n₂, defs⟩ := numbered_registers hi.defs (i.guard.mapM Draft.term d).2
  obtain ⟨n₃, cond⟩ := numbered_terms hcond (i.defs.mapM Draft.register _).2
  obtain ⟨n₄, uses⟩ := numbered_operands line huses (i.cond.mapM Draft.term _).2
  obtain ⟨n₅, implicits⟩ := numbered_registers hi.implicits (i.uses.mapM (Draft.operand line) _).2
  have all := (((n₁.trans n₂).trans n₃).trans n₄).trans n₅
  refine ⟨all.mono ?_ ?_, rfl, ?_, ?_, ?_, ?_, implicits⟩
  · intro s hs
    simpa [NamedInst.registers, eq_comm] using hs
  · intro s hs
    simpa [NamedInst.blocks] using hs
  · exact (((n₂.grows.trans n₃.grows).trans n₄.grows).trans n₅.grows).terms guard
  · exact ((n₃.grows.trans n₄.grows).trans n₅.grows).registers defs
  · exact (n₄.grows.trans n₅.grows).terms cond
  · exact uses.imp fun _ _ => n₅.grows.operand

end Predication.Listing
