import Predication.Proofs.Endings
import Predication.Proofs.Execution
import Predication.Proofs.Guidance

/-!
Strict single-assignment form. Every register is written at one place at most, and control passes
that place before it comes to where the register is read. The ways of control are those along which
the code leads, with the registers that were written on them.
-/

set_option autoImplicit false
set_option relaxedAutoImplicit false

namespace Predication

def Operand.reg? : Operand → Option Reg
  | .reg r _ => some r
  | .imm _ _ | .block _ => none

/-- What the operation does depends on its condition. -/
def Op.tests : Op → Bool
  | sel | brc | other _ => true
  | _ => false

namespace Inst

/-- The registers that the instruction reads when it is executed. -/
def reads (x : Inst) : List Reg :=
  if x.op = .phi ∨ x.op.isDebug = true then []
  else x.uses.filterMap Operand.reg? ++ (if x.op.tests then x.cond.map Term.reg else []) ++
    x.guard.map Term.reg

/-- A phi is not guarded, it has one definition, and its operands are values with the blocks that
bring them. An unconditional branch names the block that it leads to, and only branches, switches and
phis speak of blocks. -/
structure Regular (x : Inst) : Prop where
  free : x.op = .phi → x.guard = []
  defs : x.op = .phi → ∃ d, x.defs = [d]
  even : x.op = .phi → x.uses.length % 2 = 0
  values : x.op = .phi → ∀ y ∈ x.phiInputs, y.value.block? = none
  leads : x.op = .br → ∃ t rest, x.uses = .block t :: rest ∧ t ≠ -1
  plain : x.op ≠ .br → x.op ≠ .brc → x.op ≠ .switch → x.targets = []

end Inst

def Branches (l pre : List Inst) (t : BlockId) : Prop :=
  Passable pre ∧ ∃ x post, l = pre ++ x :: post ∧ t ∈ x.targets

namespace Procedure

def Leaves (f : Procedure) (b : BlockId) (pre : List Inst) (t : BlockId) : Prop :=
  Branches (f.instsAt b) pre t ∨
    (Passable (f.instsAt b) ∧ f.next? b = some t) ∧ pre = f.instsAt b

def GoesTo (f : Procedure) (b t : BlockId) : Prop := ∃ pre, f.Leaves b pre t

/-- Control may come from `source` to `b` on a way on which the registers `rs` were written. -/
inductive Arrives (f : Procedure) : Option BlockId → BlockId → List Reg → Prop
  | entry {b : BlockId} : f.entry? = some b → Arrives f none b []
  | edge {source : Option BlockId} {b t : BlockId} {rs : List Reg} {pre : List Inst} :
      Arrives f source b rs → f.Leaves b pre t → Arrives f (some b) t (rs ++ writesOf pre)

def Writes (f : Procedure) (r : Reg) : Prop := ∃ b, r ∈ writesOf (f.instsAt b)

/-- Every register is written at one place at most, and control passes that place before it comes to
where the register is read. A phi reads its values where control comes from. -/
structure Strict (f : Procedure) : Prop where
  alone : ∀ b c r, r ∈ writesOf (f.instsAt b) → r ∈ writesOf (f.instsAt c) → b = c
  once : ∀ b, (writesOf (f.instsAt b)).Nodup
  reads : ∀ {source b rs pre x post}, f.Arrives source b rs → f.instsAt b = pre ++ x :: post →
    Passable pre → ∀ r ∈ x.reads, f.Writes r → r ∈ rs ++ writesOf pre
  inputs : ∀ {p b rs x r label}, f.Arrives (some p) b rs → x ∈ f.instsAt b → x.op = .phi →
    x.phiValue? p = some (.reg r label) → f.Writes r → r ∈ rs

def Quiet (f : Procedure) : Prop :=
  ∀ e ∈ f.sharing, ∀ y, f.inst e.1 = .ok y → y.op ≠ .phi ∧ y.targets = []

/-- Every instruction of the code is found and stands at one place, and phis come first. -/
structure Sited (f : Procedure) : Prop where
  found : ∀ b, ∀ i ∈ (f.blockAt b).code, ∃ x, f.inst i = .ok x
  single : ∀ b, (f.blockAt b).code.Nodup
  alone : ∀ b c i, i ∈ (f.blockAt b).code → i ∈ (f.blockAt c).code → b = c
  ordered : ∀ b, (f.instsAt b).Pairwise Inst.PhiOrder
  quiet : f.Quiet

/-- A procedure in strict form whose code leads along edges, whose phis have a value for every edge,
and whose last block is not left at its end. -/
structure Sound (f : Procedure) : Prop extends Guided f where
  sited : f.Sited
  regular : ∀ b, ∀ x ∈ f.instsAt b, x.Regular
  edges : ∀ b t, f.GoesTo b t → t ∈ (f.blockAt b).succs
  sources : ∀ b, ∀ x ∈ f.instsAt b, x.op = .phi → ∀ p, p ∈ x.sources ↔ p ∈ (f.blockAt b).preds
  closed : ∀ b ∈ f.layout, Passable (f.instsAt b) → ∃ t, f.next? b = some t
  strict : f.Strict

end Procedure

section Code

variable {l l' pre : List Inst} {x : Inst} {t : BlockId}

theorem passable_nil : Passable [] := fun _ mem => absurd mem List.not_mem_nil

theorem passable_cons : Passable (x :: l) ↔ x.endsFlow = false ∧ Passable l := List.forall_mem_cons

theorem not_branches_nil : ¬ Branches [] pre t := by
  rintro ⟨-, x, post, split, -⟩
  simp at split

theorem branches_cons : Branches (x :: l) pre t ↔
    (pre = [] ∧ t ∈ x.targets) ∨
      ∃ pre', pre = x :: pre' ∧ x.endsFlow = false ∧ Branches l pre' t := by
  constructor
  · rintro ⟨pass, y, post, split, target⟩
    cases pre with
    | nil =>
      cases split
      exact .inl ⟨rfl, target⟩
    | cons z pre =>
      cases split
      exact .inr ⟨pre, rfl, (passable_cons.mp pass).1, (passable_cons.mp pass).2, y, post, rfl, target⟩
  · rintro (⟨rfl, target⟩ | ⟨pre', rfl, goes, pass, y, post, rfl, target⟩)
    · exact ⟨passable_nil, x, l, rfl, target⟩
    · exact ⟨passable_cons.mpr ⟨goes, pass⟩, y, post, rfl, target⟩

theorem branches_append : Branches (l ++ l') pre t ↔
    Branches l pre t ∨ Passable l ∧ ∃ pre', pre = l ++ pre' ∧ Branches l' pre' t := by
  induction l generalizing pre with
  | nil =>
    simp only [List.nil_append, not_branches_nil, passable_nil, false_or, true_and]
    exact ⟨fun h => ⟨pre, rfl, h⟩, fun ⟨_, same, h⟩ => same ▸ h⟩
  | cons x l ih =>
    simp only [List.cons_append, branches_cons, passable_cons, ih]
    constructor
    · rintro (here | ⟨pre', rfl, goes, inside | ⟨pass, pre'', rfl, behind⟩⟩)
      · exact .inl (.inl here)
      · exact .inl (.inr ⟨pre', rfl, goes, inside⟩)
      · exact .inr ⟨⟨goes, pass⟩, pre'', rfl, behind⟩
    · rintro ((here | ⟨pre', rfl, goes, inside⟩) | ⟨⟨goes, pass⟩, pre'', rfl, behind⟩)
      · exact .inl here
      · exact .inr ⟨pre', rfl, goes, .inl inside⟩
      · exact .inr ⟨l ++ pre'', rfl, goes, .inr ⟨pass, pre'', rfl, behind⟩⟩

theorem split_append {post : List Inst} (h : l ++ l' = pre ++ x :: post) :
    (∃ post', l = pre ++ x :: post') ∨ ∃ pre', pre = l ++ pre' ∧ l' = pre' ++ x :: post := by
  rcases List.append_eq_append_iff.mp h with ⟨inside, rfl, behind⟩ | ⟨inside, rfl, cut⟩
  · exact .inr ⟨inside, rfl, behind⟩
  · cases inside with
    | nil => exact .inr ⟨[], by simp, cut.symm⟩
    | cons y inside =>
      cases cut
      exact .inl ⟨inside, rfl⟩

theorem not_branches_of_targets (h : ∀ x ∈ l, x.targets = []) : ¬ Branches l pre t := by
  rintro ⟨-, x, post, rfl, target⟩
  rw [h x (by simp)] at target
  cases target

theorem passable_of_inner (h : ∀ x ∈ l, x.op.isTerminator = false) : Passable l := fun x mem =>
  Inst.endsFlow_eq_false (h x mem)

private theorem mem_flowOf : t ∈ (flowOf l).1 ↔ ∃ pre, Branches l pre t := by
  induction l with
  | nil =>
    simp only [flowOf, List.not_mem_nil, false_iff]
    rintro ⟨pre, leaves⟩
    exact not_branches_nil leaves
  | cons x l ih =>
    rw [flowOf]
    constructor
    · intro mem
      split at mem
      · exact ⟨[], branches_cons.mpr (.inl ⟨rfl, mem⟩)⟩
      · rename_i goes
        rcases List.mem_append.mp mem with here | later
        · exact ⟨[], branches_cons.mpr (.inl ⟨rfl, here⟩)⟩
        · obtain ⟨pre, leaves⟩ := ih.mp later
          exact ⟨x :: pre, branches_cons.mpr (.inr ⟨pre, rfl, by simpa using goes, leaves⟩)⟩
    · rintro ⟨pre, leaves⟩
      rcases branches_cons.mp leaves with ⟨-, here⟩ | ⟨pre', -, goes, later⟩
      · split
        · exact here
        · exact List.mem_append_left _ here
      · rw [if_neg (by simp [goes])]
        exact List.mem_append_right _ (ih.mpr ⟨pre', later⟩)

private theorem flowOf_passable : (flowOf l).2 = true ↔ Passable l := by
  induction l with
  | nil => simp [flowOf, passable_nil]
  | cons x l ih =>
    rw [flowOf, passable_cons]
    cases ends : x.endsFlow with
    | true => simp
    | false => simp [ih]

end Code

namespace Procedure

variable {f g : Procedure} {b c p t : BlockId} {source : Option BlockId} {rs : List Reg} {r : Reg}
  {x : Inst} {pre : List Inst}

theorem mem_flowSuccs (found : ∀ i ∈ (f.blockAt b).code, ∃ x, f.inst i = .ok x)
    {succs : List BlockId} (h : f.flowSuccs b = .ok succs) : t ∈ succs ↔ f.GoesTo b t := by
  obtain ⟨blk, targets, falls, block, flow, rfl⟩ := flowSuccs_ok.mp h
  rw [← blockAt_eq block, flowTargets_eq found] at flow
  change Except.ok (flowOf (f.instsAt b)) = _ at flow
  injection flow with flow
  rw [mem_distinct, List.mem_append]
  constructor
  · rintro (branch | next)
    · have branch : t ∈ (flowOf (f.instsAt b)).1 := by rw [flow]; exact branch
      obtain ⟨pre, leaves⟩ := mem_flowOf.mp branch
      exact ⟨pre, .inl leaves⟩
    · split at next
      · rename_i runs
        refine ⟨_, .inr ⟨⟨flowOf_passable.mp ?_, by simpa using next⟩, rfl⟩⟩
        rw [flow]
        exact runs
      · cases next
  · rintro ⟨pre, branch | ⟨⟨pass, next⟩, -⟩⟩
    · have := mem_flowOf.mpr ⟨pre, branch⟩
      rw [flow] at this
      exact .inl this
    · have runs := flowOf_passable.mpr pass
      rw [flow] at runs
      right
      rw [if_pos runs, next]
      simp

theorem Sited.instsAt_live (meshed : f.Meshed) (h : x ∈ f.instsAt b) : (f.blockAt b).dead = false := by
  obtain ⟨i, mem, -⟩ := mem_instsAt.mp h
  by_contra dead
  rw [(meshed.removed b (by simpa using dead)).2] at mem
  cases mem

theorem next?_mem (h : f.next? b = some t) : b ∈ f.layout ∧ t ∈ f.layout := by
  have next := (next?_eq_some.mp h).1
  refine ⟨?_, following_mem next⟩
  by_contra out
  have none : ∀ l : List BlockId, b ∉ l → following b l = none := by
    intro l
    induction l with
    | nil => exact fun _ => rfl
    | cons a l ih =>
      intro out
      rw [List.mem_cons, not_or] at out
      rw [following, if_neg (Ne.symm out.1)]
      exact ih out.2
  rw [none _ out] at next
  cases next

theorem Arrives.leads (h : f.Arrives (some p) b rs) :
    f.GoesTo p b ∧ ∃ source rs', f.Arrives source p rs' := by
  cases h with
  | edge way leaves => exact ⟨⟨_, leaves⟩, _, _, way⟩

theorem Arrives.of_none (h : f.Arrives none b rs) : f.entry? = some b ∧ rs = [] := by
  cases h with
  | entry first => exact ⟨first, rfl⟩

theorem Sound.arrives_edge (sound : f.Sound) (h : f.Arrives (some p) b rs) :
    p ∈ (f.blockAt b).preds :=
  (sound.mutual_ends p b).mp (sound.edges p b h.leads.1)

theorem Sound.leads_live (sound : f.Sound) (h : f.GoesTo b t) :
    (f.blockAt b).dead = false ∧ (f.blockAt t).dead = false :=
  ⟨sound.toMeshed.live (sound.edges b t h), sound.live b t (sound.edges b t h)⟩

theorem Leaves.writes (h : f.Leaves b pre t) (mem : r ∈ writesOf pre) :
    r ∈ writesOf (f.instsAt b) := by
  rcases h with ⟨-, x, post, split, -⟩ | ⟨-, rfl⟩
  · rw [split, writesOf_append]
    exact List.mem_append_left _ mem
  · exact mem

theorem Strict.same (h : f.Strict) {y : Inst} (hx : x ∈ f.instsAt b) (hy : y ∈ f.instsAt b)
    (writes : r ∈ x.writes) (writes' : r ∈ y.writes) : x = y := by
  by_contra different
  have apart := (List.pairwise_flatMap.mp (h.once b)).2
  obtain ⟨l, l', split⟩ := List.append_of_mem hx
  rw [split, List.pairwise_append, List.pairwise_cons] at apart
  rw [split, List.mem_append, List.mem_cons] at hy
  rcases hy with before | rfl | after
  · exact apart.2.2 y before x List.mem_cons_self r writes' r writes rfl
  · exact different rfl
  · exact apart.2.1.1 y after r writes r writes' rfl

theorem Strict.first (h : f.Strict) (way : f.Arrives source b rs) (mem : r ∈ writesOf (f.instsAt b)) :
    ∃ source' rs', f.Arrives source' b rs' ∧ r ∉ rs' := by
  have early : ∀ {source c rs}, f.Arrives source c rs →
      r ∉ rs ∨ ∃ source' rs', f.Arrives source' b rs' ∧ r ∉ rs' := by
    intro source c rs way
    induction way with
    | entry => exact .inl List.not_mem_nil
    | @edge source c t rs pre before leaves ih =>
      rcases ih with new | done
      · by_cases written : r ∈ writesOf pre
        · obtain rfl := h.alone c b r (leaves.writes written) mem
          exact .inr ⟨source, rs, before, new⟩
        · exact .inl (by simp [new, written])
      · exact .inr done
  rcases early way with new | done
  · exact ⟨source, rs, way, new⟩
  · exact done

/-- A procedure is in strict form if it writes at least as much on its ways as one that is, and reads
no more at any place of them. -/
theorem Strict.carry (h : f.Strict)
    (writes : ∀ c, ∀ r ∈ writesOf (g.instsAt c), r ∈ writesOf (f.instsAt c))
    (once : ∀ c, (writesOf (g.instsAt c)).Nodup)
    (ways : ∀ {source b rs}, g.Arrives source b rs →
      ∃ source' rs', f.Arrives source' b rs' ∧ rs' ⊆ rs)
    (places : ∀ {b pre x post}, g.instsAt b = pre ++ x :: post → Passable pre →
      ∃ pre' x' post', f.instsAt b = pre' ++ x' :: post' ∧ Passable pre' ∧
        writesOf pre' ⊆ writesOf pre ∧ ∀ r ∈ x.reads, r ∈ x'.reads)
    (inputs : ∀ {p b rs x r label}, g.Arrives (some p) b rs → x ∈ g.instsAt b → x.op = .phi →
      x.phiValue? p = some (.reg r label) → f.Writes r → r ∈ rs) : g.Strict where
  alone b c r hb hc := h.alone b c r (writes b r hb) (writes c r hc)
  once := once
  reads := by
    rintro source b rs pre x post way split pass r hr ⟨c, written⟩
    obtain ⟨source', rs', way, fewer⟩ := ways way
    obtain ⟨pre', x', post', split', pass', less, reads⟩ := places split pass
    have mem := h.reads way split' pass' r (reads r hr) ⟨c, writes c r written⟩
    rw [List.mem_append] at mem ⊢
    exact mem.imp (@fewer r) (@less r)
  inputs := by
    rintro p b rs x r label way mem phi value ⟨c, written⟩
    exact inputs way mem phi value ⟨c, writes c r written⟩

end Procedure

section Locations

variable {V : Type} {f g : Procedure} {m : Machine V} {c : Snapshot V} {b : BlockId}
  {s s' : Store V} {t : BlockId} {source : Option BlockId}

def Snapshot.Located (f : Procedure) (c : Snapshot V) : Prop :=
  ∀ source b, c.spot = .block source b → ∃ rs, f.Arrives source b rs

namespace Procedure

theorem leaves_of_run (h : m.run (f.instsAt b) s = .leave (some t) s') : ∃ pre, f.Leaves b pre t := by
  obtain ⟨pre, x, post, split, pass, target⟩ := Machine.target_of_run h
  exact ⟨pre, .inl ⟨pass, x, post, split, target t rfl⟩⟩

theorem leaves_of_falls (h : m.run (f.instsAt b) s = .on s') (next : f.next? b = some t) :
    f.Leaves b (f.instsAt b) t :=
  .inr ⟨⟨Machine.passable_of_run h, next⟩, rfl⟩

theorem located_start (file : Reg → V) : (f.start file).Located f := by
  intro source b spot
  unfold start at spot
  split at spot
  · rename_i entry first
    cases spot
    exact ⟨[], .entry first⟩
  · cases spot

theorem located_arrive {rs : List Reg} (way : f.Arrives source b rs) {t : Option BlockId}
    (h : ∀ u ∈ t, f.GoesTo b u) : (Snapshot.arrive b t s).Located f := by
  intro source' b' spot
  cases t with
  | none => cases spot
  | some u =>
    cases spot
    obtain ⟨pre, leaves⟩ := h _ rfl
    exact ⟨_, way.edge leaves⟩

theorem located_depart {rs : List Reg} (way : f.Arrives source b rs) :
    (f.depart b (m.run (f.instsAt b) s)).Located f := by
  cases run : m.run (f.instsAt b) s with
  | on s' => exact located_arrive way fun u next => ⟨_, leaves_of_falls run next⟩
  | leave t s' =>
    refine located_arrive way fun u target => ?_
    cases target
    exact leaves_of_run run
  | ret => exact fun _ _ spot => by cases spot

private theorem located_step (h : c.Located f) : (f.step m c).Located f := by
  unfold step
  split
  · rename_i source b spot
    obtain ⟨rs, way⟩ := h source b spot
    exact located_depart way
  · exact h

theorem alike_of_steps (entry : g.entry? = f.entry?)
    (h : ∀ (V : Type) (m : Machine V) (c : Snapshot V), c.Located f → g.step m c = f.step m c) :
    Alike f g := by
  refine alike_of_simulates fun V m => ⟨fun c d => c = d ∧ c.Located f, ?_, ?_, ?_, ?_⟩
  · intro file
    refine ⟨?_, located_start file⟩
    unfold start
    rw [entry]
  · rintro c _ ⟨rfl, located⟩
    exact ⟨0, (h V m c located).symm, located_step located⟩
  · rintro c _ ⟨rfl, -⟩
    rfl
  · rintro c _ ⟨rfl, -⟩
    rfl

end Procedure

end Locations

end Predication
