import Predication.Machine.Datapath
import Predication.Proofs.Execution
import Predication.Proofs.Roles

/-!
What guarded code does. The guard of an instruction is read when control comes to it, so code that
sets a register of its own condition could be cut off in the middle. Where nothing is executed behind
the setting of a predicate, it is not: guarded by a condition, such code runs as before where the
condition holds at its start, and does nothing elsewhere.
-/

set_option autoImplicit false
set_option relaxedAutoImplicit false

namespace Predication

theorem Condition.mem_conj {t : Term} {a c : Condition} : t ∈ a.conj c ↔ t ∈ a ∨ t ∈ c := by
  unfold Condition.conj
  induction c generalizing a with
  | nil => simp
  | cons u c ih =>
    rw [List.foldl_cons, ih]
    split
    · rename_i old
      rw [List.mem_cons]
      constructor
      · rintro (h | h)
        · exact .inl h
        · exact .inr (.inr h)
      · rintro (h | rfl | h)
        · exact .inl h
        · exact .inl old
        · exact .inr h
    · rw [List.mem_append, List.mem_singleton, List.mem_cons, or_assoc]

variable {V : Type}

namespace Machine

variable (m : Machine V) (label : BlockId → V)

/-- The value of an operand. Blocks have values too, so that every operand keeps its place. -/
def reading (file : Reg → V) : Operand → V
  | .reg r _ => file r
  | .imm v _ => m.constant v
  | .block b => label b

private theorem holds_conj (file : Reg → V) (a c : Condition) :
    m.holds file (a.conj c) = (m.holds file a && m.holds file c) := by
  rw [Bool.eq_iff_iff, Bool.and_eq_true]
  simp only [holds, List.all_eq_true, Condition.mem_conj]
  constructor
  · intro h
    exact ⟨fun t mem => h t (.inl mem), fun t mem => h t (.inr mem)⟩
  · rintro ⟨old, new⟩ t (mem | mem)
    · exact old t mem
    · exact new t mem

theorem holds_congr {file file' : Reg → V} {c : Condition}
    (same : ∀ t ∈ c, file' t.reg = file t.reg) : m.holds file' c = m.holds file c := by
  unfold holds
  rw [Bool.eq_iff_iff, List.all_eq_true, List.all_eq_true]
  refine forall₂_congr fun t mem => ?_
  rw [same t mem]

end Machine

namespace Store

private theorem write_single {s : Store V} {r : Reg} {result result' : Nat → V}
    (same : result 0 = result' 0) :
    s.write [r] result = s.write [r] result' := by
  unfold write
  congr 1
  funext q
  split
  · rename_i mem
    rw [List.mem_singleton.mp mem, List.idxOf_cons_self]
    exact same
  · rfl

private theorem write_former (s : Store V) (r : Reg) : s.write [r] (fun _ => s.file r) = s := by
  unfold write
  congr 1
  funext q
  split
  · rename_i mem
    rw [List.mem_singleton.mp mem]
  · rfl

end Store

namespace Datapath

variable (d : Datapath) (f : Procedure)

/-- The registers that an instruction sets. An operation of the machine sets those that its profile
names beside its definitions. -/
def sets (x : Inst) : List Reg :=
  x.writes ++ match x.op with
    | .other _ => d.redefines f x
    | _ => []

variable (m : Machine V) (label : BlockId → V)

/-- Executes an instruction with all that it sets, if its guard holds. -/
def perform (x : Inst) (s : Store V) : Exit V :=
  if m.holds s.file x.guard then
    m.act x.op (d.sets f x) x.targets (x.uses.map (m.reading label s.file)) (m.holds s.file x.cond) s
  else
    .on s

/-- Executes code up to where control leaves it. -/
def performAll : List Inst → Store V → Exit V
  | [], s => .on s
  | x :: rest, s => (d.perform f m label x s).andThen (performAll rest)

end Datapath

section Narrowing

variable {d : Datapath} {f : Procedure} {m : Machine V} {label : BlockId → V} {c : Condition}
  {x y z : Inst} {s s' : Store V} {r : Reg}

theorem Datapath.perform_debug (debug : x.op.isDebug = true) : d.perform f m label x s = .on s := by
  have op : x.op = .dbg := by
    revert debug
    cases x.op <;> simp [Op.isDebug]
  unfold perform
  rw [op]
  split <;> rfl

theorem Datapath.file_perform (h : d.perform f m label x s = .on s') (free : r ∉ d.sets f x) :
    s'.file r = s.file r := by
  unfold perform at h
  split at h
  · have kept : ∀ (s : Store V) (result : Nat → V), (s.write (d.sets f x) result).file r = s.file r :=
      fun s result => if_neg free
    cases op : x.op with
    | copy | undef | sel | other =>
      rw [op, Machine.act] at h
      cases h
      exact kept _ _
    | brc =>
      rw [op, Machine.act] at h
      split at h
      · cases h
      · cases h
        rfl
    | phi | dbg =>
      rw [op, Machine.act] at h
      cases h
      rfl
    | br | ret | switch =>
      rw [op, Machine.act] at h
      cases h
  · cases h
    rfl

theorem Datapath.performAll_inner {l : List Inst} (inner : ∀ x ∈ l, x.op.isTerminator = false) :
    ∃ s', d.performAll f m label l s = .on s' := by
  induction l generalizing s with
  | nil => exact ⟨s, rfl⟩
  | cons x l ih =>
    have first : ∃ s₁, d.perform f m label x s = .on s₁ := by
      have inner := inner x List.mem_cons_self
      unfold perform
      split
      · cases op : x.op <;> simp [op, Machine.act, Op.isTerminator] at inner ⊢
      · exact ⟨s, rfl⟩
    obtain ⟨s₁, first⟩ := first
    rw [performAll, first]
    exact ih fun y hy => inner y (List.mem_cons_of_mem x hy)

/-- An instruction with another guard, or a copy as a select that reads the former value too. -/
inductive Recast (x : Inst) : Inst → Prop
  | guarded (guard : Condition) (implicits : List Reg) :
      Recast x { x with guard := guard, implicits := implicits }
  | selected {r : Reg} {v : Operand} (copy : x.op = .copy) (defs : x.defs = [r]) (uses : x.uses = [v])
      (cond guard : Condition) (implicits : List Reg) :
      Recast x { x with op := .sel, uses := [v, .reg r], cond := cond, guard := guard, implicits := implicits }

theorem Recast.trans (h : Recast x y) (h' : Recast y z) : Recast x z := by
  cases h with
  | guarded =>
    cases h' with
    | guarded => exact .guarded _ _
    | selected copy defs uses => exact .selected (x := x) copy defs uses _ _ _
  | selected copy defs uses =>
    cases h' with
    | guarded => exact .selected copy defs uses _ _ _
    | selected again => cases again

/-- The instruction `y` does what `x` does where the condition holds, and nothing elsewhere. -/
structure Narrows (d : Datapath) (f : Procedure) (c : Condition) (x y : Inst) : Prop where
  performs : ∀ (V : Type) (m : Machine V) (label : BlockId → V) (s : Store V),
    d.perform f m label y s = if m.holds s.file c then d.perform f m label x s else .on s
  recast : Recast x y

private theorem Narrows.isDebug (h : Narrows d f c x y) : y.op.isDebug = x.op.isDebug := by
  obtain ⟨-, _ | copy⟩ := h
  · rfl
  · rw [copy]
    rfl

theorem Narrows.defined (h : Narrows d f c x y) (known : x.op ≠ .undef) : y.op ≠ .undef := by
  obtain ⟨-, _ | _⟩ := h
  · exact known
  · simp

theorem Narrows.philess (h : Narrows d f c x y) (none : x.op ≠ .phi) : y.op ≠ .phi := by
  obtain ⟨-, _ | _⟩ := h
  · exact none
  · simp

theorem Narrows.trans (h : Narrows d f c x y) (h' : Narrows d f c y z) : Narrows d f c x z where
  performs V m label s := by
    rw [h'.performs, h.performs]
    split <;> rfl
  recast := h.recast.trans h'.recast

theorem Narrows.implicits (h : Narrows d f c x y) (implicits : List Reg) :
    Narrows d f c x { y with implicits := implicits } :=
  ⟨h.performs, h.recast.trans (.guarded _ _)⟩

theorem narrows_debug (debug : x.op.isDebug = true) : Narrows d f c x x where
  performs V m label s := by rw [Datapath.perform_debug debug, ite_self]
  recast := .guarded _ _

theorem narrows_guard (x : Inst) : Narrows d f c x { x with guard := x.guard.conj c } where
  performs V m label s := by
    change (if m.holds s.file (x.guard.conj c) then m.act x.op (d.sets f x) x.targets
      (x.uses.map (m.reading label s.file)) (m.holds s.file x.cond) s else .on s) = _
    rw [m.holds_conj]
    unfold Datapath.perform
    cases m.holds s.file x.guard <;> cases m.holds s.file c <;> rfl
  recast := .guarded _ _

theorem narrows_select {v : Operand} (copy : x.op = .copy) (defs : x.defs = [r]) (uses : x.uses = [v]) :
    Narrows d f c x { x with op := .sel, cond := c, uses := [v, .reg r] } where
  performs V m label s := by
    have sets : d.sets f x = [r] := by
      simp only [Datapath.sets, Inst.writes, Inst.isWriter, copy, defs, List.append_nil]
      rfl
    have sets' : d.sets f { x with op := .sel, cond := c, uses := [v, .reg r] } = [r] := by
      simp only [Datapath.sets, Inst.writes, Inst.isWriter, defs, List.append_nil]
      rfl
    unfold Datapath.perform
    rw [sets, sets', copy, uses]
    dsimp only [Machine.act, List.map]
    cases m.holds s.file x.guard with
    | false => exact (ite_self _).symm
    | true =>
      cases m.holds s.file c with
      | true => exact congrArg Exit.on (Store.write_single rfl)
      | false => exact congrArg Exit.on (Store.write_former s r)
  recast := .selected copy defs uses _ _ _

def Closing (d : Datapath) (l : List Inst) : Prop :=
  l.Pairwise fun x y => x.op.isDebug = false → (d.profile x.op).setsPredicate = true →
    y.op.isDebug = true

private theorem performAll_of_debug {l l' : List Inst} (pairs : List.Forall₂ (Narrows d f c) l l')
    (debug : ∀ x ∈ l, x.op.isDebug = true) :
    d.performAll f m label l' s = .on s ∧ d.performAll f m label l s = .on s := by
  induction pairs with
  | nil => exact ⟨rfl, rfl⟩
  | @cons x y l l' first _ ih =>
    obtain ⟨marker, debug⟩ := List.forall_mem_cons.mp debug
    simp only [Datapath.performAll, Datapath.perform_debug marker,
      Datapath.perform_debug (first.isDebug.trans marker), Exit.andThen_on]
    exact ih debug

/-- Narrowed code runs where the condition holds at its start. The condition may be lost on the way,
but only where nothing comes any more. -/
theorem performAll_narrows {l l' : List Inst} (pairs : List.Forall₂ (Narrows d f c) l l')
    (closing : Closing d l)
    (sets : ∀ x ∈ l, (∃ t ∈ c, t.reg ∈ d.sets f x) → (d.profile x.op).setsPredicate = true) :
    d.performAll f m label l' s =
      if m.holds s.file c then d.performAll f m label l s else .on s := by
  induction pairs generalizing s with
  | nil => exact (ite_self _).symm
  | @cons x y l l' first rest ih =>
    obtain ⟨closes, closing⟩ := List.pairwise_cons.mp closing
    obtain ⟨here, later⟩ := List.forall_mem_cons.mp sets
    rw [Datapath.performAll, Datapath.performAll, first.performs]
    cases start : m.holds s.file c with
    | false =>
      simp only [Bool.false_eq_true, if_false, Exit.andThen_on]
      rw [ih closing later, start]
      rfl
    | true =>
      simp only [if_true]
      cases runs : d.perform f m label x s with
      | leave | ret => rfl
      | on s' =>
        rw [Exit.andThen_on, Exit.andThen_on]
        by_cases last : x.op.isDebug = false ∧ (d.profile x.op).setsPredicate = true
        · have none : d.performAll f m label l' s' = .on s' ∧ d.performAll f m label l s' = .on s' :=
            performAll_of_debug rest fun z hz => closes z hz last.1 last.2
          rw [none.1, none.2]
        · have still : m.holds s'.file c = true := by
            cases debug : x.op.isDebug with
            | true =>
              rw [Datapath.perform_debug debug] at runs
              cases runs
              exact start
            | false =>
              rw [← start]
              exact m.holds_congr fun t mem => Datapath.file_perform runs fun set =>
                last ⟨debug, here ⟨t, mem, set⟩⟩
          rw [ih closing later, if_pos still]

end Narrowing

section Registers

variable {d : Datapath} {f g : Procedure} {m : Machine V} {label : BlockId → V} {c : Condition}
  {x y : Inst} {s : Store V}

private theorem Datapath.sets_congr (regs : g.regs = f.regs) : d.sets g x = d.sets f x := by
  have same : g.lookupReg? = f.lookupReg? := by
    funext name
    rw [Procedure.lookupReg?, Procedure.lookupReg?, regs]
  unfold sets redefines
  rw [same]

private theorem Datapath.perform_congr (regs : g.regs = f.regs) :
    d.perform g m label x s = d.perform f m label x s := by
  unfold perform
  rw [sets_congr regs]

theorem Datapath.performAll_congr (regs : g.regs = f.regs) (l : List Inst) :
    d.performAll g m label l s = d.performAll f m label l s := by
  induction l generalizing s with
  | nil => rfl
  | cons x l ih =>
    rw [performAll, performAll, perform_congr regs]
    congr 1
    funext s
    exact ih

theorem Narrows.congr (regs : g.regs = f.regs) (h : Narrows d g c x y) : Narrows d f c x y where
  performs V m label s := by
    rw [← Datapath.perform_congr regs, h.performs, Datapath.perform_congr regs]
  recast := h.recast

end Registers

end Predication
