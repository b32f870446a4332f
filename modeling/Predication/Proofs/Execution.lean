import Mathlib.Logic.Function.Iterate
import Predication.Proofs.BlockViews

/-!
The execution of procedures. Registers hold values of any type, and what the operations of a machine
give is up to the machine: it may depend on all that was executed before. Control goes through a
block, leaves it at a branch or falls into the next block of the layout, and the phis of the block
that it comes to are all read at once, along the edge that it took. What is seen of an execution are
the operations of the machine with their operands, and the values that are returned.
-/

set_option autoImplicit false
set_option relaxedAutoImplicit false

namespace Predication

/-- An operation of the machine that was executed. -/
structure Call (V : Type) where
  op : String
  operands : List V
  holds : Bool

/-- A machine that works on values of type `V`. -/
structure Machine (V : Type) where
  constant : Int → V
  isTrue : V → Bool
  undefined : V
  /-- Which of its blocks a switch leads to. -/
  choose : List V → Nat
  /-- The results of the last call, after all those before it. -/
  result : List (Call V) → Nat → V

/-- The registers, and what was executed. -/
structure Store (V : Type) where
  file : Reg → V
  history : List (Call V)

/-- Where control goes from a run of code: on behind it, to a block, or out of the procedure. -/
inductive Exit (V : Type) where
  | on (s : Store V)
  | leave (target : Option BlockId) (s : Store V)
  | ret (values : List V) (s : Store V)

namespace Inst

def isWriter (x : Inst) : Bool := !(x.op.isTerminator || x.op.isDebug)

def writes (x : Inst) : List Reg := if x.isWriter then x.defs else []

end Inst

def writesOf (l : List Inst) : List Reg := l.flatMap Inst.writes

def Passable (l : List Inst) : Prop := ∀ x ∈ l, x.endsFlow = false

variable {V : Type}

/-- Writes results to registers, in their order. -/
def Store.write (s : Store V) (defs : List Reg) (result : Nat → V) : Store V :=
  { s with file := fun r => if r ∈ defs then result (defs.idxOf r) else s.file r }

namespace Exit

def store : Exit V → Store V
  | on s | leave _ s | ret _ s => s

/-- Goes on with `k` where control goes on. -/
def andThen (e : Exit V) (k : Store V → Exit V) : Exit V :=
  match e with
  | on s => k s
  | e => e

def lead (w : BlockId → BlockId) : Exit V → Exit V
  | leave t s => leave (t.map w) s
  | e => e

end Exit

namespace Machine

variable (m : Machine V)

/-- The condition holds. -/
def holds (file : Reg → V) (c : Condition) : Bool :=
  c.all fun t => m.isTrue (file t.reg) != t.negated

/-- The value of an operand, if it has one. -/
def value? (file : Reg → V) : Operand → Option V
  | .reg r _ => some (file r)
  | .imm v _ => some (m.constant v)
  | .block _ => none

def operands (file : Reg → V) (x : Inst) : List V := x.uses.filterMap (m.value? file)

/-- What an operation does when its operands have the given values. -/
def act (op : Op) (defs : List Reg) (targets : List BlockId) (values : List V) (holds : Bool)
    (s : Store V) : Exit V :=
  match op with
  | .phi | .dbg => .on s
  | .copy => .on (s.write defs fun k => values[k]?.getD m.undefined)
  | .undef => .on (s.write defs fun _ => m.undefined)
  | .sel => .on (s.write defs fun _ => (if holds then values[0]? else values[1]?).getD m.undefined)
  | .br => .leave targets.head? s
  | .brc => if holds then .leave targets.head? s else .on s
  | .switch => .leave targets[m.choose values]? s
  | .ret => .ret values s
  | .other name =>
    let history := s.history ++ [⟨name, values, holds⟩]
    .on (Store.write { s with history := history } defs (m.result history))

/-- Executes an instruction, if its guard holds. -/
def execute (x : Inst) (s : Store V) : Exit V :=
  if m.holds s.file x.guard then
    m.act x.op x.defs x.targets (m.operands s.file x) (m.holds s.file x.cond) s
  else
    .on s

/-- Executes code up to where control leaves it. -/
def run : List Inst → Store V → Exit V
  | [], s => .on s
  | x :: rest, s => (m.execute x s).andThen (run rest)

def enter (l : List Inst) (source : Option BlockId) (file : Reg → V) : Reg → V := fun r =>
  (l.findSome? fun x => if x.op = .phi ∧ r ∈ x.defs then
    (source.bind x.phiValue?).bind (m.value? file) else none).getD (file r)

end Machine

/-- Where control is: at a block that it has come to, behind the end, or nowhere. -/
inductive Spot (V : Type) where
  | block (source : Option BlockId) (b : BlockId)
  | returned (values : List V)
  | nowhere

/-- A state of an execution. -/
structure Snapshot (V : Type) where
  spot : Spot V
  store : Store V

namespace Snapshot

/-- Control comes from `b` to `target`. -/
def arrive (b : BlockId) (target : Option BlockId) (s : Store V) : Snapshot V :=
  match target with
  | some t => ⟨.block (some b) t, s⟩
  | none => ⟨.nowhere, s⟩

/-- The values that were returned. -/
def result? (c : Snapshot V) : Option (List V) :=
  match c.spot with
  | .returned values => some values
  | _ => none

end Snapshot

namespace Procedure

variable (f : Procedure) (m : Machine V)

/-- Where control goes when it leaves a block. -/
def depart (b : BlockId) : Exit V → Snapshot V
  | .on s => .arrive b (f.next? b) s
  | .leave t s => .arrive b t s
  | .ret values s => ⟨.returned values, s⟩

/-- Executes one block. -/
def step (c : Snapshot V) : Snapshot V :=
  match c.spot with
  | .block source b =>
    f.depart b (m.run (f.instsAt b) { c.store with
      file := m.enter (f.instsAt b) source c.store.file })
  | _ => c

/-- Control is at the entry, and nothing was executed. -/
def start (file : Reg → V) : Snapshot V :=
  match f.entry? with
  | some entry => ⟨.block none entry, ⟨file, []⟩⟩
  | none => ⟨.nowhere, ⟨file, []⟩⟩

def after (file : Reg → V) (n : Nat) : Snapshot V := (f.step m)^[n] (f.start file)

def Shows (file : Reg → V) (calls : List (Call V)) : Prop :=
  ∃ n, calls <+: (f.after m file n).store.history

/-- The execution returns these values, after these calls. -/
def Returns (file : Reg → V) (calls : List (Call V)) (values : List V) : Prop :=
  ∃ n, (f.after m file n).store.history = calls ∧ (f.after m file n).result? = some values

/-- The procedures make the same calls and return the same values, on every machine and from every
content of the registers. -/
def Alike (f g : Procedure) : Prop :=
  ∀ (V : Type) (m : Machine V) (file : Reg → V),
    (∀ calls, f.Shows m file calls ↔ g.Shows m file calls) ∧
      ∀ calls values, f.Returns m file calls values ↔ g.Returns m file calls values

end Procedure

section Runs

variable {m : Machine V} {x : Inst} {l l' : List Inst} {s s' : Store V} {t : BlockId} {r : Reg}
  {source : Option BlockId}

theorem Inst.writes_eq_nil (h : x.op.isTerminator = true ∨ x.op.isDebug = true) : x.writes = [] := by
  unfold Inst.writes Inst.isWriter
  rcases h with h | h <;> simp [h]

theorem writesOf_append : writesOf (l ++ l') = writesOf l ++ writesOf l' := List.flatMap_append

theorem writesOf_cons : writesOf (x :: l) = x.writes ++ writesOf l := List.flatMap_cons

theorem mem_writesOf : r ∈ writesOf l ↔ ∃ x ∈ l, r ∈ x.writes := List.mem_flatMap

theorem Passable.append : Passable (l ++ l') ↔ Passable l ∧ Passable l' := List.forall_mem_append

@[simp] theorem Exit.andThen_on (k : Store V → Exit V) : (Exit.on s).andThen k = k s := rfl

theorem Machine.run_append : m.run (l ++ l') s = (m.run l s).andThen (m.run l') := by
  induction l generalizing s with
  | nil => rfl
  | cons x l ih =>
    rw [List.cons_append, Machine.run, Machine.run]
    cases m.execute x s with
    | on s => exact ih
    | leave | ret => rfl

theorem Machine.endsFlow_of_execute (h : m.execute x s = .on s') : x.endsFlow = false := by
  by_contra ends
  rw [Bool.not_eq_false, Inst.endsFlow, Bool.and_eq_true, Bool.not_eq_true'] at ends
  have free : x.guard = [] := by simpa [Inst.isGuarded] using ends.1
  unfold execute at h
  rw [free, holds, List.all_nil, if_pos rfl] at h
  cases op : x.op <;> simp [op, act] at ends h

theorem Machine.passable_of_run (h : m.run l s = .on s') : Passable l := by
  induction l generalizing s with
  | nil => exact fun _ mem => absurd mem List.not_mem_nil
  | cons x l ih =>
    rw [run] at h
    cases first : m.execute x s with
    | on s₁ =>
      rw [first] at h
      exact List.forall_mem_cons.mpr ⟨endsFlow_of_execute first, ih h⟩
    | leave | ret =>
      rw [first] at h
      cases h

private theorem Machine.target_of_execute {t : Option BlockId} (h : m.execute x s = .leave t s') :
    s' = s ∧ ∀ b ∈ t, b ∈ x.targets := by
  unfold execute at h
  split at h
  · unfold act at h
    split at h <;> try cases h
    · exact ⟨rfl, fun b mem => List.mem_of_head? mem⟩
    · split at h
      · cases h
        exact ⟨rfl, fun b mem => List.mem_of_head? mem⟩
      · cases h
    · exact ⟨rfl, fun b mem => List.mem_of_getElem? mem⟩
  · cases h

theorem Machine.target_of_run {t : Option BlockId} (h : m.run l s = .leave t s') :
    ∃ pre x post, l = pre ++ x :: post ∧ Passable pre ∧ ∀ b ∈ t, b ∈ x.targets := by
  induction l generalizing s with
  | nil => cases h
  | cons x l ih =>
    rw [run] at h
    cases first : m.execute x s with
    | on s₁ =>
      rw [first] at h
      obtain ⟨pre, y, post, rfl, pass, targets⟩ := ih h
      exact ⟨x :: pre, y, post, rfl,
        List.forall_mem_cons.mpr ⟨endsFlow_of_execute first, pass⟩, targets⟩
    | leave t' s₁ =>
      rw [first] at h
      cases h
      exact ⟨[], x, l, rfl, fun _ mem => absurd mem List.not_mem_nil, (target_of_execute first).2⟩
    | ret =>
      rw [first] at h
      cases h

theorem Machine.execute_phi (phi : x.op = .phi) : m.execute x s = .on s := by
  unfold execute
  rw [phi]
  split <;> rfl

theorem Machine.execute_debug (debug : x.op.isDebug = true) : m.execute x s = .on s := by
  have op : x.op = .dbg := by
    revert debug
    cases x.op <;> simp [Op.isDebug]
  unfold execute
  rw [op]
  split <;> rfl

theorem Machine.run_debug (h : ∀ x ∈ l, x.op.isDebug = true) : m.run l s = .on s := by
  induction l with
  | nil => rfl
  | cons x l ih =>
    rw [run, execute_debug (h x List.mem_cons_self)]
    exact ih fun y hy => h y (List.mem_cons_of_mem x hy)

theorem Machine.run_inner (h : ∀ x ∈ l, x.op.isTerminator = false) : ∃ s', m.run l s = .on s' := by
  induction l generalizing s with
  | nil => exact ⟨s, rfl⟩
  | cons x l ih =>
    have first : ∃ s₁, m.execute x s = .on s₁ := by
      have inner := h x List.mem_cons_self
      unfold execute
      split
      · cases op : x.op <;> simp [op, act, Op.isTerminator] at inner ⊢
      · exact ⟨s, rfl⟩
    obtain ⟨s₁, first⟩ := first
    rw [run, first]
    exact ih fun y hy => h y (List.mem_cons_of_mem x hy)

theorem Machine.run_filter (keep : Inst → Bool) (h : ∀ x ∈ l, keep x = false → x.op = .phi) :
    m.run (l.filter keep) s = m.run l s := by
  induction l generalizing s with
  | nil => rfl
  | cons x l ih =>
    have rest : ∀ s, m.run (l.filter keep) s = m.run l s := fun s =>
      ih fun y hy => h y (List.mem_cons_of_mem x hy)
    cases kept : keep x with
    | true =>
      rw [List.filter_cons_of_pos kept, run, run]
      congr 1
      funext s
      exact rest s
    | false =>
      rw [List.filter_cons_of_neg (by simp [kept]), rest, run,
        execute_phi (h x List.mem_cons_self kept)]
      rfl

private theorem Machine.history_execute : s.history <+: (m.execute x s).store.history := by
  unfold execute
  split
  · unfold act
    split <;> try exact List.prefix_rfl
    · split <;> exact List.prefix_rfl
    · exact List.prefix_append _ _
  · exact List.prefix_rfl

private theorem Machine.history_run : s.history <+: (m.run l s).store.history := by
  induction l generalizing s with
  | nil => exact List.prefix_rfl
  | cons x l ih =>
    rw [run]
    have first := history_execute (m := m) (x := x) (s := s)
    cases same : m.execute x s with
    | on s₁ =>
      rw [same] at first
      exact first.trans ih
    | leave | ret =>
      rw [same] at first
      exact first

theorem Machine.enter_of_not_mem {file : Reg → V} (h : ∀ x ∈ l, x.op = .phi → r ∉ x.defs) :
    m.enter l source file r = file r := by
  unfold enter
  rw [List.findSome?_eq_none_iff.mpr]
  · rfl
  · intro x hx
    exact if_neg fun both => h x hx both.1 both.2

theorem Machine.enter_congr {file : Reg → V} (h : (l.filter fun x => decide (x.op = .phi)) =
    l'.filter fun x => decide (x.op = .phi)) : m.enter l source file = m.enter l' source file := by
  have only : ∀ l, m.enter (l.filter fun x => decide (x.op = .phi)) source file =
      m.enter l source file := by
    intro l
    funext r
    unfold enter
    congr 1
    induction l with
    | nil => rfl
    | cons x l ih =>
      by_cases phi : x.op = .phi
      · rw [List.filter_cons_of_pos (by simp [phi]), List.findSome?_cons, List.findSome?_cons, ih]
      · rw [List.filter_cons_of_neg (by simp [phi]), List.findSome?_cons, ih,
          if_neg fun both => phi both.1]
  rw [← only l, ← only l', h]

theorem Machine.enter_of_mem {file : Reg → V} {value : V} (mem : x ∈ l) (phi : x.op = .phi)
    (defs : r ∈ x.defs) (alone : ∀ y ∈ l, y.op = .phi → r ∈ y.defs → y = x)
    (brings : (source.bind x.phiValue?).bind (m.value? file) = some value) :
    m.enter l source file r = value := by
  unfold enter
  induction l with
  | nil => cases mem
  | cons y l ih =>
    rw [List.findSome?_cons]
    by_cases here : y.op = .phi ∧ r ∈ y.defs
    · obtain rfl := alone y List.mem_cons_self here.1 here.2
      rw [if_pos here, brings]
      rfl
    · rw [if_neg here]
      have later : x ∈ l := (List.mem_cons.mp mem).resolve_left fun same =>
        here (same ▸ ⟨phi, defs⟩)
      exact ih later fun z hz => alone z (List.mem_cons_of_mem y hz)

end Runs

private theorem Snapshot.store_arrive (b : BlockId) (target : Option BlockId) (s : Store V) :
    (Snapshot.arrive b target s).store = s := by
  cases target <;> rfl

namespace Procedure

variable {f g k : Procedure} {m : Machine V} {c : Snapshot V}

private theorem store_depart (b : BlockId) (e : Exit V) : (f.depart b e).store = e.store := by
  cases e with
  | on s => exact Snapshot.store_arrive b (f.next? b) s
  | leave t s => exact Snapshot.store_arrive b t s
  | ret values s => rfl

private theorem history_step : c.store.history <+: (f.step m c).store.history := by
  unfold step
  split
  · rename_i source b spot
    rw [store_depart]
    exact Machine.history_run (s := { c.store with file := m.enter (f.instsAt b) source c.store.file })
  · exact List.prefix_rfl

private theorem history_iterate (n : Nat) : c.store.history <+: ((f.step m)^[n] c).store.history := by
  induction n generalizing c with
  | zero => exact List.prefix_rfl
  | succ n ih => exact history_step.trans ih

private theorem step_of_result {values : List V} (h : c.result? = some values) : f.step m c = c := by
  unfold step
  split
  · rename_i spot
    rw [Snapshot.result?, spot] at h
    cases h
  · rfl

theorem iterate_of_result {values : List V} (h : c.result? = some values) (n : Nat) :
    (f.step m)^[n] c = c := by
  induction n with
  | zero => rfl
  | succ n ih => rw [Function.iterate_succ_apply, step_of_result h, ih]

theorem Alike.refl (f : Procedure) : Alike f f := fun _ _ _ => ⟨fun _ => Iff.rfl, fun _ _ => Iff.rfl⟩

theorem Alike.trans (h : Alike f g) (h' : Alike g k) : Alike f k := fun V m file =>
  ⟨fun calls => ((h V m file).1 calls).trans ((h' V m file).1 calls),
    fun calls values => ((h V m file).2 calls values).trans ((h' V m file).2 calls values)⟩

structure Simulates (f g : Procedure) (m : Machine V) (R : Snapshot V → Snapshot V → Prop) : Prop where
  start : ∀ file, R (f.start file) (g.start file)
  step : ∀ c d, R c d → ∃ n, R ((f.step m)^[n + 1] c) (g.step m d)
  history : ∀ c d, R c d → c.store.history = d.store.history
  result : ∀ c d, R c d → c.result? = d.result?

private theorem Simulates.iterate {R : Snapshot V → Snapshot V → Prop} (h : Simulates f g m R)
    (file : Reg → V)
    (n : Nat) : ∃ k, n ≤ k ∧ R (f.after m file k) (g.after m file n) := by
  induction n with
  | zero => exact ⟨0, Nat.le_refl 0, h.start file⟩
  | succ n ih =>
    obtain ⟨k, enough, related⟩ := ih
    obtain ⟨j, next⟩ := h.step _ _ related
    refine ⟨j + 1 + k, by omega, ?_⟩
    unfold after at next ⊢
    rw [Function.iterate_add_apply, Function.iterate_succ_apply' (g.step m)]
    exact next

theorem alike_of_simulates
    (h : ∀ (V : Type) (m : Machine V), ∃ R : Snapshot V → Snapshot V → Prop, Simulates f g m R) :
    Alike f g := by
  intro V m file
  obtain ⟨R, sim⟩ := h V m
  refine ⟨fun calls => ⟨?_, ?_⟩, fun calls values => ⟨?_, ?_⟩⟩
  · rintro ⟨n, seen⟩
    obtain ⟨k, enough, related⟩ := sim.iterate file n
    refine ⟨n, ?_⟩
    rw [← sim.history _ _ related]
    obtain ⟨j, rfl⟩ := Nat.exists_eq_add_of_le' enough
    unfold after at seen ⊢
    rw [Function.iterate_add_apply]
    exact seen.trans (history_iterate j)
  · rintro ⟨n, seen⟩
    obtain ⟨k, -, related⟩ := sim.iterate file n
    exact ⟨k, by rwa [sim.history _ _ related]⟩
  · rintro ⟨n, seen, result⟩
    obtain ⟨k, enough, related⟩ := sim.iterate file n
    obtain ⟨j, rfl⟩ := Nat.exists_eq_add_of_le' enough
    have stays : f.after m file (j + n) = f.after m file n := by
      unfold after at result ⊢
      rw [Function.iterate_add_apply, iterate_of_result result]
    rw [stays] at related
    exact ⟨n, by rw [← sim.history _ _ related, seen], by rw [← sim.result _ _ related, result]⟩
  · rintro ⟨n, seen, result⟩
    obtain ⟨k, -, related⟩ := sim.iterate file n
    exact ⟨k, by rw [sim.history _ _ related, seen], by rw [sim.result _ _ related, result]⟩

end Procedure

end Predication
