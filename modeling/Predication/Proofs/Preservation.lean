import Predication.Proofs.Fusion
import Predication.Proofs.Redirection

/-!
A cleanup keeps what a procedure does. Each of its steps leads from a sound procedure to a sound one
that is alike, and so do the rounds and the whole cleanup. A procedure is sound if its edges are those
of its code, its phis have one value for each edge, and it is in strict single-assignment form; the
last of these can be checked, given the registers that are surely written when control comes to a block.
-/

set_option autoImplicit false
set_option relaxedAutoImplicit false

namespace Predication

namespace Cleanup

open Procedure

variable {f : Procedure}

def Refines (f : Procedure) (m : Traced Event (Procedure × Bool)) : Prop :=
  Traced.Holds (fun r => r.1.Sound ∧ Alike f r.1) m

private theorem Refines.bind {m : Traced Event (Procedure × Bool)}
    {k : Procedure × Bool → Traced Event (Procedure × Bool)} (h : Refines f m)
    (h' : ∀ g changed, g.Sound → Refines g (k (g, changed))) : Refines f (m >>= k) := by
  refine Traced.Holds.bind h ?_
  rintro ⟨g, changed⟩ ⟨sound, alike⟩ log r log' run
  obtain ⟨sound', alike'⟩ := h' g changed sound log r log' run
  exact ⟨sound', alike.trans alike'⟩

private theorem tunnel_refines (sound : f.Sound) : Refines f (tunnel f) :=
  tunnelThrough_sound _ false sound fun _ mem => mem

private theorem dropJumps_refines (sound : f.Sound) : Refines f (Traced.ofExcept (dropJumps f)) :=
  .ofExcept (dropJumpsOf_sound false sound fun _ mem => mem)

private theorem round_refines (sound : f.Sound) : Refines f (round f) := by
  unfold round
  refine Refines.bind (removeUnreachable_sound sound) fun g removed sound => ?_
  refine Refines.bind (tunnel_refines sound) fun g tunnelled sound => ?_
  refine Refines.bind (merge_sound sound) fun g merged sound => ?_
  exact Refines.bind (dropJumps_refines sound) fun g dropped sound => .pure ⟨sound, .refl g⟩

private theorem roundsFrom_refines (fuel number : Nat) (changed : Bool) (sound : f.Sound) :
    Refines f (roundsFrom fuel number (f, changed)) := by
  induction fuel generalizing f number changed with
  | zero => exact .throw _
  | succ fuel ih =>
    rw [roundsFrom]
    refine Refines.bind (round_refines sound) fun g again sound => .after fun _ => ?_
    split
    · exact ih (number + 1) true sound
    · exact .pure ⟨sound, .refl g⟩

end Cleanup

namespace Procedure

variable {f : Procedure} {b t : BlockId}

/-- The edges are those that the code leads along, phis are not guarded and have one definition and one
value for each predecessor, only branches, switches and phis speak of blocks, the last block is not left
at its end, and the code is in strict form. -/
structure Executable (f : Procedure) : Prop where
  flow : ∀ b ∈ f.layout, ∀ l, f.flowSuccs b = .ok l → l.Perm (f.blockAt b).succs
  phis : ∀ b ∈ f.layout, ∀ x ∈ f.instsAt b, x.op = .phi → x.guard = [] ∧ x.defs.length = 1 ∧
    x.sources.Perm (f.blockAt b).preds ∧ ∀ y ∈ x.phiInputs, y.value.block? = none
  plain : ∀ b ∈ f.layout, ∀ x ∈ f.instsAt b, x.op ≠ .br → x.op ≠ .brc → x.op ≠ .switch →
    x.targets = []
  ends : ∀ b ∈ f.layout.getLast?, ∃ x ∈ f.instsAt b, x.endsFlow = true
  strict : f.Strict

/-- Every unconditional branch leads to a block, no instruction stands at two places, and those that
share operands are neither phis nor branches. -/
structure Orderly (f : Procedure) : Prop where
  leads : ∀ b ∈ f.layout, ∀ x ∈ f.instsAt b, x.op = .br → (x.uses.head?.bind Operand.block?).isSome
  single : ∀ b ∈ f.layout, (f.blockAt b).code.Nodup
  apart : ∀ b ∈ f.layout, ∀ c ∈ f.layout, b ≠ c → ∀ i ∈ (f.blockAt b).code, i ∉ (f.blockAt c).code
  shared : ∀ e ∈ f.sharing, ∃ y, f.inst e.1 = .ok y ∧ y.op ≠ .phi ∧ y.op ≠ .br ∧ y.targets = []

private theorem following_of_not_last {l : List BlockId} (nodup : l.Nodup) (mem : b ∈ l)
    (last : l.getLast? ≠ some b) : ∃ t, following b l = some t := by
  induction l with
  | nil => cases mem
  | cons c l ih =>
    rw [following]
    by_cases same : c = b
    · subst same
      rw [if_pos rfl]
      cases l with
      | nil => exact absurd rfl last
      | cons t l => exact ⟨t, rfl⟩
    · rw [if_neg same]
      have later : b ∈ l := (List.mem_cons.mp mem).resolve_left (Ne.symm same)
      refine ih (List.nodup_cons.mp nodup).2 later ?_
      cases l with
      | nil => cases later
      | cons t l => rwa [List.getLast?_cons_cons] at last

private theorem WellFormed.next?_of_passable (h : f.WellFormed)
    (ends : ∀ b ∈ f.layout.getLast?, ∃ x ∈ f.instsAt b, x.endsFlow = true) (mem : b ∈ f.layout)
    (pass : Passable (f.instsAt b)) : ∃ t, f.next? b = some t := by
  have last : f.layout.getLast? ≠ some b := by
    intro last
    obtain ⟨x, hx, stops⟩ := ends b last
    rw [pass x hx] at stops
    cases stops
  obtain ⟨t, next⟩ := following_of_not_last h.nodup mem last
  refine ⟨t, next?_eq_some.mpr ⟨next, ?_⟩⟩
  rintro rfl
  cases (h.laid (-1)).mp (following_mem next)

private theorem WellFormed.laid_of_inst (h : f.WellFormed) {x : Inst} (mem : x ∈ f.instsAt b) :
    b ∈ f.layout :=
  (h.laid b).mpr (Sited.instsAt_live h.toLinked.meshed mem)

private theorem Executable.edge (h : f.Executable) (wf : f.WellFormed) (leads : f.GoesTo b t) :
    t ∈ (f.blockAt b).succs := by
  have mem : b ∈ f.layout := by
    obtain ⟨pre, ⟨-, x, post, split, -⟩ | ⟨⟨-, next⟩, -⟩⟩ := leads
    · exact wf.laid_of_inst (x := x) (by simp [split])
    · exact (next?_mem next).1
  have found := wf.found b
  have known : f.flowSuccs b = .ok (distinct ((flowOf (f.instsAt b)).1 ++
      if (flowOf (f.instsAt b)).2 then (f.next? b).toList else [])) := by
    refine flowSuccs_ok.mpr ⟨_, _, _, block_of_live ((wf.laid b).mp mem), ?_, rfl⟩
    exact flowTargets_eq found
  exact (h.flow b mem _ known).mem_iff.mp ((mem_flowSuccs found known).mpr leads)

private theorem Executable.cleanable (h : f.Executable) (wf : f.WellFormed) (orderly : f.Orderly) :
    f.Cleanable where
  defined b hb y hy phi := by
    intro none
    have one := (h.phis b hb y hy phi).2.1
    rw [none] at one
    cases one
  leads := orderly.leads
  apart b hb c hc other i hi hi' := absurd hi' (orderly.apart b hb c hc other i hi)
  followed b hb inner := by
    have pass := passable_of_inner inner
    obtain ⟨n, next⟩ := wf.next?_of_passable h.ends hb pass
    exact ⟨n, h.edge wf ⟨_, .inr ⟨⟨pass, next⟩, rfl⟩⟩, next⟩
  shared e he := by
    obtain ⟨y, found, -, other, -⟩ := orderly.shared e he
    exact ⟨y, found, other⟩

/-- A proper graph that can be executed is sound, unless it is in disorder. -/
private theorem Executable.sound (h : f.Executable) (wf : f.WellFormed) (orderly : f.Orderly) : f.Sound where
  toGuided := guided_of_wellFormed wf (h.cleanable wf orderly)
  sited := by
    have laid : ∀ {b i}, i ∈ (f.blockAt b).code → b ∈ f.layout := by
      intro b i hi
      obtain ⟨x, found⟩ := wf.found b i hi
      exact wf.laid_of_inst (mem_instsAt.mpr ⟨i, hi, found⟩)
    refine ⟨wf.found, fun b => ?_, fun b c i hb hc => ?_, wf.phisFirst, fun e he y found => ?_⟩
    · by_cases mem : b ∈ f.layout
      · exact orderly.single b mem
      · have none : (f.blockAt b).code = [] := List.eq_nil_iff_forall_not_mem.mpr fun i hi => mem (laid hi)
        rw [none]
        exact List.nodup_nil
    · by_contra other
      exact orderly.apart b (laid hb) c (laid hc) other i hb hc
    · obtain ⟨z, there, phi, -, targets⟩ := orderly.shared e he
      cases found.symm.trans there
      exact ⟨phi, targets⟩
  regular b x hx := by
    have hb := wf.laid_of_inst hx
    refine ⟨fun phi => (h.phis b hb x hx phi).1, fun phi => ?_, wf.even b x hx,
      fun phi => (h.phis b hb x hx phi).2.2.2, fun br => ?_, h.plain b hb x hx⟩
    · exact List.length_eq_one_iff.mp (h.phis b hb x hx phi).2.1
    · obtain ⟨i, hi, found⟩ := mem_instsAt.mp hx
      obtain ⟨y, there, able⟩ := (guided_of_wellFormed wf (h.cleanable wf orderly)).able b i hi
      cases found.symm.trans there
      exact able.leads br
  edges b t leads := h.edge wf leads
  sources b x hx phi p := (h.phis b (wf.laid_of_inst hx) x hx phi).2.2.1.mem_iff
  closed b hb pass := wf.next?_of_passable h.ends hb pass
  strict := h.strict

section Certificates

variable (f) (ready : BlockId → List Reg)

def written : List Reg := f.layout.flatMap fun b => writesOf (f.instsAt b)

def isSettled (known : List Reg) (r : Reg) : Bool := decide (r ∈ known) || decide (r ∉ f.written)

def mayEnter (b : BlockId) (known : List Reg) (t : BlockId) : Bool :=
  (ready t).all (fun r => decide (r ∈ known)) && (f.instsAt t).all fun x =>
    decide (x.op ≠ .phi) || ((x.phiValue? b).bind Operand.reg?).all (f.isSettled known)

def readsSettled (b : BlockId) : (known : List Reg) → List Inst → Bool
  | known, [] => (f.next? b).all (f.mayEnter ready b known)
  | known, x :: l =>
    x.reads.all (f.isSettled known) && x.targets.all (f.mayEnter ready b known) &&
      (x.endsFlow || readsSettled b (known ++ x.writes) l)

/-- The code is in strict form, as far as the registers `ready` are written whenever control comes to a
block. -/
def isStrict : Bool :=
  (f.entry?.all fun b => (ready b).isEmpty) && decide f.written.Nodup &&
    f.layout.all fun b => f.readsSettled ready b (ready b) (f.instsAt b)

variable {f ready} {known : List Reg} {l : List Inst}

private theorem mem_written (wf : f.WellFormed) {r : Reg} : r ∈ f.written ↔ f.Writes r := by
  unfold written Writes
  rw [List.mem_flatMap]
  constructor
  · rintro ⟨b, -, mem⟩
    exact ⟨b, mem⟩
  · rintro ⟨b, mem⟩
    obtain ⟨x, hx, -⟩ := mem_writesOf.mp mem
    exact ⟨b, wf.laid_of_inst hx, mem⟩

private theorem isSettled_iff (wf : f.WellFormed) {r : Reg} :
    f.isSettled known r = true ↔ (f.Writes r → r ∈ known) := by
  rw [isSettled, Bool.or_eq_true, decide_eq_true_eq, decide_eq_true_eq, mem_written wf]
  exact ⟨fun h writes => h.resolve_right fun never => never writes,
    fun h => (Classical.em (f.Writes r)).imp h id⟩

private theorem readsSettled_place {pre post : List Inst} {x : Inst}
    (h : f.readsSettled ready b known l = true) (split : l = pre ++ x :: post) (pass : Passable pre) :
    x.reads.all (f.isSettled (known ++ writesOf pre)) = true ∧
      x.targets.all (f.mayEnter ready b (known ++ writesOf pre)) = true := by
  induction pre generalizing known l with
  | nil =>
    subst split
    rw [List.nil_append, readsSettled, Bool.and_eq_true, Bool.and_eq_true] at h
    rw [writesOf, List.flatMap_nil, List.append_nil]
    exact h.1
  | cons y pre ih =>
    subst split
    rw [List.cons_append, readsSettled, Bool.and_eq_true, (passable_cons.mp pass).1, Bool.false_or] at h
    rw [writesOf_cons, ← List.append_assoc]
    exact ih h.2 rfl (passable_cons.mp pass).2

private theorem readsSettled_end (h : f.readsSettled ready b known l = true) (pass : Passable l) :
    (f.next? b).all (f.mayEnter ready b (known ++ writesOf l)) = true := by
  induction l generalizing known with
  | nil => rwa [writesOf, List.flatMap_nil, List.append_nil]
  | cons x l ih =>
    rw [readsSettled, Bool.and_eq_true, (passable_cons.mp pass).1, Bool.false_or] at h
    rw [writesOf_cons, ← List.append_assoc]
    exact ih h.2 (passable_cons.mp pass).2

private theorem strict_of_isStrict (wf : f.WellFormed) (h : f.isStrict ready = true) : f.Strict := by
  unfold isStrict at h
  rw [Bool.and_eq_true, Bool.and_eq_true, List.all_eq_true, decide_eq_true_eq] at h
  obtain ⟨⟨entry, nodup⟩, code⟩ := h
  have places := List.pairwise_flatMap.mp nodup
  have leaves : ∀ {b pre t}, f.Leaves b pre t →
      f.mayEnter ready b (ready b ++ writesOf pre) t = true := by
    rintro b pre t (⟨pass, x, post, split, target⟩ | ⟨⟨pass, next⟩, rfl⟩)
    · have mem : b ∈ f.layout := wf.laid_of_inst (x := x) (by simp [split])
      exact List.all_eq_true.mp (readsSettled_place (code b mem) split pass).2 t target
    · have enters := readsSettled_end (code b (next?_mem next).1) pass
      rw [next] at enters
      exact enters
  -- what is ready at a block was written on every way to it
  have arrives : ∀ {source b rs}, f.Arrives source b rs → ready b ⊆ rs := by
    intro source b rs way
    induction way with
    | @entry b first =>
      rw [first] at entry
      rw [List.isEmpty_iff.mp entry]
      exact List.nil_subset _
    | @edge source b t rs pre before away ih =>
      intro r mem
      have enters := leaves away
      rw [mayEnter, Bool.and_eq_true, List.all_eq_true] at enters
      have known := of_decide_eq_true (enters.1 r mem)
      rw [List.mem_append] at known ⊢
      exact known.imp_left (@ih r)
  refine ⟨fun b c r hb hc => ?_, fun b => ?_, ?_, ?_⟩
  · by_contra other
    obtain ⟨x, hx, -⟩ := mem_writesOf.mp hb
    obtain ⟨y, hy, -⟩ := mem_writesOf.mp hc
    have symm : Std.Symm fun b c => ∀ r ∈ writesOf (f.instsAt b), ∀ q ∈ writesOf (f.instsAt c), r ≠ q :=
      ⟨fun _ _ apart r hr q hq same => apart q hq r hr same.symm⟩
    exact places.2.forall (wf.laid_of_inst hx) (wf.laid_of_inst hy) other r hb r hc rfl
  · by_cases mem : b ∈ f.layout
    · exact places.1 b mem
    · have none : f.instsAt b = [] :=
        List.eq_nil_iff_forall_not_mem.mpr fun x hx => mem (wf.laid_of_inst hx)
      rw [none]
      exact List.nodup_nil
  · intro source b rs pre x post way split pass r reads writes
    have mem : b ∈ f.layout := wf.laid_of_inst (x := x) (by simp [split])
    have settled := (readsSettled_place (code b mem) split pass).1
    have known := (isSettled_iff wf).mp (List.all_eq_true.mp settled r reads) writes
    rw [List.mem_append] at known ⊢
    exact known.imp_left (@arrives _ _ _ way r)
  · intro p b rs x r label way mem phi value writes
    cases way with
    | @edge source _ _ rs pre before away =>
      have enters := leaves away
      rw [mayEnter, Bool.and_eq_true, List.all_eq_true, List.all_eq_true] at enters
      have settled := enters.2 x mem
      rw [value, Bool.or_eq_true, decide_eq_true_eq] at settled
      have known := (isSettled_iff wf).mp (settled.resolve_left fun other => other phi) writes
      rw [List.mem_append] at known ⊢
      exact known.imp_left (@arrives _ _ _ before r)

end Certificates

private theorem executable_of_checks (verified : f.verify = .ok (.ok ())) (ready : BlockId → List Reg)
    (flow : ∀ b ∈ f.layout, f.flowSuccs b = .ok (f.blockAt b).succs)
    (phis : ∀ b ∈ f.layout, ∀ x ∈ f.instsAt b, x.op = .phi → x.guard = [] ∧ x.defs.length = 1 ∧
      x.sources.Perm (f.blockAt b).preds ∧ ∀ y ∈ x.phiInputs, y.value.block? = none)
    (plain : ∀ b ∈ f.layout, ∀ x ∈ f.instsAt b, x.op ≠ .br → x.op ≠ .brc → x.op ≠ .switch →
      x.targets = [])
    (ends : ∀ b ∈ f.layout.getLast?, ∃ x ∈ f.instsAt b, x.endsFlow = true)
    (strict : f.isStrict ready = true) : f.Executable := by
  refine ⟨fun b hb l known => ?_, phis, plain, ends, strict_of_isStrict (verify_iff.mp verified) strict⟩
  cases (flow b hb).symm.trans known
  exact .refl _

private theorem not_alike_of_results {g : Procedure} {V : Type} {m : Machine V} {file : Reg → V}
    {values values' : List V} {n k : Nat} (h : (f.after m file n).result? = some values)
    (h' : (g.after m file k).result? = some values') (other : values ≠ values') : ¬ Alike f g := by
  intro alike
  obtain ⟨j, -, result⟩ := ((alike V m file).2 _ values).mp ⟨n, rfl, h⟩
  have stays : ∀ {i k : Nat} {values : List V}, i ≤ k → (g.after m file i).result? = some values →
      g.after m file k = g.after m file i := by
    intro i k values le result
    obtain ⟨d, rfl⟩ := Nat.exists_eq_add_of_le' le
    unfold after at result ⊢
    rw [Function.iterate_add_apply, iterate_of_result result]
  refine other (Option.some.inj ?_)
  rcases Nat.le_total j k with le | le
  · rw [← result, ← h', stays le result]
  · rw [← result, ← h', stays le h']

end Procedure

namespace Cleanup

open Procedure

variable {f : Procedure}

/-- A cleanup gives a procedure that makes the same calls and returns the same values, whatever the
operations of the machine do and the registers hold at first. -/
theorem run_alike (verified : f.verify = .ok (.ok ())) (executable : f.Executable)
    (orderly : f.Orderly) :
    ∃ g changed, Traced.Returns (run f) (· = (g, changed)) ∧ Alike f g := by
  have wf := verify_iff.mp verified
  obtain ⟨n, g, -, -, returns⟩ := run_settles verified (executable.cleanable wf orderly)
  have refines := roundsFrom_refines (roundBound f) 0 false (executable.sound wf orderly)
  obtain ⟨log, ended⟩ : ∃ log, (run f).run #[] = (.ok (g, decide (0 < n)), log) := by
    obtain ⟨_, rfl, run⟩ := returns
    exact run #[]
  exact ⟨g, decide (0 < n), returns, (refines #[] _ log ended).2⟩

/-- Two ways to `join`, one of them through a block that only jumps, a block that can be taken in, and
one that nothing leads to. -/
def patchwork : Procedure where
  name := "patchwork"
  blocks := #[
    { id := 0, name := "entry", code := [0, 1], succs := [1, 2], liveIn := [0, 1] },
    { id := 1, name := "hop", code := [2], succs := [3], preds := [0] },
    { id := 2, name := "left", code := [3, 4], succs := [3], preds := [0] },
    { id := 3, name := "join", code := [5, 6], succs := [4], preds := [1, 2] },
    { id := 4, name := "last", code := [7, 8, 9], preds := [3] },
    { id := 5, name := "lost", code := [10] }]
  insts := #[
    .branch [⟨0, false⟩] 1, .jump 2, .jump 3,
    { op := .other "add", defs := [2], uses := [.reg 0, .reg 1] }, .jump 3,
    { op := .phi, defs := [3], uses := [.reg 1, .block 1, .reg 2, .block 2] }, .jump 4,
    { op := .phi, defs := [4], uses := [.reg 3, .block 3] },
    { op := .other "call", uses := [.reg 4] }, { op := .ret, uses := [.reg 4] }, { op := .ret }]
  layout := [0, 1, 2, 3, 4, 5]
  regs := #["a", "b", "t", "p", "q"]

theorem patchwork_alike : patchwork.verify = .ok (.ok ()) ∧ patchwork.Executable ∧ patchwork.Orderly ∧
    ∃ g changed, Traced.Returns (run patchwork) (· = (g, changed)) ∧ Alike patchwork g := by
  have verified : patchwork.verify = .ok (.ok ()) := by decide +kernel
  have executable : patchwork.Executable :=
    executable_of_checks verified (fun b => if b = 4 then [3] else []) (by decide +kernel)
      (by decide +kernel) (by decide +kernel) (by decide +kernel) (by decide +kernel)
  have orderly : patchwork.Orderly := ⟨by decide +kernel, by decide +kernel, by decide +kernel,
    fun e mem => absurd mem List.not_mem_nil⟩
  exact ⟨verified, executable, orderly, run_alike verified executable orderly⟩

/-- A jump that leads nowhere stands behind the end of the flow. -/
def idle : Procedure where
  name := "idle"
  blocks := #[{ id := 0, name := "entry", code := [0, 1], liveIn := [0] }]
  insts := #[{ op := .ret, uses := [.reg 0] }, { op := .br }]
  layout := [0]
  regs := #["a"]

/-- One jump stands in `there` and in `here`. It can be led on from `there`, and not from `here`, where
the phi of `join` takes another value. -/
def entangled : Procedure where
  name := "entangled"
  blocks := #[
    { id := 0, name := "entry", code := [0], succs := [1, 2], liveIn := [0, 1, 2] },
    { id := 1, name := "here", code := [2, 1], succs := [4, 3], preds := [0] },
    { id := 2, name := "there", code := [1], succs := [3], preds := [0] },
    { id := 3, name := "hop", code := [4], succs := [4], preds := [2, 1] },
    { id := 4, name := "join", code := [5, 6], preds := [1, 3] }]
  insts := #[
    .branch [⟨0, false⟩] 1, .jump 3, .branch [⟨2, false⟩] 4, .jump 3, .jump 4,
    { op := .phi, defs := [3], uses := [.reg 0, .block 1, .reg 1, .block 3] },
    { op := .ret, uses := [.reg 3] }]
  layout := [0, 2, 1, 3, 4]
  regs := #["a", "b", "c", "p"]

private def logic : Machine Bool where
  constant v := decide (v ≠ 0)
  isTrue v := v
  undefined := false
  choose _ := 0
  result _ _ := false

private def cleanedResult (f : Procedure) : Option (List Bool) :=
  match (run f).events.1 with
  | .ok (g, _) => (g.after logic (fun r => decide (r = 0)) 9).result?
  | .error _ => none

/-- Each of these procedures lacks one condition of `Orderly`: the cleanup of the first one fails, and that
of the second one changes what is returned. -/
theorem not_alike_of_disorder :
    (idle.verify = .ok (.ok ()) ∧ idle.Executable ∧
      ¬ ∃ g changed, Traced.Returns (run idle) (· = (g, changed)) ∧ Alike idle g) ∧
    entangled.verify = .ok (.ok ()) ∧ entangled.Executable ∧
      ¬ ∃ g changed, Traced.Returns (run entangled) (· = (g, changed)) ∧ Alike entangled g := by
  have idleVerified : idle.verify = .ok (.ok ()) := by decide +kernel
  have entangledVerified : entangled.verify = .ok (.ok ()) := by decide +kernel
  refine ⟨⟨idleVerified, ?_, ?_⟩, entangledVerified, ?_, ?_⟩
  · exact executable_of_checks idleVerified (fun _ => []) (by decide +kernel) (by decide +kernel)
      (by decide +kernel) (by decide +kernel) (by decide +kernel)
  · rintro ⟨g, changed, ⟨_, rfl, returns⟩, -⟩
    obtain ⟨log, returned⟩ := returns #[]
    have fails : (run idle).events.1.toOption.isNone = true := by decide +kernel
    rw [Traced.events, returned] at fails
    cases fails
  · exact executable_of_checks entangledVerified (fun _ => []) (by decide +kernel) (by decide +kernel)
      (by decide +kernel) (by decide +kernel) (by decide +kernel)
  · rintro ⟨g, changed, ⟨_, rfl, returns⟩, alike⟩
    obtain ⟨log, returned⟩ := returns #[]
    have after : cleanedResult entangled = some [true] := by decide +kernel
    rw [cleanedResult, Traced.events, returned] at after
    have before : (entangled.after logic (fun r => decide (r = 0)) 9).result? = some [false] := by
      decide +kernel
    exact not_alike_of_results before after (by decide) alike

end Cleanup

end Predication
