import Predication.Proofs.BranchEdits
import Predication.Proofs.ReadGraphs
import Predication.Proofs.Scanning

/-!
The successors of a block that was read, and the branch that its end is taken apart into. The edges
are collected from the labels in all code that control gets to, while the analysis of a branch looks
at the terminators alone. The two agree unless an instruction that is no terminator has a label among
its operands.
-/

set_option autoImplicit false
set_option relaxedAutoImplicit false

namespace Predication

/-- The labels of instructions other than terminators, as far as control gets in some code. -/
def passedLabels (l : List Inst) : List BlockId :=
  ((l.takeWhile fun x => !x.endsFlow).filter fun x => !x.op.isTerminator).flatMap Inst.targets

private theorem flowOf_terminators (l : List Inst) :
    (flowOf l).2 = (flowOf (l.filter fun x => x.op.isTerminator)).2 ∧
      ∀ s, s ∈ (flowOf l).1 ↔
        s ∈ (flowOf (l.filter fun x => x.op.isTerminator)).1 ∨ s ∈ passedLabels l := by
  induction l with
  | nil => simp [flowOf, passedLabels]
  | cons x l ih =>
    obtain ⟨falls, leads⟩ := ih
    cases ends : x.endsFlow with
    | true =>
      have exit : x.op.isTerminator = true := by
        by_contra inner
        simp [Inst.endsFlow_eq_false (by simpa using inner)] at ends
      simp [flowOf, passedLabels, ends, exit]
    | false =>
      cases exit : x.op.isTerminator with
      | true =>
        have passed : passedLabels (x :: l) = passedLabels l := by simp [passedLabels, ends, exit]
        rw [List.filter_cons_of_pos (by exact exit), passed]
        simp [flowOf, ends, falls, leads, or_assoc]
      | false =>
        have passed : passedLabels (x :: l) = x.targets ++ passedLabels l := by
          simp [passedLabels, ends, exit]
        rw [List.filter_cons_of_neg (by simp [exit]), passed]
        simp [flowOf, ends, falls, leads, or_left_comm]

private theorem exists_ok_ite {α : Type} {c : Prop} [Decidable c] {x y : Except Fault α}
    (hx : ∃ a, x = .ok a) (hy : ∃ a, y = .ok a) : ∃ a, (if c then x else y) = .ok a := by
  split
  · exact hx
  · exact hy

namespace Summary

variable {t : Target} {f : Procedure} {i : Summary}

private theorem scanCode_total {code : List InstId} (found : ∀ i ∈ code, ∃ x, f.inst i = .ok x) :
    ∃ j, scanCode t f code i = .ok j := by
  induction code generalizing i with
  | nil => exact ⟨i, rfl⟩
  | cons id code ih =>
    obtain ⟨⟨x, here⟩, later⟩ := List.forall_mem_cons.mp found
    have stop : ∀ s : Summary, ∃ j, (pure s : Except Fault Summary) = .ok j := fun s => ⟨s, rfl⟩
    have go : ∀ s : Summary, ∃ j, scanCode t f code s = .ok j := fun _ => ih later
    rw [scanCode, here]
    -- the cases of the loop body, in their order
    exact exists_ok_ite (go _) (exists_ok_ite (stop _) (exists_ok_ite
      (exists_ok_ite (go _) (stop _)) (exists_ok_ite (stop _) (exists_ok_ite (stop _) (go _)))))

private theorem scan_total {br : Option Branch} (analyzed : t.analyzeBranch f i.block = .ok br)
    (known : f.block i.block = .ok (f.blockAt i.block))
    (found : ∀ id ∈ (f.blockAt i.block).code, ∃ x, f.inst id = .ok x) : ∃ j, i.scan t f = .ok j := by
  have code : f.code i.block = .ok (f.blockAt i.block).code := Procedure.code_ok.mpr ⟨known, rfl⟩
  have tag := block_setBranch i br
  have succs : f.succs (i.setBranch br).block = .ok (f.blockAt i.block).succs :=
    bind_ok_iff.mpr ⟨_, tag.symm ▸ known, rfl⟩
  have finish : ∀ s : Summary, s.block = i.block → ∃ j, (if !s.cond.isEmpty && s.other.isNone then
      pure { s with unguardable := true } else do
        scanCode t f (← f.code s.block)
          { s with size := 0, extra := 0, extraGuard := 0, clobbers := false }) = .ok j := by
    intro s tag
    refine exists_ok_ite ⟨_, rfl⟩ ?_
    rw [tag, code]
    exact scanCode_total found
  unfold scan
  refine exists_ok_ite ⟨i, rfl⟩ ?_
  rw [analyzed]
  refine exists_ok_ite ?_ (finish (i.setBranch br) tag)
  rw [succs]
  exact finish { i.setBranch br with
    other := otherOf? (f.blockAt i.block).succs (i.setBranch br).taken } tag

private theorem otherOf?_eq_some {succs : List BlockId} {taken : Option BlockId} {n : BlockId}
    (named : BlockId.named? n = some n) (differs : taken ≠ some n) (mem : n ∈ succs)
    (only : ∀ s ∈ succs, s = n ∨ BlockId.named? s = taken) : otherOf? succs taken = some n := by
  have last : ∀ s, succs.find? (fun s => decide (BlockId.named? s ≠ taken)) = some s → s = n := by
    intro s found
    have rejected := List.find?_some found
    exact (only s (List.mem_of_find?_eq_some found)).resolve_right (by simpa using rejected)
  have some : (succs.find? fun s => decide (BlockId.named? s ≠ taken)).isSome = true := by
    refine List.find?_isSome.mpr ⟨n, mem, ?_⟩
    simpa [named] using differs.symm
  obtain ⟨s, found⟩ := Option.isSome_iff_exists.mp some
  rw [otherOf?, found, last s found]
  exact named

end Summary

private theorem BlockId.named?_of_has {α : Type} {xs : Array α} {b : BlockId} (h : Arena.Has xs b) :
    BlockId.named? b = some b :=
  if_neg fun none => absurd h.1 (by rw [none]; decide)

namespace Listing

private theorem Settled.label {f : Procedure} {v : NamedProcedure} (h : Settled f v) {x : Inst}
    (mem : x ∈ f.insts) (branch : x.op = .br ∨ x.op = .brc) :
    ∃ t, x.uses = [.block t] ∧ Arena.Has f.blocks t := by
  obtain ⟨i, named, valid, -⟩ := h.inst mem
  have single : ∃ s, i.uses = [.block s] := by
    have arguments := valid.arguments
    rw [← named.op] at arguments
    rcases branch with op | op <;> rw [op] at arguments
    · obtain ⟨-, s, uses, -⟩ := arguments
      exact ⟨s, uses⟩
    · obtain ⟨-, -, s, uses, -⟩ := arguments
      exact ⟨s, uses⟩
  obtain ⟨s, uses⟩ := single
  have operands := named.uses
  rw [uses] at operands
  obtain ⟨u, rest, label, none, same⟩ := List.forall₂_cons_right_iff.mp operands
  rw [List.forall₂_nil_right_iff.mp none] at same
  cases label with
  | block t s named =>
    obtain ⟨blk, found, -⟩ := named
    exact ⟨t, same, Arena.get_range.mp ⟨blk, found⟩⟩

end Listing

namespace Procedure

variable {f : Procedure} {b : BlockId} {front back : List InstId} {xs ys : List Inst}

def terminatorsAt (f : Procedure) (b : BlockId) : List Inst :=
  (f.instsAt b).filter fun x => x.op.isTerminator

/-- The ways out of a block that its branch tells, and the next block of the layout unless an
unconditional branch stands in between. -/
def waysOut (f : Procedure) (b : BlockId) (br : Branch) : List BlockId :=
  br.taken.toList ++ br.other.toList ++
    if (f.instsAt b).any (fun x => decide (x.op = .br)) then [] else (f.next? b).toList

private theorem mem_terminatorsAt {x : Inst} :
    x ∈ f.terminatorsAt b ↔ x ∈ f.instsAt b ∧ x.op.isTerminator = true :=
  List.mem_filter

private theorem any_br_terminatorsAt : (f.terminatorsAt b).any (fun x => decide (x.op = .br)) =
    (f.instsAt b).any fun x => decide (x.op = .br) := by
  rw [terminatorsAt, List.any_filter]
  congr 1
  funext x
  cases x.op <;> simp [Op.isTerminator]

private theorem Parted.terminators (parted : f.Parted (f.blockAt b).code front back xs ys) :
    f.terminatorsAt b = ys.filter fun y => !y.op.isDebug := by
  have none : xs.filter (fun x => x.op.isTerminator) = [] :=
    List.filter_eq_nil_iff.mpr fun x mem => by simp [parted.inner x mem]
  rw [terminatorsAt, instsAt, parted.insts, List.filter_append, none, List.nil_append]
  refine List.filter_congr fun y mem => ?_
  rcases parted.outer y mem with debug | ⟨exit, -⟩
  · cases exit : y.op.isTerminator with
    | false => simp [debug]
    | true => simp [Op.isDebug_of_isTerminator exit] at debug
  · simp [exit, Op.isDebug_of_isTerminator exit]

end Procedure

namespace Datapath

open Procedure

variable {f : Procedure} {b s : BlockId} {br : Branch} {ts : List Inst}

private theorem Makes.isBranch (made : Makes ts br) : ∀ y ∈ ts, y.op = .br ∨ y.op = .brc := by
  cases made with
  | none => simp
  | jump op => simp [op]
  | test op => simp [op]
  | both op last => simp [op, last]

private theorem Makes.alone (made : Makes ts br) (tested : ∃ y ∈ ts, y.op = .brc)
    (free : ∀ y ∈ ts, y.op ≠ .br) : br.other = .none ∧ ∃ y ∈ ts, y.op = .brc ∧ br.cond = y.cond := by
  cases made with
  | none => simp at tested
  | @jump y op => exact absurd op (free y (by simp))
  | @test y op => exact ⟨rfl, y, by simp, op, rfl⟩
  | @both y z op last => exact absurd last (free z (by simp))

private theorem Makes.flow (made : Makes ts br) (free : ∀ y ∈ ts, y.isGuarded = false)
    (labels : ∀ y ∈ ts, ∃ t, y.uses = [.block t] ∧ Arena.Has f.blocks t) :
    (flowOf ts).1 = br.taken.toList ++ br.other.toList ∧
      (flowOf ts).2 = !ts.any fun x => decide (x.op = .br) := by
  have leads : ∀ y ∈ ts, y.op = .br ∨ y.op = .brc → (branchTarget? y).toList = y.targets := by
    intro y mem branch
    obtain ⟨t, uses, there⟩ := labels y mem
    have target : branchTarget? y = some t := by
      rw [branchTarget?, uses]
      exact BlockId.named?_of_has there
    rw [target]
    rcases branch with op | op <;> simp [Inst.targets, op, uses, Operand.block?]
  cases made with
  | none => exact ⟨rfl, rfl⟩
  | @jump y op =>
    have ends : y.endsFlow = true := by simp [Inst.endsFlow, op, free y (by simp)]
    simp [flowOf, ends, op, leads y (by simp) (.inl op)]
  | @test y op =>
    have runs : y.endsFlow = false := by simp [Inst.endsFlow, op]
    simp [flowOf, runs, op, leads y (by simp) (.inr op)]
  | @both y z op last =>
    have runs : y.endsFlow = false := by simp [Inst.endsFlow, op]
    have ends : z.endsFlow = true := by simp [Inst.endsFlow, last, free z (by simp)]
    simp [flowOf, runs, ends, last, leads y (by simp) (.inr op), leads z (by simp) (.inl last)]

private theorem makes_of_analyzeBranch (analyzed : analyzeBranch f b = .ok (some br)) :
    f.block b = .ok (f.blockAt b) ∧ Makes (f.terminatorsAt b) br ∧
      ∀ y ∈ f.terminatorsAt b, y.isGuarded = false := by
  obtain ⟨known, front, back, xs, ys, parted, makes⟩ := analyzeBranch_ok.mp analyzed
  rw [parted.terminators]
  refine ⟨known, branchOf?_eq_some.mp makes, fun y mem => ?_⟩
  obtain ⟨mem, plain⟩ := List.mem_filter.mp mem
  exact ((parted.outer y mem).resolve_left (by simpa using plain)).2

/-- The successors of a block that was read and can be taken apart: the ways out that its branch
tells, and the labels that other instructions have. -/
private theorem mem_succs_iff {v : Listing.NamedProcedure} (settled : Listing.Settled f v)
    (analyzed : analyzeBranch f b = .ok (some br)) :
    s ∈ (f.blockAt b).succs ↔ s ∈ f.waysOut b br ∨ s ∈ passedLabels (f.instsAt b) := by
  obtain ⟨known, made, free⟩ := makes_of_analyzeBranch analyzed
  have labels : ∀ y ∈ f.terminatorsAt b, ∃ t, y.uses = [.block t] ∧ Arena.Has f.blocks t := by
    intro y mem
    obtain ⟨i, -, found⟩ := mem_instsAt.mp (mem_terminatorsAt.mp mem).1
    exact settled.label (Arena.get_ok_mem found) (made.isBranch y mem)
  obtain ⟨leads, falls⟩ := made.flow free labels
  obtain ⟨falls', leads'⟩ := flowOf_terminators (f.instsAt b)
  change _ = (flowOf (f.terminatorsAt b)).2 at falls'
  change ∀ s, _ ↔ s ∈ (flowOf (f.terminatorsAt b)).1 ∨ _ at leads'
  rw [settled.pristine.mem_succs known, leads', leads, falls', falls, any_br_terminatorsAt, waysOut]
  cases (f.instsAt b).any fun x => decide (x.op = .br) with
  | true => simp
  | false => simp [or_assoc, or_comm, or_left_comm]

private theorem scan_other_of_brc {d : Datapath} {i : Summary} (pristine : f.Pristine)
    (analyzed : analyzeBranch f i.block = .ok (some br)) (fresh : i.done = false)
    (tested : ∃ x ∈ f.instsAt i.block, x.op = .brc) (free : ∀ x ∈ f.instsAt i.block, x.op ≠ .br) :
    br.other = none ∧ ∃ j, i.scan d.target f = .ok j ∧
      j.other = Summary.otherOf? (f.blockAt i.block).succs br.taken := by
  obtain ⟨known, made, -⟩ := makes_of_analyzeBranch analyzed
  have tested' : ∃ y ∈ f.terminatorsAt i.block, y.op = .brc := by
    obtain ⟨y, mem, op⟩ := tested
    exact ⟨y, mem_terminatorsAt.mpr ⟨mem, by rw [op]; rfl⟩, op⟩
  obtain ⟨alone, y, mem, op, cond⟩ :=
    made.alone tested' fun y mem => free y (mem_terminatorsAt.mp mem).1
  have nonempty : br.cond.isEmpty = false := by
    obtain ⟨id, -, found⟩ := mem_instsAt.mp (mem_terminatorsAt.mp mem).1
    rw [cond, List.isEmpty_eq_false_iff]
    exact pristine.tests y (Arena.get_ok_mem found) (.inr op)
  have analyzed' : d.target.analyzeBranch f i.block = .ok (some br) := analyzed
  obtain ⟨j, run⟩ := Summary.scan_total analyzed' known pristine.found
  refine ⟨alone, j, run, ?_⟩
  obtain ⟨br', again, frame, -⟩ := Summary.scan_cases fresh run
  cases analyzed'.symm.trans again
  have other : j.other = (Summary.ending f i (some br)).other := congrArg (fun x => x.2.2.2.other) frame
  rw [other]
  simp [Summary.ending, Summary.setBranch, nonempty, alone]

/-- The successors of a block that was read are the ways out that its branch tells and the labels
that are passed. Where none is passed but these ways out, looking at a block with a conditional
branch alone finds the next block as the other way on. -/
theorem succs_exact_of_read {sources : List Listing.Source} {p : Program}
    (h : Listing.read sources = .ok p) {f : Procedure} (mem : f ∈ p) {b : BlockId} {br : Branch}
    (analyzed : analyzeBranch f b = .ok (some br)) :
    (∀ s, s ∈ (f.blockAt b).succs ↔ s ∈ f.waysOut b br ∨ s ∈ passedLabels (f.instsAt b)) ∧
      ((∀ s ∈ passedLabels (f.instsAt b), s ∈ f.waysOut b br) →
        ∀ (d : Datapath) (i : Summary) (n : BlockId), i.block = b → i.done = false →
          (∃ x ∈ f.instsAt b, x.op = .brc) → (∀ x ∈ f.instsAt b, x.op ≠ .br) →
          f.next? b = some n → br.taken ≠ some n →
          ∃ j, i.scan d.target f = .ok j ∧ j.other = some n) := by
  obtain ⟨vs, settled, -⟩ := Listing.settled_of_read h
  obtain ⟨v, -, settled⟩ := exists_right_of_forall₂ settled mem
  have pristine := settled.pristine
  have exact (s : BlockId) := mem_succs_iff (s := s) settled analyzed
  refine ⟨exact, ?_⟩
  rintro passed d i n rfl fresh tested free next differs
  obtain ⟨alone, j, run, other⟩ := scan_other_of_brc pristine analyzed fresh tested free
  have ways : ∀ s, s ∈ f.waysOut i.block br ↔ br.taken = some s ∨ s = n := by
    intro s
    have falls : ((f.instsAt i.block).any fun x => decide (x.op = .br)) = false := by
      simpa using free
    simp [waysOut, falls, alone, next, @eq_comm _ s n]
  have named : ∀ s ∈ (f.blockAt i.block).succs, BlockId.named? s = some s := by
    intro s mem
    have known := (makes_of_analyzeBranch analyzed).1
    exact BlockId.named?_of_has
      (pristine.edges _ (Arena.get_ok_mem known) s (List.mem_append_left _ mem))
  have mem : n ∈ (f.blockAt i.block).succs := (exact n).mpr (.inl ((ways n).mpr (.inr rfl)))
  refine ⟨j, run, other.trans (Summary.otherOf?_eq_some (named n mem) differs mem fun s here => ?_)⟩
  rcases (ways s).mp (((exact s).mp here).elim id (passed s)) with taken | same
  · exact .inr ((named s here).trans taken.symm)
  · exact .inl same

/-- Two procedures with a conditional branch each. In the first, a debug marker has a label. -/
def labelled : List Listing.Source :=
  [{ name := "a", bytes := Listing.bytesOf
      "func f\nA:\n dbg D\n brc %c, C\nB:\n ret\nC:\n ret\nD:\n ret" },
    { name := "b", bytes := Listing.bytesOf "func g\nA:\n brc %c, C\nB:\n ret\nC:\n ret" }]

/-- The first procedure, as it is read. -/
def straying : Procedure :=
  { name := "f"
    regs := #["c"]
    insts := #[{ op := .dbg, uses := [.block 1] }, .branch [⟨0, false⟩] 2, { op := .ret },
      { op := .ret }, { op := .ret }]
    blocks := #[{ id := 0, name := "A", code := [0, 1], succs := [1, 2, 3] },
      { id := 1, name := "D", code := [4], preds := [0] },
      { id := 2, name := "C", code := [3], preds := [0] },
      { id := 3, name := "B", code := [2], preds := [0] }]
    layout := [0, 3, 2, 1] }

/-- The second procedure, as it is read. -/
def testing : Procedure :=
  { name := "g"
    regs := #["c"]
    insts := #[.branch [⟨0, false⟩] 1, { op := .ret }, { op := .ret }]
    blocks := #[{ id := 0, name := "A", code := [0], succs := [1, 2] },
      { id := 1, name := "C", code := [2], preds := [0] },
      { id := 2, name := "B", code := [1], preds := [0] }]
    layout := [0, 2, 1] }

theorem succs_exact_testing : Listing.read labelled = .ok [straying, testing] ∧
    (∀ s, s ∈ (testing.blockAt 0).succs ↔
      s ∈ testing.waysOut 0 { taken := some 1, cond := [⟨0, false⟩] }) ∧
    ∃ j, Summary.scan standard.target testing { block := 0 } = .ok j ∧ j.other = some 2 := by
  have source : Listing.read labelled = .ok [straying, testing] := by decide +kernel
  obtain ⟨exact, finds⟩ := succs_exact_of_read source (f := testing) (b := 0) (by simp)
    (show analyzeBranch testing 0 = .ok (some { taken := some 1, cond := [⟨0, false⟩] }) by decide)
  have none : passedLabels (testing.instsAt 0) = [] := by decide
  rw [none] at exact finds
  refine ⟨source, by simpa using exact, ?_⟩
  exact finds (by simp) standard { block := 0 } 2 rfl rfl ⟨.branch [⟨0, false⟩] 1, by decide, rfl⟩
    (by decide) (by decide) (by decide)

/-- The label of the marker is found as the other way on, though control goes to the next block. -/
theorem not_succs_exact_straying : Listing.read labelled = .ok [straying, testing] ∧
    analyzeBranch straying 0 = .ok (some { taken := some 2, cond := [⟨0, false⟩] }) ∧
    straying.waysOut 0 { taken := some 2, cond := [⟨0, false⟩] } = [2, 3] ∧
    (straying.blockAt 0).succs = [1, 2, 3] ∧ straying.next? 0 = some 3 ∧
    (Summary.scan standard.target straying { block := 0 }).map Summary.other = .ok (some 1) := by
  decide +kernel

end Datapath

end Predication
