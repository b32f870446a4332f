import Mathlib.Data.List.Forall2
import Predication.Proofs.Endings
import Predication.Proofs.Guidance

/-!
Taking the end of a block apart and putting it together. The analysis of a branch looks at the code
from its first terminator on and passes over debug markers. Cutting branches off looks at the last
two instructions as they stand, and new branches are put behind all others. Where no debug marker
stands behind a terminator, these three agree; where one does, a branch that the analysis found is
left in the code.
-/

set_option autoImplicit false
set_option relaxedAutoImplicit false

namespace Predication

theorem Op.isDebug_of_isTerminator {op : Op} (h : op.isTerminator = true) : op.isDebug = false := by
  revert h
  cases op <;> simp [Op.isTerminator, Op.isDebug]

namespace Procedure

variable {f g : Procedure} {b : BlockId} {i : InstId} {x y : Inst}
  {code front back ids : List InstId} {xs ys : List Inst}

def Reads (f : Procedure) (ids : List InstId) (xs : List Inst) : Prop :=
  List.Forall₂ (fun i x => f.inst i = .ok x) ids xs

/-- Code that is parted by its first terminator. Behind it stand terminators that are not guarded, and
debug markers. -/
structure Parted (f : Procedure) (code front back : List InstId) (xs ys : List Inst) : Prop where
  code : code = front ++ back
  front : f.Reads front xs
  back : f.Reads back ys
  inner : ∀ x ∈ xs, x.op.isTerminator = false
  first : ∀ y ∈ ys.head?, y.op.isTerminator = true
  outer : ∀ y ∈ ys, y.op.isDebug = true ∨ (y.op.isTerminator = true ∧ y.isGuarded = false)

/-- The id names a terminator. -/
def leavesAt (f : Procedure) (i : InstId) : Bool := (f.inst? i).any fun x => x.op.isTerminator

/-- No debug marker stands behind a terminator. -/
def Trim (f : Procedure) (b : BlockId) : Prop :=
  (f.instsAt b).Pairwise fun x y => x.op.isTerminator = true → y.op.isDebug = false

theorem Reads.insts (reads : f.Reads ids xs) : ids.filterMap f.inst? = xs := by
  induction reads with
  | nil => rfl
  | cons found _ ih => rw [List.filterMap_cons_some (inst?_eq_some.mpr found), ih]

theorem Reads.found (reads : f.Reads ids xs) : ∀ i ∈ ids, ∃ x, f.inst i = .ok x := by
  intro i mem
  obtain ⟨x, -, found⟩ := exists_right_of_forall₂ reads mem
  exact ⟨x, found⟩

private theorem Reads.mono (reads : f.Reads ids xs)
    (same : ∀ i x, f.inst i = .ok x → g.inst i = .ok x) : g.Reads ids xs :=
  List.Forall₂.imp (fun i x found => same i x found) reads

private theorem Reads.append {more : List InstId} {zs : List Inst} (reads : f.Reads ids xs)
    (rest : f.Reads more zs) : f.Reads (ids ++ more) (xs ++ zs) :=
  List.rel_append reads rest

private theorem leavesAt_eq (found : f.inst i = .ok x) : f.leavesAt i = x.op.isTerminator := by
  rw [leavesAt, inst?_eq_some.mpr found]
  rfl

private theorem Reads.parted (reads : f.Reads code xs) (inner : ∀ x ∈ xs, x.op.isTerminator = false) :
    f.Parted code code [] xs [] :=
  ⟨(List.append_nil code).symm, reads, .nil, inner, by simp, by simp⟩

namespace Parted

theorem insts (parted : f.Parted code front back xs ys) : code.filterMap f.inst? = xs ++ ys := by
  rw [parted.code, List.filterMap_append, parted.front.insts, parted.back.insts]

theorem found (parted : f.Parted code front back xs ys) : ∀ i ∈ code, ∃ x, f.inst i = .ok x := by
  rw [parted.code]
  exact (parted.front.append parted.back).found

private theorem trim_iff (parted : f.Parted (f.blockAt b).code front back xs ys) :
    f.Trim b ↔ ∀ y ∈ ys, y.op.isDebug = false := by
  unfold Trim
  rw [instsAt, parted.insts, List.pairwise_append]
  constructor
  · rintro ⟨-, order, -⟩ y mem
    obtain _ | ⟨first, rest⟩ := ys
    · cases mem
    · have exit := parted.first first rfl
      rcases List.mem_cons.mp mem with rfl | mem
      · exact Op.isDebug_of_isTerminator exit
      · exact (List.pairwise_cons.mp order).1 y mem exit
  · intro plain
    refine ⟨?_, ?_, ?_⟩
    · exact List.Pairwise.imp_of_mem (R := fun _ _ => True)
        (fun hx _ _ exit => by simp [parted.inner _ hx] at exit) (List.pairwise_of_forall fun _ _ => trivial)
    · exact List.Pairwise.imp_of_mem (R := fun _ _ => True) (fun _ hy _ _ => plain _ hy)
        (List.pairwise_of_forall fun _ _ => trivial)
    · intro x mem y _ exit
      simp [parted.inner x mem] at exit

private theorem filter_leavesAt (parted : f.Parted code front back xs ys) :
    code.filter (fun i => !f.leavesAt i) = front ++ back.filter fun i => !f.leavesAt i := by
  rw [parted.code, List.filter_append]
  congr 1
  refine List.filter_eq_self.mpr fun i mem => ?_
  obtain ⟨x, hx, found⟩ := exists_right_of_forall₂ parted.front mem
  simp [leavesAt_eq found, parted.inner x hx]

private theorem all_leave (parted : f.Parted code front back xs ys) (trim : ∀ y ∈ ys, y.op.isDebug = false) :
    ∀ i ∈ back, f.leavesAt i = true := by
  intro i mem
  obtain ⟨y, hy, found⟩ := exists_right_of_forall₂ parted.back mem
  rw [leavesAt_eq found]
  rcases parted.outer y hy with debug | ⟨exit, -⟩
  · simp [trim y hy] at debug
  · exact exit

private theorem not_prefix (parted : f.Parted code front back xs ys) (debug : y ∈ ys)
    (marker : y.op.isDebug = true) : ¬ code.filter (fun i => !f.leavesAt i) <+: code := by
  rw [parted.filter_leavesAt, parted.code, List.prefix_append_right_inj]
  obtain ⟨i, mem, found⟩ := exists_left_of_forall₂ parted.back debug
  have stays : f.leavesAt i = false := by
    rw [leavesAt_eq found]
    cases exit : y.op.isTerminator with
    | false => rfl
    | true => simp [Op.isDebug_of_isTerminator exit] at marker
  intro sub
  -- the first id of the back names a terminator, so it cannot start what is left
  cases parted.back with
  | nil => cases debug
  | @cons j z back ys there reads =>
    have exit := parted.first z rfl
    rw [List.filter_cons_of_neg (by simp [leavesAt_eq there, exit])] at sub
    have left : i ∈ back.filter fun i => !f.leavesAt i := by
      rcases List.mem_cons.mp mem with rfl | mem
      · simp [leavesAt_eq there, exit] at stays
      · exact List.mem_filter.mpr ⟨mem, by simp [stays]⟩
    obtain ⟨k, rest, same⟩ := List.exists_cons_of_ne_nil (List.ne_nil_of_mem left)
    have start : k = j := by
      rw [same] at sub
      exact (List.cons_prefix_cons.mp sub).1
    have kept : k ∈ back.filter fun i => !f.leavesAt i := by simp [same]
    have stays' := (List.mem_filter.mp kept).2
    simp [start, leavesAt_eq there, exit] at stays'

private theorem place (parted : f.Parted (f.blockAt b).code front back xs ys)
    (known : f.block b = .ok (f.blockAt b)) (exit : y.op.isTerminator = true)
    (free : y.isGuarded = false) :
    let g := f.place b (f.blockAt b).code [] y
    g.Parted (g.blockAt b).code front (back ++ [(f.insts.size : InstId)]) xs (ys ++ [y]) := by
  have same : ∀ i x, f.inst i = .ok x → (f.place b (f.blockAt b).code [] y).inst i = .ok x := by
    intro i x found
    unfold Procedure.place
    rw [inst_setCode]
    exact inst_addInst found
  refine ⟨?_, parted.front.mono same, (parted.back.mono same).append (.cons inst_place_new .nil),
    parted.inner, ?_, ?_⟩
  · rw [code_place known, if_pos rfl, ← List.append_assoc, ← parted.code]
  · intro z mem
    cases ys with
    | nil =>
      cases mem
      exact exit
    | cons first rest => exact parted.first z mem
  · intro z mem
    rcases List.mem_append.mp mem with mem | mem
    · exact parted.outer z mem
    · rw [List.mem_singleton.mp mem]
      exact .inr ⟨exit, free⟩

end Parted

private theorem block_place (known : f.block b = .ok (f.blockAt b)) (before after : List InstId) (y : Inst) :
    (f.place b before after y).block b = .ok ((f.place b before after y).blockAt b) :=
  block_setCode (f := (f.addInst y).1) known b _

private theorem blocks_setCode_congr (same : g.blocks = f.blocks) (b : BlockId) (code : List InstId) :
    (g.setCode b code).blocks = (f.setCode b code).blocks := by
  unfold setCode mapBlock
  cases b with
  | ofNat n => simp [same]
  | negSucc n => exact same

private theorem blocks_place_setCode (f : Procedure) (b : BlockId) (before after code : List InstId)
    (y : Inst) :
    ((f.place b before after y).setCode b code).blocks = (f.setCode b code).blocks := by
  unfold place
  rw [setCode_setCode]
  exact blocks_setCode_congr (f := f) (g := (f.addInst y).1) rfl b code

end Procedure

namespace Datapath

open Procedure

variable {f g : Procedure} {b : BlockId} {i : InstId} {x y : Inst} {br : Branch}
  {code front back ids : List InstId} {xs ys ts : List Inst}

private theorem terminal_ok : terminal f code = .ok back ↔
    ∃ front xs, code = front ++ back ∧ f.Reads front xs ∧ (∀ x ∈ xs, x.op.isTerminator = false) ∧
      ∀ i ∈ back.head?, ∃ y, f.inst i = .ok y ∧ y.op.isTerminator = true := by
  induction code with
  | nil =>
    constructor
    · intro h
      cases h
      exact ⟨[], [], rfl, .nil, by simp, by simp⟩
    · rintro ⟨front, xs, code, -⟩
      rw [(List.append_eq_nil_iff.mp code.symm).2]
      rfl
  | cons i code ih =>
    constructor
    · intro h
      obtain ⟨x, found, h⟩ := bind_ok_iff.mp h
      split at h
      · rename_i exit
        cases h
        exact ⟨[], [], rfl, .nil, by simp, by simpa using ⟨x, found, exit⟩⟩
      · rename_i stays
        obtain ⟨front, xs, rfl, reads, inner, first⟩ := ih.mp h
        refine ⟨i :: front, x :: xs, rfl, .cons found reads, ?_, first⟩
        exact List.forall_mem_cons.mpr ⟨by simpa using stays, inner⟩
    · rintro ⟨front, xs, code, reads, inner, first⟩
      cases reads with
      | nil =>
        cases code
        obtain ⟨y, found, exit⟩ := first i rfl
        refine bind_ok_iff.mpr ⟨y, found, ?_⟩
        rw [if_pos exit]
        rfl
      | cons found reads =>
        cases code
        obtain ⟨stays, inner⟩ := List.forall_mem_cons.mp inner
        refine bind_ok_iff.mpr ⟨_, found, ?_⟩
        rw [if_neg (by simp [stays])]
        exact ih.mpr ⟨_, _, rfl, reads, inner, first⟩

private theorem terminators?_ok : terminators? f ids = .ok (some ts) ↔ ∃ ys, f.Reads ids ys ∧
    (∀ y ∈ ys, y.op.isDebug = true ∨ (y.op.isTerminator = true ∧ y.isGuarded = false)) ∧
    ts = ys.filter fun y => !y.op.isDebug := by
  constructor
  · intro h
    induction ids generalizing ts with
    | nil =>
      cases h
      exact ⟨[], .nil, by simp, rfl⟩
    | cons i ids ih =>
      obtain ⟨y, found, h⟩ := bind_ok_iff.mp h
      split at h
      · rename_i debug
        obtain ⟨ys, reads, outer, rfl⟩ := ih h
        exact ⟨y :: ys, .cons found reads, List.forall_mem_cons.mpr ⟨.inl debug, outer⟩,
          by simp [debug]⟩
      · rename_i real
        split at h
        · cases h
        · rename_i exit
          obtain ⟨more, rest, h⟩ := bind_ok_iff.mp h
          obtain ⟨ts', rfl, rfl⟩ := Option.map_eq_some_iff.mp (Except.ok.inj h)
          obtain ⟨ys, reads, outer, rfl⟩ := ih rest
          have free : y.op.isTerminator = true ∧ y.isGuarded = false := by simpa using exit
          exact ⟨y :: ys, .cons found reads, List.forall_mem_cons.mpr ⟨.inr free, outer⟩,
            by simp [real]⟩
  · rintro ⟨ys, reads, outer, rfl⟩
    rw [terminators?_eq reads.found, reads.insts]
    dsimp only
    rw [if_pos]
    refine List.all_eq_true.mpr fun y mem => ?_
    obtain ⟨mem, real⟩ := List.mem_filter.mp mem
    have free := (outer y mem).resolve_left (by simpa using real)
    simp [free]

theorem analyzeBranch_ok : analyzeBranch f b = .ok (some br) ↔
    f.block b = .ok (f.blockAt b) ∧ ∃ front back xs ys,
      f.Parted (f.blockAt b).code front back xs ys ∧
        branchOf? (ys.filter fun y => !y.op.isDebug) = some br := by
  constructor
  · intro h
    obtain ⟨code, asked, h⟩ := bind_ok_iff.mp h
    obtain ⟨known, rfl⟩ := code_ok.mp asked
    obtain ⟨back, stops, h⟩ := bind_ok_iff.mp h
    obtain ⟨found, collected, h⟩ := bind_ok_iff.mp h
    obtain ⟨ts, rfl, made⟩ := Option.bind_eq_some_iff.mp (Except.ok.inj h)
    obtain ⟨front, xs, code, reads, inner, first⟩ := terminal_ok.mp stops
    obtain ⟨ys, reads', outer, rfl⟩ := terminators?_ok.mp collected
    refine ⟨known, front, back, xs, ys, ⟨code, reads, reads', inner, fun y mem => ?_, outer⟩, made⟩
    cases reads' with
    | nil => cases mem
    | cons there _ =>
      obtain ⟨z, found, exit⟩ := first _ rfl
      cases mem
      cases there.symm.trans found
      exact exit
  · rintro ⟨known, front, back, xs, ys, parted, made⟩
    refine bind_ok_iff.mpr ⟨_, code_ok.mpr ⟨known, rfl⟩, bind_ok_iff.mpr ⟨back, ?_, ?_⟩⟩
    · refine terminal_ok.mpr ⟨front, xs, parted.code, parted.front, parted.inner, fun i mem => ?_⟩
      have first := parted.first
      cases parted.back with
      | nil => cases mem
      | cons found _ =>
        cases mem
        exact ⟨_, found, first _ rfl⟩
    · refine bind_ok_iff.mpr ⟨_, terminators?_ok.mpr ⟨ys, parted.back, parted.outer, rfl⟩, ?_⟩
      exact congrArg Except.ok made

inductive Makes : List Inst → Branch → Prop where
  | none : Makes [] {}
  | jump {y : Inst} (op : y.op = .br) : Makes [y] { taken := branchTarget? y }
  | test {y : Inst} (op : y.op = .brc) : Makes [y] { taken := branchTarget? y, cond := y.cond }
  | both {y z : Inst} (op : y.op = .brc) (last : z.op = .br) :
      Makes [y, z] { taken := branchTarget? y, other := branchTarget? z, cond := y.cond }

private theorem Makes.filter_isDebug (made : Makes ts br) : ts.filter (fun y => !y.op.isDebug) = ts := by
  refine List.filter_eq_self.mpr fun y mem => ?_
  cases made <;> simp_all [Op.isDebug]
  rcases mem with rfl | rfl <;> simp_all

theorem branchOf?_eq_some : branchOf? ts = some br ↔ Makes ts br := by
  constructor
  · intro h
    unfold branchOf? at h
    split at h
    · cases h
      exact .none
    · split at h
      · cases h
        exact .jump ‹_›
      · cases h
        exact .test ‹_›
      · cases h
    · split at h
      · rename_i ops
        cases h
        exact .both ops.1 ops.2
      · cases h
    · cases h
  · intro h
    cases h with
    | none => rfl
    | jump op => simp [branchOf?, op]
    | test op => simp [branchOf?, op]
    | both op last => simp [branchOf?, op, last]

private theorem dropLast?_nil (known : f.block b = .ok (f.blockAt b)) (empty : (f.blockAt b).code = [])
    (ops : List Op) : dropLast? f b ops = .ok none := by
  refine bind_ok_iff.mpr ⟨_, code_ok.mpr ⟨known, rfl⟩, ?_⟩
  rw [empty]
  rfl

private theorem dropLast?_concat (known : f.block b = .ok (f.blockAt b))
    (code : (f.blockAt b).code = front ++ [i]) (found : f.inst i = .ok x) (ops : List Op) :
    dropLast? f b ops =
      .ok (if x.isGuarded || decide (x.op ∉ ops) then none else some (f.setCode b front)) := by
  refine bind_ok_iff.mpr ⟨_, code_ok.mpr ⟨known, rfl⟩, ?_⟩
  have erased := eraseCode_eq known code
  have last : ((f.blockAt b).code.length : Int) = front.length + 1 := by simp [code]
  rw [← last, show (front.length : Int) = (f.blockAt b).code.length - 1 by omega,
    List.append_nil] at erased
  rw [code, List.getLast?_concat, ← code]
  refine bind_ok_iff.mpr ⟨x, found, ?_⟩
  split
  · rfl
  · exact bind_ok_iff.mpr ⟨_, erased, rfl⟩

private theorem dropLast?_inner (known : f.block b = .ok (f.blockAt b))
    (reads : f.Reads (f.blockAt b).code xs)
    (inner : ∀ x ∈ xs, x.op.isTerminator = false) {ops : List Op}
    (exits : ∀ op ∈ ops, op.isTerminator = true) : dropLast? f b ops = .ok none := by
  rcases List.eq_nil_or_concat (f.blockAt b).code with empty | ⟨front, i, code⟩
  · exact dropLast?_nil known empty ops
  · rw [List.concat_eq_append] at code
    obtain ⟨x, mem, found⟩ := exists_right_of_forall₂ reads (a := i) (by simp [code])
    have other : x.op ∉ ops := by
      intro listed
      simpa [inner x mem] using exits x.op listed
    rw [dropLast?_concat known code found, if_pos (by simp [other])]

private theorem removeBranch_total (known : f.block b = .ok (f.blockAt b))
    (found : ∀ i ∈ (f.blockAt b).code, ∃ x, f.inst i = .ok x) :
    ∃ l n, l <+: (f.blockAt b).code ∧ removeBranch f b = .ok (f.setCode b l, n) := by
  have once : ∀ (g : Procedure) (ops : List Op), g.block b = .ok (g.blockAt b) →
      (∀ i ∈ (g.blockAt b).code, ∃ x, g.inst i = .ok x) → dropLast? g b ops = .ok none ∨
        ∃ l, l <+: (g.blockAt b).code ∧ dropLast? g b ops = .ok (some (g.setCode b l)) := by
    intro g ops known found
    rcases List.eq_nil_or_concat (g.blockAt b).code with empty | ⟨front, i, code⟩
    · exact .inl (dropLast?_nil known empty ops)
    · rw [List.concat_eq_append] at code
      obtain ⟨x, there⟩ := found i (by simp [code])
      rw [dropLast?_concat known code there]
      split
      · exact .inl rfl
      · exact .inr ⟨front, by rw [code]; exact List.prefix_append front [i], rfl⟩
  rcases once f [.br, .brc] known found with none | ⟨l, sub, first⟩
  · refine ⟨_, 0, List.prefix_rfl, bind_ok_iff.mpr ⟨_, none, ?_⟩⟩
    rw [setCode_self known]
    rfl
  · have code : ((f.setCode b l).blockAt b).code = l := by
      rw [code_setCode known, if_pos rfl]
    have known' := block_setCode known b l
    have found' : ∀ i ∈ ((f.setCode b l).blockAt b).code, ∃ x, (f.setCode b l).inst i = .ok x := by
      rw [code]
      intro i mem
      rw [inst_setCode]
      exact found i (sub.subset mem)
    rcases once (f.setCode b l) [.brc] known' found' with none | ⟨l', sub', second⟩
    · exact ⟨l, 1, sub, bind_ok_iff.mpr ⟨_, first, bind_ok_iff.mpr ⟨_, none, rfl⟩⟩⟩
    · rw [code] at sub'
      rw [setCode_setCode] at second
      exact ⟨l', 2, sub'.trans sub, bind_ok_iff.mpr ⟨_, first, bind_ok_iff.mpr ⟨_, second, rfl⟩⟩⟩

private theorem removeBranch_parted (known : f.block b = .ok (f.blockAt b))
    (parted : f.Parted (f.blockAt b).code front back xs ys) (made : Makes ys br) :
    removeBranch f b = .ok (f.setCode b front, back.length) := by
  have free : ∀ y ∈ ys, y.op = .br ∨ y.op = .brc → y.isGuarded = false := by
    intro y mem op
    rcases parted.outer y mem with debug | ⟨-, free⟩
    · rcases op with op | op <;> simp [op, Op.isDebug] at debug
    · exact free
  -- what is left in front has no terminators, so no more of it is cut off
  have left : ∀ ops : List Op, (∀ op ∈ ops, op.isTerminator = true) →
      dropLast? (f.setCode b front) b ops = .ok none := by
    intro ops exits
    have code : ((f.setCode b front).blockAt b).code = front := by rw [code_setCode known, if_pos rfl]
    refine dropLast?_inner (block_setCode known b front) ?_ parted.inner exits
    rw [code]
    exact parted.front.mono fun i x found => by rw [inst_setCode, found]
  have code := parted.code
  have reads := parted.back
  cases made with
  | none =>
    cases reads with
    | nil =>
      have same : f.setCode b front = f := by
        rw [List.append_nil] at code
        rw [← code, setCode_self known]
      have none := left [.br, .brc] (by simp [Op.isTerminator])
      rw [same] at none ⊢
      exact bind_ok_iff.mpr ⟨_, none, rfl⟩
  | @jump y op | @test y op =>
    cases reads with
    | cons found reads =>
      cases reads with
      | nil =>
        have first : dropLast? f b [.br, .brc] = .ok (some (f.setCode b front)) := by
          rw [dropLast?_concat known code found, if_neg]
          simp [op, free y (by simp) (by simp [op])]
        exact bind_ok_iff.mpr ⟨_, first, bind_ok_iff.mpr ⟨_, left _ (by simp [Op.isTerminator]), rfl⟩⟩
  | @both y z op last =>
    cases reads with
    | @cons i _ _ _ found reads =>
      cases reads with
      | @cons j _ _ _ found' reads =>
        cases reads with
        | nil =>
          have code' : (f.blockAt b).code = (front ++ [i]) ++ [j] := by simp [code]
          have first : dropLast? f b [.br, .brc] = .ok (some (f.setCode b (front ++ [i]))) := by
            rw [dropLast?_concat known code' found', if_neg]
            simp [last, free z (by simp) (by simp [last])]
          have second : dropLast? (f.setCode b (front ++ [i])) b [.brc] =
              .ok (some (f.setCode b front)) := by
            have rest : ((f.setCode b (front ++ [i])).blockAt b).code = front ++ [i] := by
              rw [code_setCode known, if_pos rfl]
            rw [dropLast?_concat (block_setCode known b _) rest (by rw [inst_setCode, found]), if_neg,
              setCode_setCode]
            simp [op, free y (by simp) (by simp [op])]
          exact bind_ok_iff.mpr ⟨_, first, bind_ok_iff.mpr ⟨_, second, rfl⟩⟩

private theorem branchTarget?_jump (t : BlockId) : branchTarget? (.jump t) = BlockId.named? t := rfl

private theorem branchTarget?_branch (c : Condition) (t : BlockId) :
    branchTarget? (.branch c t) = BlockId.named? t := rfl

private theorem insertBranch_parted (known : f.block b = .ok (f.blockAt b))
    (reads : f.Reads (f.blockAt b).code xs) (inner : ∀ x ∈ xs, x.op.isTerminator = false)
    {t : BlockId} (named : t ≠ -1) (other : BlockId) (cond : Condition) :
    ∃ g back ys, insertBranch f b { taken := some t, other := BlockId.named? other, cond := cond } =
        .ok (g, back.length) ∧
      g.block b = .ok (g.blockAt b) ∧ g.Parted (g.blockAt b).code (f.blockAt b).code back xs ys ∧
      Makes ys
        { taken := some t
          other := if cond.isEmpty then none else BlockId.named? other
          cond := cond } ∧
      (g.setCode b (f.blockAt b).code).blocks = f.blocks := by
  have target : BlockId.named? t = some t := if_neg named
  have start := reads.parted inner
  have restored := congrArg Procedure.blocks (setCode_self known)
  cases cond with
  | nil =>
    refine ⟨_, _, _, bind_ok_iff.mpr ⟨_, append_eq known (.jump t), rfl⟩, block_place known _ _ _,
      start.place known rfl rfl, ?_, ?_⟩
    · rw [← target, ← branchTarget?_jump]
      exact .jump rfl
    · rw [blocks_place_setCode, restored]
  | cons c cond =>
    have first := append_eq known (.branch (c :: cond) t)
    have parted := start.place known (y := .branch (c :: cond) t) rfl rfl
    have known' := block_place known (f.blockAt b).code [] (.branch (c :: cond) t)
    rcases away : BlockId.named? other with _ | o
    · refine ⟨_, _, _, bind_ok_iff.mpr ⟨_, first, rfl⟩, known', parted, ?_, ?_⟩
      · rw [← target, ← branchTarget?_branch (c :: cond)]
        exact .test rfl
      · rw [blocks_place_setCode, restored]
    · refine ⟨_, _, _, bind_ok_iff.mpr ⟨_, first, bind_ok_iff.mpr ⟨_, append_eq known' (.jump o), rfl⟩⟩,
        block_place known' _ _ _, parted.place known' rfl rfl, ?_, ?_⟩
      · have same : BlockId.named? o = some o := by
          unfold BlockId.named? at away ⊢
          split at away
          · cases away
          · cases away
            rw [if_neg ‹_›]
        rw [← target, ← branchTarget?_branch (c :: cond)]
        simp only [List.isEmpty_cons, Bool.false_eq_true, if_false]
        rw [← same, ← branchTarget?_jump]
        exact .both rfl rfl
      · rw [blocks_place_setCode, blocks_place_setCode, restored]

/-- A block that can be taken apart: cutting its branches off leaves exactly the rest of its code if no
debug marker stands behind a terminator, and else does not. What is left then falls through, and any
branch put behind it is found by the analysis and can be cut off again. -/
theorem removeBranch_exact_iff (analyzed : analyzeBranch f b = .ok (some br)) :
    ∃ g n, removeBranch f b = .ok (g, n) ∧
      ((g = f.setCode b ((f.blockAt b).code.filter fun i => !f.leavesAt i) ∧
          n = (f.blockAt b).code.countP f.leavesAt ∧ analyzeBranch g b = .ok (some {})) ↔ f.Trim b) ∧
      (f.Trim b → ∀ (t other : BlockId) (cond : Condition), t ≠ -1 →
        ∃ g' m, insertBranch g b { taken := some t, other := BlockId.named? other, cond := cond } =
            .ok (g', m) ∧
          analyzeBranch g' b = .ok (some
            { taken := some t
              other := if cond.isEmpty then none else BlockId.named? other
              cond := cond }) ∧
          ∃ g'', removeBranch g' b = .ok (g'', m) ∧ g''.blocks = g.blocks) := by
  obtain ⟨known, front, back, xs, ys, parted, made⟩ := analyzeBranch_ok.mp analyzed
  by_cases trim : f.Trim b
  · have plain := parted.trim_iff.mp trim
    rw [List.filter_eq_self.mpr fun y mem => by simp [plain y mem]] at made
    have left := parted.all_leave plain
    have known' := block_setCode known b front
    have code : ((f.setCode b front).blockAt b).code = front := by rw [code_setCode known, if_pos rfl]
    have reads : (f.setCode b front).Reads ((f.setCode b front).blockAt b).code xs := by
      rw [code]
      exact parted.front.mono fun i x found => by rw [inst_setCode, found]
    refine ⟨_, _, removeBranch_parted known parted (branchOf?_eq_some.mp made),
      iff_of_true ⟨?_, ?_, ?_⟩ trim, fun _ t other cond named => ?_⟩
    · have none : back.filter (fun i => !f.leavesAt i) = [] :=
        List.filter_eq_nil_iff.mpr fun i mem => by simp [left i mem]
      rw [parted.filter_leavesAt, none, List.append_nil]
    · have none : front.countP f.leavesAt = 0 := by
        refine List.countP_eq_zero.mpr fun i mem => ?_
        obtain ⟨x, hx, found⟩ := exists_right_of_forall₂ parted.front mem
        simp [leavesAt_eq found, parted.inner x hx]
      rw [parted.code, List.countP_append, none, List.countP_eq_length.mpr left, Nat.zero_add]
    · exact analyzeBranch_ok.mpr ⟨known', _, _, _, _, reads.parted parted.inner, rfl⟩
    · obtain ⟨g, back', ys', inserted, there, parted', makes, restored⟩ :=
        insertBranch_parted known' reads parted.inner named other cond
      refine ⟨g, _, inserted, ?_, _, removeBranch_parted there parted' makes, restored⟩
      refine analyzeBranch_ok.mpr ⟨there, _, _, _, _, parted', ?_⟩
      rw [makes.filter_isDebug]
      exact branchOf?_eq_some.mpr makes
  · obtain ⟨l, n, sub, removed⟩ := removeBranch_total known parted.found
    refine ⟨_, n, removed, iff_of_false ?_ trim, fun trim' => absurd trim' trim⟩
    rintro ⟨same, -, -⟩
    rw [parted.trim_iff] at trim
    push Not at trim
    obtain ⟨y, mem, marker⟩ := trim
    have codes := congrArg (fun g : Procedure => (g.blockAt b).code) same
    simp only [code_setCode known, if_pos] at codes
    rw [codes] at sub
    exact parted.not_prefix mem (by simpa using marker) sub

/-- A block with a debug marker before its branches, and one with a marker behind its branch. -/
def marked : Procedure :=
  { name := "f"
    regs := #["c"]
    insts := #[{ op := .dbg }, .branch [⟨0, false⟩] 1, .jump 2, .branch [⟨0, false⟩] 2, { op := .dbg },
      { op := .ret }]
    blocks := #[{ id := 0, name := "A", code := [0, 1, 2], succs := [1, 2] },
      { id := 1, name := "B", code := [3, 4], succs := [2], preds := [0] },
      { id := 2, name := "C", code := [5], preds := [0, 1] }]
    layout := [0, 1, 2] }

theorem removeBranch_exact_marked : analyzeBranch marked 0 =
      .ok (some { taken := some 1, other := some 2, cond := [⟨0, false⟩] }) ∧ marked.Trim 0 ∧
    ∃ g, removeBranch marked 0 = .ok (g, 2) ∧ (g.blockAt 0).code = [0] ∧
      ∃ g' m, insertBranch g 0 { taken := some 2 } = .ok (g', m) ∧
        analyzeBranch g' 0 = .ok (some { taken := some 2 }) := by
  have analyzed : analyzeBranch marked 0 =
      .ok (some { taken := some 1, other := some 2, cond := [⟨0, false⟩] }) := by decide
  have insts : marked.instsAt 0 = [{ op := .dbg }, .branch [⟨0, false⟩] 1, .jump 2] := by decide
  have trim : marked.Trim 0 := by
    unfold Procedure.Trim
    rw [insts]
    simp [Inst.branch, Inst.jump, Op.isTerminator, Op.isDebug]
  obtain ⟨g, n, removed, exact, inserts⟩ := removeBranch_exact_iff analyzed
  obtain ⟨rfl, rfl, -⟩ := exact.mpr trim
  obtain ⟨g', m, inserted, found, -⟩ := inserts trim 2 (-1) [] (by decide)
  exact ⟨analyzed, trim, _, removed, by decide, g', m, inserted, found⟩

/-- The branch that the analysis finds before the marker stays where it is. -/
theorem not_removeBranch_exact_marked : analyzeBranch marked 1 =
      .ok (some { taken := some 2, cond := [⟨0, false⟩] }) ∧
    removeBranch marked 1 = .ok (marked, 0) ∧ (marked.blockAt 1).code.countP marked.leavesAt = 1 := by
  decide

end Datapath

end Predication
