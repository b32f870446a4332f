import Predication.Proofs.GuardedBlocks
import Predication.Proofs.SharedEnds
import Predication.Proofs.Transfers

/-!
The arms of a branch on their way to its head. What both start with goes there at once, and the first
arm loses what both end with; then the first one is guarded as a whole, and the second one up to what
they end with. All of it is said as what code the head and the arms have, and what became of the
instructions.
-/

set_option autoImplicit false
set_option relaxedAutoImplicit false

namespace Predication

open Procedure

namespace Procedure

variable {f g k : Procedure} {b p q : BlockId} {H A B code : List InstId}

/-- The code of the head `b` and of the arms `p` and `q`, where all other blocks have the code that they
have in `f`, and all lead where they led there. The instructions may differ. -/
structure Lays (f g : Procedure) (b p q : BlockId) (H A B : List InstId) : Prop where
  firstNe : p ≠ b
  secondNe : q ≠ b
  apart : p ≠ q
  head : (g.blockAt b).code = H
  first : (g.blockAt p).code = A
  second : (g.blockAt q).code = B
  rest : ∀ a, a ≠ b → a ≠ p → a ≠ q → (g.blockAt a).code = (f.blockAt a).code
  succs : ∀ a, (g.blockAt a).succs = (f.blockAt a).succs

namespace Lays

variable (h : Lays f g b p q H A B)

include h

private theorem setHead (block : g.block b = .ok (g.blockAt b)) :
    Lays f (g.setCode b code) b p q code A B where
  firstNe := h.firstNe
  secondNe := h.secondNe
  apart := h.apart
  head := by rw [code_setCode block, if_pos rfl]
  first := by rw [code_setCode block, if_neg h.firstNe, h.first]
  second := by rw [code_setCode block, if_neg h.secondNe, h.second]
  rest a head first second := by rw [code_setCode block, if_neg head, h.rest a head first second]
  succs a := by rw [(sameLinks_setCode block code).succs, h.succs]

private theorem setFirst (block : g.block p = .ok (g.blockAt p)) :
    Lays f (g.setCode p code) b p q H code B where
  firstNe := h.firstNe
  secondNe := h.secondNe
  apart := h.apart
  head := by rw [code_setCode block, if_neg h.firstNe.symm, h.head]
  first := by rw [code_setCode block, if_pos rfl]
  second := by rw [code_setCode block, if_neg h.apart.symm, h.second]
  rest a head first second := by rw [code_setCode block, if_neg first, h.rest a head first second]
  succs a := by rw [(sameLinks_setCode block code).succs, h.succs]

private theorem setSecond (block : g.block q = .ok (g.blockAt q)) :
    Lays f (g.setCode q code) b p q H A code where
  firstNe := h.firstNe
  secondNe := h.secondNe
  apart := h.apart
  head := by rw [code_setCode block, if_neg h.secondNe.symm, h.head]
  first := by rw [code_setCode block, if_neg h.apart, h.first]
  second := by rw [code_setCode block, if_pos rfl]
  rest a head first second := by rw [code_setCode block, if_neg second, h.rest a head first second]
  succs a := by rw [(sameLinks_setCode block code).succs, h.succs]

private theorem congr (blocks : k.blocks = g.blocks) : Lays f k b p q H A B := by
  have view := blockAt_congr blocks
  refine ⟨h.firstNe, h.secondNe, h.apart, ?_, ?_, ?_, fun a head first second => ?_, fun a => ?_⟩
  · rw [view, h.head]
  · rw [view, h.first]
  · rw [view, h.second]
  · rw [view, h.rest a head first second]
  · rw [view, h.succs]

end Lays

structure SameInsts (f g : Procedure) : Prop where
  inst : ∀ i, g.inst i = f.inst i
  regs : g.regs = f.regs

private theorem SameInsts.setCode (h : SameInsts f g) (b : BlockId) (code : List InstId) :
    SameInsts f (g.setCode b code) :=
  ⟨fun i => (inst_setCode g b code i).trans (h.inst i), (regs_mapBlock g b _).trans h.regs⟩

end Procedure

namespace Conversion

open Predication.Conversion.Convert

variable {d : Datapath} {f : Procedure} {st st' : State} {a b p q : BlockId} {c c' : Condition}
  {u : Unit} {valued valued' : BitSet} {r : Reg}

private theorem cutBranch_ok (h : Yields (cutBranch d.target a) st u st') :
    ∃ n, Datapath.removeBranch st.procedure a = .ok (st'.procedure, n) := by
  obtain ⟨n, mid, first, h⟩ := yields_bind.mp h
  obtain ⟨g, removed, rfl⟩ := yields_editWith.mp first
  rw [(yields_setInfo h).1]
  exact ⟨n, removed⟩

private theorem dropLast?_front {ops : List Op} {r : Option Procedure}
    (h : Datapath.dropLast? f a ops = .ok r) :
    f.block a = .ok (f.blockAt a) ∧ ∀ g ∈ r, g = f.setCode a (f.blockAt a).code.dropLast := by
  obtain ⟨code, asked, h⟩ := bind_ok_iff.mp h
  obtain ⟨block, rfl⟩ := code_ok.mp asked
  refine ⟨block, fun g mem => ?_⟩
  split at h
  · cases h
    cases mem
  · obtain ⟨x, -, h⟩ := bind_ok_iff.mp h
    split at h
    · cases h
      cases mem
    · obtain ⟨k, erased, h⟩ := bind_ok_iff.mp h
      cases h
      cases mem
      obtain ⟨-, inside, -, rfl⟩ := eraseCode_ok erased
      have index : ((f.blockAt a).code.length - 1 : Int).toNat = (f.blockAt a).code.length - 1 := by omega
      rw [index, Int.toNat_natCast, List.drop_length, List.append_nil, List.dropLast_eq_take]

private theorem removeBranch_front {g : Procedure} {n : Nat} (h : Datapath.removeBranch f a = .ok (g, n)) :
    f.block a = .ok (f.blockAt a) ∧ ∃ front, front <+: (f.blockAt a).code ∧ g = f.setCode a front := by
  obtain ⟨once, dropped, h⟩ := bind_ok_iff.mp h
  obtain ⟨block, left⟩ := dropLast?_front dropped
  refine ⟨block, ?_⟩
  cases once with
  | none =>
    cases h
    exact ⟨_, List.prefix_rfl, (setCode_self block).symm⟩
  | some g₁ =>
    obtain rfl := left g₁ rfl
    obtain ⟨twice, dropped', h⟩ := bind_ok_iff.mp h
    have first := List.dropLast_prefix (f.blockAt a).code
    cases twice with
    | none =>
      cases h
      exact ⟨_, first, rfl⟩
    | some g₂ =>
      obtain rfl := (dropLast?_front dropped').2 g₂ rfl
      cases h
      rw [code_setCode block, if_pos rfl, setCode_setCode]
      exact ⟨_, (List.dropLast_prefix _).trans first, rfl⟩

/-- An arm of a branch that the analysis has let through: a body, and the branches behind it. -/
structure Side (d : Datapath) (f : Procedure) (r : Reg) (a : BlockId) (body exits : List InstId) : Prop
    extends f.Ends body exits where
  code : (f.blockAt a).code = body ++ exits
  closing : Closing d (body.filterMap f.inst?)
  plain : ∀ x ∈ f.instsAt a, x.op ≠ .undef ∧ x.op ≠ .phi
  sets : ∀ x ∈ body.filterMap f.inst?, r ∈ d.sets f x → (d.profile x.op).setsPredicate = true

private theorem Side.defined {g : Procedure} {body exits : List InstId} (h : Side d f r a body exits)
    (sub : (g.blockAt a).code ⊆ body ++ exits)
    (same : ∀ i ∈ (g.blockAt a).code, g.inst i = f.inst i) : ∀ x ∈ g.instsAt a, x.op ≠ .undef := by
  intro x mem
  obtain ⟨i, mem, found⟩ := mem_instsAt.mp mem
  rw [same i mem] at found
  exact (h.plain x (mem_instsAt.mpr ⟨i, h.code ▸ sub mem, found⟩)).1

private theorem sets_debug {x : Inst} (debug : x.op.isDebug = true) : d.sets f x = [] := by
  have op : x.op = .dbg := by
    revert debug
    cases x.op <;> simp [Op.isDebug]
  simp [Datapath.sets, Inst.writes, Inst.isWriter, op, Op.isDebug]

private theorem exitOf_some {i : Summary} {tail : BlockId} (h : exitOf f i i.taken = some tail) :
    i.taken ≠ none ∨ i.analyzable = true := by
  unfold exitOf at h
  split at h
  · rename_i falls
    simp only [Summary.alwaysFallsThrough, Bool.and_eq_true] at falls
    exact .inr falls.2.1
  · exact .inl (by simp [h])

theorem side_of_scan {i j : Summary} {tail : BlockId} (scanned : i.scan d.target f = .ok j)
    (tag : i.block = a) (fresh : j.done = false) (free : j.unguardable = false)
    (goes : exitOf f j j.taken = some tail)
    (order : (f.instsAt a).Pairwise fun x y => x.op.isBranch = true → y.op.isDebug = false)
    (plain : ∀ x ∈ f.instsAt a, x.op ≠ .undef ∧ x.op ≠ .phi)
    (sets : ∀ x ∈ f.instsAt a, r ∈ d.sets f x → d.target.setsPredicate x = true) :
    ∃ body exits, Side d f r a body exits ∧
      (j.clobbers = false → ∀ x ∈ body.filterMap f.inst?, r ∉ d.sets f x) := by
  have fresh : i.done = false := by
    cases done : i.done with
    | false => rfl
    | true =>
      rw [Summary.scan_done done scanned] at fresh
      exact absurd (done.symm.trans fresh) (by simp)
  obtain ⟨br, analyzed, frame, stuck | ⟨i', read⟩⟩ := Summary.scan_cases fresh scanned
  · exact absurd (stuck.symm.trans free) (by simp)
  subst tag
  cases br with
  | none =>
    simp only [Summary.frame, Summary.ending, Summary.setBranch, Prod.mk.injEq, Branch.mk.injEq] at frame
    rcases exitOf_some goes with taken | analyzable
    · exact absurd frame.2.2.2.1 taken
    · exact absurd (frame.2.1.symm.trans analyzable) (by simp)
  | some br =>
    obtain ⟨body, exits, code, ends⟩ :=
      ends_of_analyzeBranch (Summary.scanCode_found read free) order analyzed
    have within : ∀ x ∈ body.filterMap f.inst?, x ∈ f.instsAt i.block := by
      intro x mem
      rw [Procedure.instsAt, code, List.filterMap_append]
      exact List.mem_append_left _ mem
    obtain ⟨-, closing, -⟩ := Summary.scanCode_closing (code ▸ read) free ends.inner
    refine ⟨body, exits, ⟨ends, code, closing, plain, fun x mem => sets x (within x mem)⟩,
      fun calm x mem set => ?_⟩
    have live : x.op.isDebug = false := by
      by_contra debug
      rw [sets_debug (by simpa using debug)] at set
      cases set
    have never := (Summary.scanCode_calm read free calm).2 x (within x mem) live (ends.inner x mem)
    exact absurd ((sets x (within x mem) set).symm.trans never) (by simp)

section Splicing

variable {g k k' : Procedure} {H A B bodyA exitsA bodyB exitsB : List InstId} {xs ys zsA zsB : List Inst}
  {n : Nat}

private theorem hoist {stop stop' : Nat} (lays : Lays f g b p q H (bodyA ++ exitsA) (bodyB ++ exitsB))
    (same : SameInsts f g) (endsA : f.Ends bodyA exitsA) (endsB : f.Ends bodyB exitsB)
    (liveA : f.liveOf bodyA = xs ++ zsA) (liveB : f.liveOf bodyB = xs ++ zsB)
    (stops : leading g (bodyA ++ exitsA) xs.length 0 = .ok stop)
    (stops' : leading g (bodyB ++ exitsB) xs.length 0 = .ok stop')
    (moved : g.moveCode b p 0 stop = .ok k) (erased : k.eraseCode q 0 stop' = .ok k') :
    ∃ lead restA leadB restB, bodyA = lead ++ restA ∧ bodyB = leadB ++ restB ∧
      f.liveOf lead = xs ∧ f.liveOf restA = zsA ∧ f.liveOf leadB = xs ∧ f.liveOf restB = zsB ∧
      Lays f k' b p q (H ++ lead) (restA ++ exitsA) (restB ++ exitsB) ∧ SameInsts f k' := by
  have live : ∀ code, g.liveOf code = f.liveOf code := fun code => liveOf_congr fun i _ => same.inst i
  obtain ⟨lead, restA, rfl, rfl, lead', restA'⟩ := leading_ends
    (endsA.mono (List.Subset.refl _) fun i _ => same.inst i) ((live bodyA).trans liveA) stops
  obtain ⟨leadB, restB, rfl, rfl, leadB', restB'⟩ := leading_ends
    (endsB.mono (List.Subset.refl _) fun i _ => same.inst i) ((live bodyB).trans liveB) stops'
  rw [live] at lead' restA' leadB' restB'
  obtain ⟨head, first, -, moved⟩ := moveCode_ok lays.firstNe moved
  rw [lays.head, lays.first, Int.toNat_natCast, List.append_assoc, List.take_left, List.drop_left] at moved
  subst moved
  have lays₁ : Lays f _ b p q (H ++ lead) (restA ++ exitsA) (leadB ++ restB ++ exitsB) :=
    (lays.setHead head).setFirst (block_setCode first b _)
  obtain ⟨second, -, -, erased⟩ := eraseCode_ok erased
  rw [lays₁.second, Int.toNat_natCast, List.append_assoc, List.drop_left] at erased
  subst erased
  exact ⟨lead, restA, leadB, restB, rfl, rfl, lead', restA', leadB', restB', lays₁.setSecond second,
    ((same.setCode _ _).setCode _ _).setCode _ _⟩

private theorem trim (lays : Lays f g b p q H (bodyA ++ exitsA) B) (same : SameInsts f g)
    (ends : f.Ends bodyA exitsA) (live : f.liveOf bodyA = zsA ++ ys)
    (removed : Datapath.removeBranch g p = .ok (k, n))
    (erased : (do
      let code ← k.code p
      k.eraseCode p (← trailing k code ys.length code.length) code.length) = .ok k') :
    ∃ mid trail, bodyA = mid ++ trail ∧ f.liveOf mid = zsA ∧ f.liveOf trail = ys ∧
      Lays f k' b p q H mid B ∧ SameInsts f k' := by
  have ends' : g.Ends bodyA exitsA := ends.mono (List.Subset.refl _) fun i _ => same.inst i
  obtain ⟨block, rfl⟩ := ends'.removeBranch lays.first removed
  have lays₁ : Lays f _ b p q H bodyA B := lays.setFirst block
  have same₁ := same.setCode p bodyA
  obtain ⟨code, asked, erased⟩ := bind_ok_iff.mp erased
  obtain ⟨block₁, rfl⟩ := code_ok.mp asked
  rw [lays₁.first] at erased
  obtain ⟨stop, stops, erased⟩ := bind_ok_iff.mp erased
  obtain ⟨mid, trail, rfl, rfl, mid', trail'⟩ := trailing_split
    ((liveOf_congr fun i _ => same₁.inst i).trans live) stops
  rw [liveOf_congr fun i _ => same₁.inst i] at mid' trail'
  obtain ⟨-, -, -, erased⟩ := eraseCode_ok erased
  rw [lays₁.first, Int.toNat_natCast, Int.toNat_natCast, List.take_left, List.drop_length,
    List.append_nil] at erased
  subst erased
  exact ⟨mid, trail, rfl, mid', trail', lays₁.setFirst block₁, same₁.setCode p mid⟩

/-- Two arms cut up and put under their conditions: what they start and end with is the same in both, and
each has its own code between. The head has the start of the first arm, and the end of the second one is
kept. -/
structure Spliced (d : Datapath) (f g : Procedure) (b p q : BlockId) (c c' : Condition)
    (H lead midA trailA leadB midB trail : List InstId) : Prop
    extends Lays f g b p q (H ++ lead) midA (midB ++ trail) where
  front : H <+: (f.blockAt b).code
  leads : f.liveOf leadB = f.liveOf lead
  trails : f.liveOf trailA = f.liveOf trail
  regs : g.regs = f.regs
  inst : ∀ i x, f.inst i = .ok x → ∃ y, g.inst i = .ok y ∧ (i ∈ midA → i ∉ midB → Narrows d f c x y) ∧
    (i ∈ midB → i ∉ midA → Narrows d f c' x y) ∧ (i ∉ midA → i ∉ midB → y = x)
  old : ∀ i y, g.inst i = .ok y → ∃ x, f.inst i = .ok x

/-- Guards the code that the first arm has left and what the second one has before the common end, and
joins both to the head. -/
def guardArms (t : Target) (b p q : BlockId) (stop sharedTail : Nat) (c c' : Condition) (keep : Bool)
    (valued : BitSet) : Convert Unit := do
  let valued ← guardBlock t p stop c valued
  cutBranch t q
  let stop ← query fun f => do
    let code ← f.code q
    trailing f code sharedTail code.length
  let _ ← guardBlock t q stop c' valued
  join b p c keep
  join b q c' keep

/-- The arms before they are guarded. The first one has only its own code left, and the second one lacks
what both start with. -/
structure Trimmed (f g : Procedure) (b p q : BlockId) (H lead midA trailA leadB restB exitsB : List InstId)
    (xs ys zsB : List Inst) : Prop
    extends Lays f g b p q (H ++ lead) midA (restB ++ exitsB), SameInsts f g where
  front : H <+: (f.blockAt b).code
  lead : f.liveOf lead = xs
  trail : f.liveOf trailA = ys
  lead' : f.liveOf leadB = xs
  rest' : f.liveOf restB = zsB ++ ys

private theorem moveArms_trims {keep : Bool} (firstNe : p ≠ b) (secondNe : q ≠ b) (apart : p ≠ q)
    (sideA : Side d st.procedure r p bodyA exitsA) (sideB : Side d st.procedure r q bodyB exitsB)
    (liveA : st.procedure.liveOf bodyA = xs ++ (zsA ++ ys))
    (liveB : st.procedure.liveOf bodyB = xs ++ (zsB ++ ys))
    (h : Yields (moveArms d.target b p q c c' xs.length ys.length keep) st u st') :
    ∃ mid valued H lead midA trailA leadB restB, bodyA = lead ++ (midA ++ trailA) ∧ bodyB = leadB ++ restB ∧
      Trimmed st.procedure mid.procedure b p q H lead midA trailA leadB restB exitsB xs ys zsB ∧
      Yields (guardArms d.target b p q (mid.procedure.blockAt p).code.length ys.length c c' keep valued)
        mid u st' := by
  unfold moveArms at h
  obtain ⟨u₁, st₁, step, h⟩ := yields_bind.mp h
  obtain ⟨n, removed⟩ := cutBranch_ok step
  obtain ⟨block, H, front, removed⟩ := removeBranch_front removed
  have lays₀ : Lays st.procedure st.procedure b p q _ _ _ :=
    ⟨firstNe, secondNe, apart, rfl, sideA.code, sideB.code, fun _ _ _ _ => rfl, fun _ => rfl⟩
  have lays₁ : Lays st.procedure st₁.procedure b p q H _ _ := removed ▸ lays₀.setHead block
  have same₁ : SameInsts st.procedure st₁.procedure :=
    removed ▸ SameInsts.setCode ⟨fun _ => rfl, rfl⟩ b H
  obtain ⟨valued, mid, step, h⟩ := yields_bind.mp h
  obtain rfl := yields_valuedAt step
  obtain ⟨stop, mid, step, h⟩ := yields_bind.mp h
  obtain ⟨stops, rfl⟩ := yields_query.mp step
  obtain ⟨code, asked, stops⟩ := bind_ok_iff.mp stops
  obtain ⟨-, rfl⟩ := code_ok.mp asked
  rw [lays₁.first, Int.toNat_natCast] at stops
  obtain ⟨stop', mid, step, h⟩ := yields_bind.mp h
  obtain ⟨stops', rfl⟩ := yields_query.mp step
  obtain ⟨code, asked, stops'⟩ := bind_ok_iff.mp stops'
  obtain ⟨-, rfl⟩ := code_ok.mp asked
  rw [lays₁.second, Int.toNat_natCast] at stops'
  obtain ⟨ids, mid, step, h⟩ := yields_bind.mp h
  obtain ⟨-, rfl⟩ := yields_query.mp step
  obtain ⟨valued', mid, step, h⟩ := yields_bind.mp h
  have plain := (composes_reads.foldlM _ _ (composes_reads.notePlain _) _ _ _ step).procedure
  obtain ⟨u₂, mid, step, h⟩ := yields_bind.mp h
  obtain ⟨f₂, moved, rfl⟩ := yields_edit.mp step
  rw [plain] at moved
  obtain ⟨u₃, mid, step, h⟩ := yields_bind.mp h
  obtain ⟨f₃, erased, rfl⟩ := yields_edit.mp step
  obtain ⟨lead, restA, leadB, restB, rfl, rfl, lead', restA', leadB', restB', lays₃, same₃⟩ :=
    hoist lays₁ same₁ sideA.toEnds sideB.toEnds liveA liveB stops stops' moved erased
  obtain ⟨u₄, st₄, step, h⟩ := yields_bind.mp h
  have shrunk : st₄.procedure = f₃ := (reads_setInfo p _ _ _ _ step).procedure
  obtain ⟨u₅, st₅, step, h⟩ := yields_bind.mp h
  have shrunk : st₅.procedure = f₃ := (reads_setInfo q _ _ _ _ step).procedure.trans shrunk
  rw [← shrunk] at lays₃ same₃
  obtain ⟨u₆, st₆, step, h⟩ := yields_bind.mp h
  obtain ⟨n₆, removed₆⟩ := cutBranch_ok step
  obtain ⟨u₇, mid, step, h⟩ := yields_bind.mp h
  obtain ⟨f₇, erased₇, rfl⟩ := yields_edit.mp step
  rw [Int.toNat_natCast] at erased₇
  have endsA : st.procedure.Ends restA exitsA :=
    sideA.toEnds.mono (List.subset_append_right lead restA) fun _ _ => rfl
  obtain ⟨midA, trailA, rfl, midA', trailA', lays₇, same₇⟩ := trim lays₃ same₃ endsA restA' removed₆ erased₇
  obtain ⟨code, mid, step, h⟩ := yields_bind.mp h
  obtain ⟨asked, rfl⟩ := yields_query.mp step
  obtain ⟨-, rfl⟩ := code_ok.mp asked
  exact ⟨_, valued', H, lead, midA, trailA, leadB, restB, rfl, rfl,
    ⟨lays₇, same₇, front, lead', trailA', leadB', restB'⟩, h⟩

private theorem narrows_twice (start : SameInsts f g) {g' : Procedure} (first : Narrowed d c A g g')
    (same : SameInsts g' k) (second : Narrowed d c' B k k') (i : InstId) (x : Inst) (found : f.inst i = .ok x) :
    ∃ y, k'.inst i = .ok y ∧ (i ∈ A → i ∉ B → Narrows d f c x y) ∧
      (i ∈ B → i ∉ A → Narrows d f c' x y) ∧ (i ∉ A → i ∉ B → y = x) := by
  have regs : k.regs = f.regs := same.regs.trans (first.regs.trans start.regs)
  obtain ⟨y, there, inA, offA⟩ := first.inst i x ((start.inst i).trans found)
  obtain ⟨z, there', inB, offB⟩ := second.inst i y ((same.inst i).trans there)
  refine ⟨z, there', fun mem off => ?_, fun mem off => ?_, fun off off' => ?_⟩
  · rw [offB off]
    exact (inA mem).congr start.regs
  · rw [← offA off]
    exact (inB mem).congr regs
  · rw [offB off', offA off]

/-- The first arm is guarded as a whole, and the second one up to what both end with. -/
private theorem Trimmed.guards {keep : Bool} {lead midA trailA leadB restB : List InstId}
    (trimmed : Trimmed f st.procedure b p q H lead midA trailA leadB restB exitsB xs ys zsB)
    (sideA : Side d f r p (lead ++ (midA ++ trailA)) exitsA) (sideB : Side d f r q (leadB ++ restB) exitsB)
    (away : ∀ i ∈ leadB ++ restB ++ exitsB, i ∉ midA)
    (h : Yields (guardArms d.target b p q (st.procedure.blockAt p).code.length ys.length c c' keep valued)
      st u st') :
    ∃ mid midB trail, restB = midB ++ trail ∧ f.liveOf trail = ys ∧
      Spliced d f mid.procedure b p q c c' H lead midA trailA leadB midB trail ∧
      Yields (do join b p c keep; join b q c' keep) mid u st' := by
  obtain ⟨valued₁, st₁, step, h⟩ := yields_bind.mp h
  have narrowed₁ : Narrowed d c midA st.procedure st₁.procedure := by
    have sub : (st.procedure.blockAt p).code ⊆ lead ++ (midA ++ trailA) ++ exitsA := by
      rw [trimmed.first]
      intro i mem
      simp [mem]
    have narrowed := guardBlock_narrows (sideA.defined sub fun i _ => trimmed.inst i) step
    rwa [trimmed.first] at narrowed
  have lays₁ := trimmed.toLays.congr narrowed₁.blocks
  have same₁ : ∀ i ∈ leadB ++ restB ++ exitsB, st₁.procedure.inst i = f.inst i := by
    intro i mem
    obtain ⟨x, found⟩ := sideB.found i mem
    obtain ⟨y, there, -, kept⟩ := narrowed₁.inst i x ((trimmed.inst i).trans found)
    rw [there, kept (away i mem), found]
  obtain ⟨u₂, st₂, step, h⟩ := yields_bind.mp h
  obtain ⟨n, removed⟩ := cutBranch_ok step
  have ends : st₁.procedure.Ends restB exitsB :=
    sideB.toEnds.mono (List.subset_append_right leadB restB) fun i mem =>
      same₁ i (List.append_assoc leadB restB exitsB ▸ List.mem_append_right leadB mem)
  obtain ⟨block, removed⟩ := ends.removeBranch lays₁.second removed
  have lays₂ : Lays f st₂.procedure b p q (H ++ lead) midA restB := removed ▸ lays₁.setSecond block
  have insts₂ : SameInsts st₁.procedure st₂.procedure :=
    removed ▸ SameInsts.setCode ⟨fun _ => rfl, rfl⟩ q restB
  have regs₂ : st₂.procedure.regs = f.regs := insts₂.regs.trans (narrowed₁.regs.trans trimmed.regs)
  have same₂ : ∀ i ∈ restB, st₂.procedure.inst i = f.inst i := fun i mem =>
    (insts₂.inst i).trans (same₁ i (by simp [mem]))
  obtain ⟨stop, mid, step, h⟩ := yields_bind.mp h
  obtain ⟨stops, rfl⟩ := yields_query.mp step
  obtain ⟨code, asked, stops⟩ := bind_ok_iff.mp stops
  obtain ⟨-, rfl⟩ := code_ok.mp asked
  rw [lays₂.second] at stops
  obtain ⟨midB, trail, rfl, rfl, -, trail'⟩ :=
    trailing_split ((liveOf_congr same₂).trans trimmed.rest') stops
  rw [liveOf_congr fun i mem => same₂ i (List.mem_append_right midB mem)] at trail'
  obtain ⟨valued₃, st₃, step, h⟩ := yields_bind.mp h
  have narrowed₃ : Narrowed d c' midB st₂.procedure st₃.procedure := by
    have sub : (st₂.procedure.blockAt q).code ⊆ leadB ++ (midB ++ trail) ++ exitsB := by
      rw [lays₂.second]
      exact fun i mem => List.mem_append_left exitsB (List.mem_append_right leadB mem)
    have narrowed := guardBlock_upTo (sideB.defined sub fun i mem => same₂ i (lays₂.second ▸ mem)) step
    rwa [lays₂.second, Int.toNat_natCast, List.take_left] at narrowed
  refine ⟨st₃, midB, trail, rfl, trail', ⟨lays₂.congr narrowed₃.blocks, trimmed.front,
    trimmed.lead'.trans trimmed.lead.symm, trimmed.trail.trans trail'.symm, narrowed₃.regs.trans regs₂,
    narrows_twice trimmed.toSameInsts narrowed₁ insts₂ narrowed₃, fun i y found => ?_⟩, h⟩
  obtain ⟨z, there⟩ := narrowed₃.old i y found
  rw [insts₂.inst] at there
  obtain ⟨x, there⟩ := narrowed₁.old i z there
  exact ⟨x, (trimmed.inst i).symm.trans there⟩

theorem moveArms_spliced {keep : Bool} (firstNe : p ≠ b) (secondNe : q ≠ b) (apart : p ≠ q)
    (sideA : Side d st.procedure r p bodyA exitsA) (sideB : Side d st.procedure r q bodyB exitsB)
    (single : (bodyA ++ exitsA ++ (bodyB ++ exitsB)).Nodup)
    (liveA : st.procedure.liveOf bodyA = xs ++ (zsA ++ ys))
    (liveB : st.procedure.liveOf bodyB = xs ++ (zsB ++ ys))
    (h : Yields (moveArms d.target b p q c c' xs.length ys.length keep) st u st') :
    ∃ mid H lead midA trailA leadB midB trail, bodyA = lead ++ (midA ++ trailA) ∧
      bodyB = leadB ++ (midB ++ trail) ∧ (st.procedure.liveOf lead).length = xs.length ∧
      (st.procedure.liveOf trail).length = ys.length ∧
      Spliced d st.procedure mid.procedure b p q c c' H lead midA trailA leadB midB trail ∧
      Yields (do join b p c keep; join b q c' keep) mid u st' := by
  obtain ⟨mid, valued, H, lead, midA, trailA, leadB, restB, rfl, rfl, trimmed, h⟩ :=
    moveArms_trims firstNe secondNe apart sideA sideB liveA liveB h
  have away : ∀ i ∈ leadB ++ restB ++ exitsB, i ∉ midA := fun i mem mem' =>
    (List.nodup_append.mp single).2.2 i (by simp [mem']) i mem rfl
  obtain ⟨mid', midB, trail, rfl, trail', spliced, joins⟩ := trimmed.guards sideA sideB away h
  exact ⟨mid', H, lead, midA, trailA, leadB, midB, trail, rfl, rfl, by rw [trimmed.lead], by rw [trail'],
    spliced, joins⟩

end Splicing

end Conversion

end Predication
