import Predication.Proofs.PhiInputs

/-!
The verdict of the check. Where edges lead to blocks of the arena the check always comes to one, and
it is good just for the procedures that are in order, said block by block: each is numbered by its
place, a removed one is empty and unlinked, a live one stands in the layout once, its edges are
distinct, lead from and to live blocks and are known at both ends, and its code speaks of these edges
only, with the phis first.
-/

set_option autoImplicit false
set_option relaxedAutoImplicit false

namespace Predication

private theorem Inst.mem_sources {x : Inst} {p : BlockId} :
    p ∈ x.sources ↔ ∃ k u, x.uses[2 * k + 1]? = some u ∧ u.blockId = p := by
  unfold sources phiInputs
  fun_induction PhiInput.ofUses x.uses with
  | case1 v b rest ih =>
    rw [List.map_cons, List.mem_cons, ih]
    constructor
    · rintro (rfl | ⟨k, u, there, rfl⟩)
      · exact ⟨0, b, rfl, rfl⟩
      · exact ⟨k + 1, u, by simpa [Nat.mul_add] using there, rfl⟩
    · rintro ⟨k, u, there, rfl⟩
      cases k with
      | zero =>
        cases there
        exact .inl rfl
      | succ k => exact .inr ⟨k, u, by simpa [Nat.mul_add] using there, rfl⟩
  | case2 => simp
  | case3 => simp

private theorem Inst.mem_targets {x : Inst} {t : BlockId} :
    t ∈ x.targets ↔ x.op ≠ .phi ∧ Operand.block t ∈ x.uses := by
  have same : ∀ u : Operand, u.block? = some t ↔ u = .block t := by
    intro u
    cases u <;> simp [Operand.block?]
  unfold targets
  split
  · rename_i phi
    simp [phi]
  · rename_i other
    rw [List.mem_filterMap]
    simp only [same, exists_eq_right]
    exact (and_iff_right fun phi => other phi).symm

namespace Procedure

namespace Check

/-- The check comes to an answer. -/
def Answers (c : Check) : Prop := ∃ r, c = (.ok r : Except Fault (Except Defect Unit))

private theorem answers_pure : Answers (pure ()) := ⟨_, rfl⟩

private theorem answers_bind {c d : Check} (hc : Answers c) (hd : Answers d) : Answers (do c; d) := by
  obtain ⟨e | u, rfl⟩ := hc
  · exact ⟨.error e, rfl⟩
  · exact hd

private theorem answers_require {holds : Bool} {d : Defect} : Answers (require holds d) := by
  cases holds with
  | true => exact ⟨_, rfl⟩
  | false => exact ⟨.error d, rfl⟩

private theorem answers_forM {α : Type} {g : α → Check} {l : List α} (h : ∀ x ∈ l, Answers (g x)) :
    Answers (l.forM g) := by
  induction l with
  | nil => exact answers_pure
  | cons a l ih =>
    obtain ⟨first, rest⟩ := List.forall_mem_cons.mp h
    exact answers_bind first (ih rest)

private theorem answers_query {α : Type} {x : Except Fault α} {k : α → Check} {a : α} (run : x = .ok a)
    (h : Answers (k a)) : Answers (liftM x >>= k) := by
  rw [run]
  exact h

end Check

open Check

variable {f : Procedure}

private theorem answers_checkSuccs (blk : Block) (earlier rest : List BlockId)
    (found : ∀ s ∈ rest, Arena.Has f.blocks s) : Answers (f.checkSuccs blk earlier rest) := by
  induction rest generalizing earlier with
  | nil => exact answers_pure
  | cons s rest ih =>
    obtain ⟨here, later⟩ := List.forall_mem_cons.mp found
    obtain ⟨succ, there⟩ := Arena.get_range.mpr here
    rw [checkSuccs]
    refine answers_bind answers_require (answers_query there ?_)
    exact answers_bind answers_require (answers_bind answers_require (ih _ later))

private theorem answers_checkPreds (blk : Block) (earlier rest : List BlockId)
    (found : ∀ p ∈ rest, Arena.Has f.blocks p) : Answers (f.checkPreds blk earlier rest) := by
  induction rest generalizing earlier with
  | nil => exact answers_pure
  | cons p rest ih =>
    obtain ⟨here, later⟩ := List.forall_mem_cons.mp found
    obtain ⟨pred, there⟩ := Arena.get_range.mpr here
    rw [checkPreds]
    refine answers_bind answers_require (answers_query there ?_)
    exact answers_bind answers_require (ih _ later)

private theorem answers_checkCode (blk : Block) (index : Nat) (phisOnly : Bool) (code : List InstId) :
    Answers (f.checkCode blk index phisOnly code) := by
  induction code generalizing index phisOnly with
  | nil => exact answers_pure
  | cons i rest ih =>
    rw [checkCode]
    split
    · exact ⟨.error _, rfl⟩
    · split
      · refine answers_bind answers_require (answers_bind answers_require (answers_bind ?_ (ih _ _)))
        exact answers_forM fun _ _ => answers_require
      · exact answers_bind (answers_forM fun _ _ => answers_require) (ih _ _)

theorem answers_verify (edges : ∀ blk ∈ f.blocks, ∀ s ∈ blk.succs ++ blk.preds, Arena.Has f.blocks s) :
    ∃ r, f.verify = .ok r := by
  have blocks : ∀ (index : Nat) (l : List Block), (∀ blk ∈ l, blk ∈ f.blocks) →
      Answers (f.checkBlocks index l) := by
    intro index l sub
    induction l generalizing index with
    | nil => exact answers_pure
    | cons blk l ih =>
      obtain ⟨here, later⟩ := List.forall_mem_cons.mp sub
      have ends := List.forall_mem_append.mp (edges blk here)
      refine answers_bind (answers_bind answers_require ?_) (ih _ later)
      split
      · exact answers_require
      · exact answers_bind answers_require (answers_bind (answers_checkSuccs blk [] _ ends.1)
          (answers_bind (answers_checkPreds blk [] _ ends.2) (answers_checkCode blk 0 true _)))
  exact answers_bind (answers_forM fun _ _ => answers_require)
    (blocks 0 f.blocks.toList fun blk mem => Array.mem_toList_iff.mp mem)

/-- The edges of all blocks lead to and from entries of the arena. -/
def EdgesInside (f : Procedure) : Prop :=
  ∀ blk ∈ f.blocks, ∀ c ∈ blk.succs ++ blk.preds, Arena.Has f.blocks c

def Live (f : Procedure) (b : BlockId) : Prop := ∃ blk, f.block b = .ok blk ∧ blk.dead = false

/-- A procedure that is in order. -/
structure Proper (f : Procedure) : Prop where
  layout : ∀ b ∈ f.layout, Arena.Has f.blocks b
  numbered : ∀ b blk, f.block b = .ok blk → blk.id = b
  removed : ∀ b blk, f.block b = .ok blk → blk.dead = true →
    blk.code = [] ∧ blk.succs = [] ∧ blk.preds = [] ∧ b ∉ f.layout
  placed : ∀ b blk, f.block b = .ok blk → blk.dead = false → f.layout.count b = 1
  distinct : ∀ b blk, f.block b = .ok blk → blk.dead = false → blk.succs.Nodup ∧ blk.preds.Nodup
  living : ∀ b blk, f.block b = .ok blk → blk.dead = false →
    (∀ s ∈ blk.succs, f.Live s) ∧ ∀ p ∈ blk.preds, f.Live p
  converse : ∀ b c x y, f.block b = .ok x → f.block c = .ok y → x.dead = false → y.dead = false →
    (c ∈ x.succs ↔ b ∈ y.preds)
  code : ∀ b blk, f.block b = .ok blk → ∀ i ∈ blk.code, Arena.Has f.insts i
  targets : ∀ b blk, f.block b = .ok blk → ∀ i ∈ blk.code, ∀ x, f.inst i = .ok x → x.op ≠ .phi →
    ∀ t, Operand.block t ∈ x.uses → t ∈ blk.succs
  phisFirst : ∀ b blk, f.block b = .ok blk → blk.code.Pairwise fun i j =>
    ∀ x y, f.inst i = .ok x → f.inst j = .ok y → y.op = .phi → x.op = .phi
  phisEven : ∀ b blk, f.block b = .ok blk → ∀ i ∈ blk.code, ∀ x, f.inst i = .ok x → x.op = .phi →
    x.uses.length % 2 = 0
  phiSources : ∀ b blk, f.block b = .ok blk → ∀ i ∈ blk.code, ∀ x, f.inst i = .ok x → x.op = .phi →
    ∀ k u, x.uses[2 * k + 1]? = some u → u.blockId ∈ blk.preds

section Proper

variable {b c : BlockId} {blk : Block}

private theorem live_iff_dead : f.Live b ↔ (f.blockAt b).dead = false := by
  constructor
  · rintro ⟨blk, found, live⟩
    rwa [blockAt_eq found]
  · exact fun live => ⟨_, block_of_live live, live⟩

private theorem pairwise_instsAt (found : f.block b = .ok blk) :
    (f.instsAt b).Pairwise Inst.PhiOrder ↔ blk.code.Pairwise fun i j =>
      ∀ x y, f.inst i = .ok x → f.inst j = .ok y → y.op = .phi → x.op = .phi := by
  rw [instsAt, blockAt_eq found, List.pairwise_filterMap]
  simp only [inst?_eq_some]
  constructor
  · exact fun h => h.imp fun order x y atI atJ => order x atI y atJ
  · exact fun h => h.imp fun order x atI y atJ => order x y atI atJ

private theorem Proper.blockSound (h : f.Proper) (found : f.block b = .ok blk) : f.BlockSound b := by
  have here := blockAt_eq found
  have insts : ∀ x, x ∈ f.instsAt b ↔ ∃ i ∈ blk.code, f.inst i = .ok x := fun x => by
    rw [mem_instsAt, here]
  have linked : ∀ {l : List BlockId}, l = blk.succs ∨ l = blk.preds → l ≠ [] → blk.dead = false := by
    intro l which some'
    by_contra dead
    obtain ⟨-, succs, preds, -⟩ := h.removed b blk found (by simpa using dead)
    rcases which with rfl | rfl
    · exact some' succs
    · exact some' preds
  constructor
  case numbered => rw [here]; exact h.numbered b blk found
  case removed =>
    rw [here]
    intro dead
    obtain ⟨code, succs, preds, unlaid⟩ := h.removed b blk found dead
    exact ⟨unlaid, succs, preds, code⟩
  case placed => rw [here]; exact h.placed b blk found
  case succs =>
    rw [here]
    by_cases none : blk.succs = []
    · rw [none]; exact List.nodup_nil
    · exact (h.distinct b blk found (linked (.inl rfl) none)).1
  case preds =>
    rw [here]
    by_cases none : blk.preds = []
    · rw [none]; exact List.nodup_nil
    · exact (h.distinct b blk found (linked (.inr rfl) none)).2
  case answered =>
    rw [here]
    intro s mem
    have live := linked (.inl rfl) (List.ne_nil_of_mem mem)
    obtain ⟨y, there, liveS⟩ := (h.living b blk found live).1 s mem
    rw [blockAt_eq there]
    exact ⟨liveS, (h.converse b s blk y found there live liveS).mp mem⟩
  case entered =>
    rw [here]
    intro p mem
    have live := linked (.inr rfl) (List.ne_nil_of_mem mem)
    obtain ⟨y, there, liveP⟩ := (h.living b blk found live).2 p mem
    rw [blockAt_eq there]
    exact (h.converse p b y blk there found liveP live).mpr mem
  case found => rw [here]; exact fun i mem => Arena.get_range.mpr (h.code b blk found i mem)
  case phis =>
    rw [here]
    intro x mem phi
    obtain ⟨i, inCode, inst⟩ := (insts x).mp mem
    refine ⟨h.phisEven b blk found i inCode x inst phi, fun p source => ?_⟩
    obtain ⟨k, u, there, rfl⟩ := Inst.mem_sources.mp source
    exact h.phiSources b blk found i inCode x inst phi k u there
  case phisFirst => exact (pairwise_instsAt found).mpr (h.phisFirst b blk found)
  case targets =>
    rw [here]
    intro x mem t target
    obtain ⟨i, inCode, inst⟩ := (insts x).mp mem
    obtain ⟨plain, operand⟩ := Inst.mem_targets.mp target
    exact h.targets b blk found i inCode x inst plain t operand

/-- A procedure whose blocks pass their checks is in order. That predecessors are live is not checked
where they are listed: a removed block has no successors, so it cannot answer. -/
private theorem proper_of_blockSound (layout : ∀ b ∈ f.layout, Arena.Has f.blocks b)
    (sound : ∀ b blk, f.block b = .ok blk → f.BlockSound b) : f.Proper := by
  have at' : ∀ {b blk}, f.block b = .ok blk → f.BlockSound b ∧ f.blockAt b = blk :=
    fun found => ⟨sound _ _ found, blockAt_eq found⟩
  have insts : ∀ {b blk i x}, f.block b = .ok blk → i ∈ blk.code → f.inst i = .ok x →
      x ∈ f.instsAt b := by
    intro b blk i x found mem inst
    rw [mem_instsAt, blockAt_eq found]
    exact ⟨i, mem, inst⟩
  constructor
  case layout => exact layout
  case numbered =>
    intro b blk found
    obtain ⟨h, rfl⟩ := at' found
    exact h.numbered
  case removed =>
    intro b blk found dead
    obtain ⟨h, rfl⟩ := at' found
    obtain ⟨unlaid, succs, preds, code⟩ := h.removed dead
    exact ⟨code, succs, preds, unlaid⟩
  case placed =>
    intro b blk found
    obtain ⟨h, rfl⟩ := at' found
    exact h.placed
  case distinct =>
    intro b blk found _
    obtain ⟨h, rfl⟩ := at' found
    exact ⟨h.succs, h.preds⟩
  case living =>
    intro b blk found _
    obtain ⟨h, rfl⟩ := at' found
    refine ⟨fun s mem => live_iff_dead.mpr (h.answered s mem).1, fun p mem => ?_⟩
    have answer := h.entered p mem
    have there := block_of_succ answer
    refine ⟨_, there, ?_⟩
    by_contra dead
    rw [((sound p _ there).removed (by simpa using dead)).2.1] at answer
    cases answer
  case converse =>
    intro b c x y atB atC _ _
    obtain ⟨hb, rfl⟩ := at' atB
    obtain ⟨hc, rfl⟩ := at' atC
    exact ⟨fun mem => (hb.answered c mem).2, hc.entered b⟩
  case code =>
    intro b blk found i mem
    obtain ⟨h, rfl⟩ := at' found
    exact Arena.get_range.mp (h.found i mem)
  case targets =>
    intro b blk found i mem x inst plain t operand
    have h := (at' found).1.targets x (insts found mem inst) t (Inst.mem_targets.mpr ⟨plain, operand⟩)
    rwa [blockAt_eq found] at h
  case phisFirst =>
    intro b blk found
    exact (pairwise_instsAt found).mp (at' found).1.phisFirst
  case phisEven =>
    intro b blk found i mem x inst phi
    exact ((at' found).1.phis x (insts found mem inst) phi).1
  case phiSources =>
    intro b blk found i mem x inst phi k u there
    have h := ((at' found).1.phis x (insts found mem inst) phi).2 _ (Inst.mem_sources.mpr ⟨k, u, there, rfl⟩)
    rwa [blockAt_eq found] at h

end Proper

/-- The check of a procedure whose edges stay in the arena comes to a verdict, and it is good just if
the procedure is in order. -/
theorem verify_decides (f : Procedure) (inside : f.EdgesInside) :
    (∃ verdict, f.verify = .ok verdict) ∧ (f.verify = .ok (.ok ()) ↔ f.Proper) := by
  refine ⟨answers_verify inside, ?_⟩
  rw [verify_iff_checks]
  constructor
  · rintro ⟨layout, checks⟩
    exact proper_of_blockSound layout fun b blk found =>
      (checkBlock_sound found).mp (checks b blk found)
  · intro h
    exact ⟨h.layout, fun b blk found => (checkBlock_sound found).mpr (h.blockSound found)⟩

/-- Two ways to a block with a phi, and a block that was removed. -/
def forked : Procedure where
  name := "forked"
  blocks := #[
    { id := 0, name := "entry", code := [0, 1], succs := [1, 3] },
    { id := 1, name := "arm", code := [2], succs := [3], preds := [0] },
    { id := 2, name := "gone", dead := true },
    { id := 3, name := "join", code := [3, 4], preds := [0, 1] }]
  insts := #[.branch [⟨0, false⟩] 1, .jump 3, .jump 3,
    { op := .phi, defs := [1], uses := [.imm 5, .block 0, .reg 0, .block 1] },
    { op := .ret, uses := [.reg 1] }]
  layout := [0, 1, 3]
  regs := #["a", "b"]

/-- In `forked` with an edge from the removed block, the block at its end knows of the edge and the
removed one does not. -/
def dangling : Procedure :=
  { forked with blocks := forked.blocks.modify 3 fun x => { x with preds := [0, 1, 2] } }

theorem verify_decides_forked : (forked.EdgesInside ∧ dangling.EdgesInside) ∧
    forked.Proper ∧ ¬ dangling.Proper := by
  have inside : forked.EdgesInside := by
    unfold EdgesInside Arena.Has
    decide
  have inside' : dangling.EdgesInside := by
    unfold EdgesInside Arena.Has
    decide
  refine ⟨⟨inside, inside'⟩, ?_, fun proper => ?_⟩
  · exact (verify_decides forked inside).2.mp (by decide +kernel)
  · have verified := (verify_decides dangling inside').2.mpr proper
    revert verified
    decide +kernel

end Procedure

end Predication
