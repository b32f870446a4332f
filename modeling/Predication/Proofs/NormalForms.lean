import Predication.Proofs.BitSets
import Predication.Proofs.Dominance
import Predication.Proofs.EdgeEdits
import Predication.Proofs.Standstill

/-!
The normal form of a cleanup. Its rounds end where none of the steps applies, and there every block of
the layout can be reached, no jump leads to the next block, no branch can be led on and no block can
take in its successor. Another cleanup finds nothing to do.
-/

set_option autoImplicit false
set_option relaxedAutoImplicit false

namespace Predication

namespace Procedure

variable {f g : Procedure} {a b c s t : BlockId} {l : List BlockId}

def MeshedOn (l : List BlockId) (f : Procedure) : Prop := f.Meshed ∧ f.layout = l

private theorem MeshedOn.empty (h : MeshedOn l f) (away : c ∉ l) : (f.blockAt c).code = [] := by
  refine (h.1.removed c ?_).2
  rw [← h.2, h.1.laid] at away
  simpa using away

private theorem MeshedOn.live (h : MeshedOn l f) (mem : c ∈ l) : (f.blockAt c).dead = false := by
  rw [← h.1.laid, h.2]
  exact mem

private theorem MeshedOn.preds_laid {preds : List BlockId} (h : MeshedOn l f) (run : f.preds t = .ok preds) :
    ∀ p ∈ preds, p ∈ l := by
  obtain ⟨blk, found, same⟩ := bind_ok_iff.mp run
  cases same
  intro p mem
  rw [← blockAt_eq found, ← h.1.mutual_ends] at mem
  rw [← h.2, h.1.laid]
  exact h.1.live mem

private theorem MeshedOn.recode (h : MeshedOn l f) (same : SameLinks f g)
    (empty : ∀ c, c ∉ l → (g.blockAt c).code = []) : MeshedOn l g := by
  refine ⟨h.1.recode same fun c dead => empty c fun mem => ?_, same.layout.trans h.2⟩
  rw [h.live mem] at dead
  cases dead

private theorem MeshedOn.uncoded (h : MeshedOn l f) (same : SameLinks f g)
    (code : ∀ c, (g.blockAt c).code = (f.blockAt c).code) : MeshedOn l g :=
  h.recode same fun c away => (code c).trans (h.empty away)

private theorem MeshedOn.of_blocks (h : MeshedOn l f) (blocks : g.blocks = f.blocks)
    (layout : g.layout = f.layout) : MeshedOn l g :=
  h.uncoded (sameLinks_of_blocks blocks layout) fun c => by rw [blockAt_congr blocks]

private theorem meshedOn_updateCode {u : Block → Block} (h : MeshedOn l f)
    (recodes : ∀ x, u x = { x with code := (u x).code }) (mem : b ∈ l) :
    Holds (MeshedOn l) (f.updateBlock b u) := by
  intro g run
  refine h.recode (sameLinks_updateBlock run recodes) fun c away => ?_
  obtain ⟨found, rfl⟩ := updateBlock_ok run
  rw [blockAt_mapBlock found]
  split
  · rename_i here
    exact absurd (here ▸ mem) away
  · exact h.empty away

private theorem meshedOn_addSucc (h : MeshedOn l f) (mem : b ∈ l) : Holds (MeshedOn l) (f.addSucc b s) :=
  fun _ run => ⟨h.1.addSucc run (h.live mem), (addSucc_view run).1.layout.trans h.2⟩

private theorem meshedOn_removeSucc (h : MeshedOn l f) : Holds (MeshedOn l) (f.removeSucc b s) :=
  fun _ run => ⟨h.1.removeSucc run, (removeSucc_view run h.1.paired).1.layout.trans h.2⟩

private theorem meshedOn_eraseCode (h : MeshedOn l f) (i j : Int) :
    Holds (MeshedOn l) (f.eraseCode b i j) := by
  intro g run
  refine h.recode (sameLinks_eraseCode run) fun c away => ?_
  obtain ⟨found, -, -, rfl⟩ := eraseCode_ok run
  rw [code_setCode found]
  split
  · rename_i here
    rw [← here, h.empty away]
    simp
  · exact h.empty away

private theorem meshedOn_replaceReg (h : MeshedOn l f) (d r : Reg) : MeshedOn l (f.replaceReg d r) :=
  h.uncoded (sameLinks_replaceReg f d r) fun c => by rw [blockAt_replaceReg]

end Procedure

namespace Cleanup

open Procedure

variable {f g : Procedure} {b c p s t x : BlockId} {l : List BlockId}

private theorem lasting_meshedOn : Lasting (fun l b => b ∈ l) MeshedOn where
  blocks h blocks layout := h.of_blocks blocks layout
  updateCode h on recodes := meshedOn_updateCode h recodes on
  eraseCode h _ i j := meshedOn_eraseCode h i j
  addSucc h on _ := meshedOn_addSucc h on
  removeSucc h _ _ := meshedOn_removeSucc h
  replaceReg := meshedOn_replaceReg
  removeBlock {l f} h s g run := by
    obtain ⟨meshed, without⟩ := removeBlock_view h.1 run
    refine ⟨l.erase s, ⟨meshed, without.layout.trans (by rw [h.2])⟩, fun b other mem => ?_⟩
    exact (List.mem_erase_of_ne other).mpr mem
  laid h mem := h.2 ▸ mem
  preds h run := h.preds_laid run
  phis {l f s ids} h run := by
    by_cases mem : s ∈ l
    · exact .inr mem
    · obtain ⟨-, leading⟩ := phis_ok run
      rw [h.empty mem] at leading
      cases leading
      exact .inl rfl

private theorem meshed_roundsFrom (fuel number : Nat) (changed : Bool) (h : f.Meshed) :
    Traced.Holds (fun r => r.1.Meshed) (roundsFrom fuel number (f, changed)) := by
  intro log r log' ran
  obtain ⟨l, meshed, -⟩ := lasting_meshedOn.roundsFrom fuel number changed ⟨h, rfl⟩ log r log' ran
  exact meshed

end Cleanup

private theorem Holds.foldlM_mem {α β : Type} {Q : β → Prop} {k : β → α → Except Fault β} {l : List α} {x : β}
    (h : ∀ y, ∀ a ∈ l, Q y → Holds Q (k y a)) (start : Q x) : Holds Q (l.foldlM k x) := by
  induction l generalizing x with
  | nil => exact .of_ok start
  | cons a l ih =>
    obtain ⟨here, rest⟩ : (∀ y, Q y → Holds Q (k y a)) ∧ ∀ y, ∀ a ∈ l, Q y → Holds Q (k y a) :=
      ⟨fun y => h y a List.mem_cons_self, fun y b mem => h y b (List.mem_cons_of_mem a mem)⟩
    exact (here x start).bind fun y hy => ih rest hy

namespace Cleanup

open Procedure Predication.Flow

variable {f : Procedure} {b p s t x entry : BlockId}

private theorem reach_reaches (fuel : Nat) {stack : List BlockId} {seen : BitSet}
    (waiting : ∀ c ∈ stack, Reaches f.HasEdge entry c)
    (known : ∀ c, seen.contains c = true → Reaches f.HasEdge entry c) :
    Holds (fun r => ∀ c, r.contains c = true → Reaches f.HasEdge entry c)
      (reach f fuel stack seen) := by
  induction fuel generalizing stack seen with
  | zero =>
    cases stack with
    | nil => exact .of_ok known
    | cons b stack => exact .error _
  | succ fuel ih =>
    cases stack with
    | nil => exact .of_ok known
    | cons b stack =>
      obtain ⟨here, waiting⟩ := List.forall_mem_cons.mp waiting
      rw [reach]
      refine .bind (P := fun l => f.succs b = .ok l) (fun _ => id) fun succs found => ?_
      obtain ⟨blk, there, same⟩ := bind_ok_iff.mp found
      cases same
      refine .bind (P := fun r : BitSet × List BlockId =>
        (∀ c, r.1.contains c = true → Reaches f.HasEdge entry c) ∧
          ∀ c ∈ r.2, Reaches f.HasEdge entry c) ?_ fun r h => ih h.2 h.1
      refine Holds.foldlM_mem (fun r t edge h => ?_) ⟨known, waiting⟩
      have next : Reaches f.HasEdge entry t := by
        refine here.step ?_
        rw [HasEdge, blockAt_eq there]
        exact edge
      refine BitSet.insertNew_mem.bind fun r' mem => .of_ok ⟨fun c hc => ?_, fun c hc => ?_⟩
      · rcases (mem c).mp hc with old | rfl
        · exact h.1 c old
        · exact next
      · split at hc
        · rcases List.mem_cons.mp hc with rfl | old
          · exact next
          · exact h.2 c old
        · exact h.2 c hc

private theorem reaches_of_unreachable (run : unreachable f entry = .ok []) :
    ∀ b ∈ f.layout, Reaches f.HasEdge entry b := by
  obtain ⟨start, first, run⟩ := bind_ok_iff.mp run
  obtain ⟨seen, searched, run⟩ := bind_ok_iff.mp run
  obtain ⟨lost, collected, run⟩ := bind_ok_iff.mp run
  have only : ∀ c, start.contains c = true → Reaches f.HasEdge entry c := by
    intro c mem
    rcases (BitSet.insert_mem start first c).mp mem with none | rfl
    · rw [BitSet.contains_empty] at none
      cases none
    · exact .refl _
  have reached := reach_reaches _ (by simpa using Reaches.refl entry) only seen searched
  have nothing : lost.toList = [] := by simpa using Except.ok.inj run
  -- a block that was not seen is collected, and stays so
  have collects : ∀ (l : List BlockId) (before : BitSet), Holds (fun after : BitSet =>
      (∀ c, before.contains c = true → after.contains c = true) ∧
        ∀ b ∈ l, seen.contains b = true ∨ after.contains b = true)
      (l.foldlM (fun lost b => if seen.contains b then .ok lost else lost.insert b) before) := by
    intro l
    induction l with
    | nil => exact fun before => .of_ok ⟨fun _ => id, fun b none => by cases none⟩
    | cons b l ih =>
      intro before
      rw [List.foldlM_cons]
      split
      · rename_i here
        intro after run
        obtain ⟨more, rest⟩ := ih before after run
        exact ⟨more, List.forall_mem_cons.mpr ⟨.inl here, rest⟩⟩
      · refine BitSet.insert_mem.bind fun mid mem => ?_
        intro after run
        obtain ⟨more, rest⟩ := ih mid after run
        refine ⟨fun c hc => more c ((mem c).mpr (.inl hc)), List.forall_mem_cons.mpr ⟨.inr ?_, rest⟩⟩
        exact more b ((mem b).mpr (.inr rfl))
  intro b mem
  rcases (collects f.layout .empty lost collected).2 b mem with here | away
  · exact reached b here
  · rw [BitSet.contains_of_toList_eq_nil nothing] at away
    cases away

def Markers (f : Procedure) (code : List InstId) : Prop :=
  ∀ i ∈ code, ∃ y, f.inst i = .ok y ∧ y.op.isDebug = true

def EndsIn (f : Procedure) (b : BlockId) (y : Inst) : Prop :=
  ∃ before i after, (f.blockAt b).code = before ++ i :: after ∧ f.inst i = .ok y ∧
    y.op.isDebug = false ∧ Markers f after

/-- An unguarded jump to `t`. -/
structure Jumps (y : Inst) (t : BlockId) : Prop where
  op : y.op = .br
  guard : y.guard = []
  target : y.uses.head?.map Operand.blockId = some t

def OnlyJumps (f : Procedure) (b t : BlockId) : Prop :=
  ∃ before i after y, (f.blockAt b).code = before ++ i :: after ∧ f.inst i = .ok y ∧ Jumps y t ∧
    Markers f before ∧ Markers f after

def MayFall (f : Procedure) (p t : BlockId) : Prop :=
  f.next? p = some t ∧ ∀ y, EndsIn f p y → y.endsFlow = false

def Disagree (f : Procedure) (x a b : BlockId) : Prop :=
  ∃ ids, f.phis x = .ok ids ∧ ∃ i ∈ ids, ∃ y v w, f.inst i = .ok y ∧ y.phiValue? a = some v ∧
    y.phiValue? b = some w ∧ v ≠ w

/-- Control flow with nothing to clean up. -/
structure Tidy (f : Procedure) : Prop where
  /-- Control can reach every block of the layout. -/
  reached : ∀ b ∈ f.layout, ∃ entry, f.entry? = some entry ∧ Reaches f.HasEdge entry b
  /-- No block ends in a jump to the next one. -/
  busy : ∀ b y n, EndsIn f b y → Jumps y n → f.next? b ≠ some n
  /-- A block that only jumps is entered by running into it, or by blocks that must be told from
  it. -/
  direct : ∀ t x, f.isEntry t = false → OnlyJumps f t x → x ≠ -1 → x ≠ t →
    ∀ p ∈ (f.blockAt t).preds, p ≠ t → MayFall f p t ∨ Disagree f x t p
  /-- No block runs straight into a successor that it alone leads to. -/
  whole : ∀ b s, (f.blockAt b).succs = [s] → s ≠ b → f.isEntry s = false →
    (f.blockAt s).preds = [b] → ∀ how, straightTo? f b s ≠ .ok (some how)

private theorem Jumps.isJump {y : Inst} (h : Jumps y t) : isJump y = true := by
  simp [Cleanup.isJump, h.op, Inst.isGuarded, h.guard]

private theorem Jumps.firstTarget {y : Inst} (h : Jumps y t) : firstTarget y = .ok t := by
  have target := h.target
  unfold Cleanup.firstTarget
  cases uses : y.uses with
  | nil =>
    rw [uses] at target
    cases target
  | cons u rest =>
    rw [uses] at target
    exact congrArg Except.ok (Option.some.inj target)

private theorem Jumps.real {y : Inst} (h : Jumps y t) : y.op.isDebug = false := by
  rw [h.op]
  rfl

private theorem lastOfReversed?_markers {code rest : List InstId} (markers : Markers f code) :
    lastOfReversed? f (code ++ rest) = lastOfReversed? f rest := by
  induction code with
  | nil => rfl
  | cons i code ih =>
    obtain ⟨⟨y, found, debug⟩, more⟩ := List.forall_mem_cons.mp markers
    rw [List.cons_append, lastOfReversed?, found]
    show (if y.op.isDebug = true then _ else _) = _
    rw [if_pos debug]
    exact ih more

private theorem EndsIn.last? {y : Inst} (h : EndsIn f b y) :
    ∃ n, last? f (f.blockAt b).code = .ok (some (n, y)) := by
  obtain ⟨before, i, after, code, found, real, markers⟩ := h
  refine ⟨before.reverse.length, ?_⟩
  unfold Cleanup.last?
  rw [code, List.reverse_append, List.reverse_cons, List.append_assoc,
    lastOfReversed?_markers fun j hj => markers j (List.mem_reverse.mp hj), List.singleton_append,
    lastOfReversed?, found]
  show (if y.op.isDebug = true then _ else _) = _
  rw [if_neg (by simp [real])]
  rfl

private theorem onlyJumpFrom?_markers {found : Option BlockId} {code rest : List InstId}
    (markers : Markers f code) :
    onlyJumpFrom? f found (code ++ rest) = onlyJumpFrom? f found rest := by
  induction code with
  | nil => rfl
  | cons i code ih =>
    obtain ⟨⟨y, here, debug⟩, more⟩ := List.forall_mem_cons.mp markers
    rw [List.cons_append, onlyJumpFrom?, here]
    show (if y.op.isDebug = true then _ else _) = _
    rw [if_pos debug]
    exact ih more

private theorem OnlyJumps.onlyJump? (known : f.block t = .ok (f.blockAt t)) (h : OnlyJumps f t x)
    (named : x ≠ -1) : onlyJump? f t = .ok (some x) := by
  obtain ⟨before, i, after, y, code, found, jumps, front, back⟩ := h
  unfold Cleanup.onlyJump?
  rw [code_ok.mpr ⟨known, rfl⟩]
  show onlyJumpFrom? f none (f.blockAt t).code = _
  have step : onlyJumpFrom? f none (i :: after) = onlyJumpFrom? f (BlockId.named? x) after := by
    rw [onlyJumpFrom?, found]
    show (if y.op.isDebug = true then _ else _) = _
    rw [if_neg (by simp [jumps.real]), if_neg (by simp [jumps.isJump]), jumps.firstTarget]
    rfl
  have rest : onlyJumpFrom? f (some x) (after ++ []) = onlyJumpFrom? f (some x) [] :=
    onlyJumpFrom?_markers back
  rw [List.append_nil] at rest
  rw [code, onlyJumpFrom?_markers front, step, BlockId.named?, if_neg named, rest]
  rfl

private theorem mayFall_of_fallsInto (run : fallsInto f p t = .ok true) : MayFall f p t := by
  unfold fallsInto at run
  split at run
  · rename_i next
    refine ⟨next, fun y ends => ?_⟩
    obtain ⟨n, last⟩ := ends.last?
    obtain ⟨code, asked, run⟩ := bind_ok_iff.mp run
    obtain ⟨-, rfl⟩ := code_ok.mp asked
    rw [last] at run
    simpa using Except.ok.inj run
  · cases run

private theorem exists_of_allM_false {α : Type} {k : α → Except Fault Bool} {l : List α}
    (run : l.allM k = .ok false) : ∃ a ∈ l, k a = .ok false := by
  induction l with
  | nil => cases run
  | cons a l ih =>
    rw [List.allM] at run
    obtain ⟨here, first, rest⟩ := bind_ok_iff.mp run
    cases here with
    | false => exact ⟨a, List.mem_cons_self, first⟩
    | true =>
      obtain ⟨c, mem, no⟩ := ih rest
      exact ⟨c, List.mem_cons_of_mem a mem, no⟩

private theorem disagree_of_phisAgree (run : phisAgree f x t p = .ok false) : Disagree f x t p := by
  obtain ⟨ids, asked, run⟩ := bind_ok_iff.mp run
  obtain ⟨i, mem, run⟩ := exists_of_allM_false run
  obtain ⟨y, found, run⟩ := bind_ok_iff.mp run
  split at run
  · rename_i v w value value'
    exact ⟨ids, asked, i, mem, y, v, w, found, value, value', by simpa using Except.ok.inj run⟩
  · cases run

private theorem canRedirect_false (run : canRedirect f p t x = .ok false) (other : p ≠ t) :
    MayFall f p t ∨ Disagree f x t p := by
  unfold canRedirect at run
  rw [if_neg other] at run
  obtain ⟨into, asked, run⟩ := bind_ok_iff.mp run
  cases into with
  | true => exact .inl (mayFall_of_fallsInto asked)
  | false => exact .inr (disagree_of_phisAgree run)

private theorem idleJump?_none {y : Inst} {n : BlockId} (run : idleJump? f b = .ok none) (ends : EndsIn f b y)
    (jumps : Jumps y n) : f.next? b ≠ some n := by
  intro next
  obtain ⟨position, last⟩ := ends.last?
  obtain ⟨code, asked, run⟩ := bind_ok_iff.mp run
  obtain ⟨-, rfl⟩ := code_ok.mp asked
  rw [last] at run
  change (if isJump y = true then _ else _) = _ at run
  rw [if_pos jumps.isJump, jumps.firstTarget] at run
  change (pure (if BlockId.named? n = f.next? b then some position else none) :
    Except Fault _) = _ at run
  have named : n ≠ -1 := (next?_eq_some.mp next).2
  rw [next, BlockId.named?, if_neg named, if_pos rfl] at run
  cases run

private theorem absorbable?_none (run : absorbable? f.isEntry f b = .ok none)
    (succs : (f.blockAt b).succs = [s]) (other : s ≠ b) (inner : f.isEntry s = false)
    (preds : (f.blockAt s).preds = [b]) (how : Straight) : straightTo? f b s ≠ .ok (some how) := by
  intro straight
  have known : f.preds s = .ok [b] := by
    unfold Procedure.preds
    rw [known_of_pred (b := s) (c := b) (by simp [preds]), ← preds]
    rfl
  obtain ⟨blk, found, run⟩ := bind_ok_iff.mp run
  rw [blockAt_eq found] at succs
  simp only [succs, other, inner, known, straight, bind, Except.bind, decide_false, Bool.or_false,
    Bool.false_eq_true, if_false, List.length_singleton, ne_eq, not_true_eq_false, Option.map_some,
    pure, Except.pure, Except.ok.injEq, reduceCtorEq] at run

private theorem entry?_of_mem (meshed : f.Meshed) (mem : b ∈ f.layout) : ∃ entry, f.entry? = some entry := by
  obtain ⟨entry, others, laid⟩ := List.exists_cons_of_ne_nil (List.ne_nil_of_mem mem)
  refine ⟨entry, ?_⟩
  have live : (f.blockAt entry).dead = false := (meshed.laid entry).mp (by simp [laid])
  have named : entry ≠ -1 := by
    rintro rfl
    cases live
  rw [Procedure.entry?, laid]
  show BlockId.named? entry = some entry
  rw [BlockId.named?, if_neg named]

private theorem laid_of_code {i : InstId} (meshed : f.Meshed) (mem : i ∈ (f.blockAt b).code) :
    b ∈ f.layout := by
  rw [meshed.laid]
  by_contra dead
  rw [(meshed.removed b (by simpa using dead)).2] at mem
  cases mem

private theorem AtRest.tidy (rest : AtRest f) (meshed : f.Meshed) : Tidy f where
  reached b mem := by
    obtain ⟨entry, first⟩ := entry?_of_mem meshed mem
    exact ⟨entry, first, reaches_of_unreachable (rest.reached entry first) b mem⟩
  busy b y n ends jumps := by
    have laid : b ∈ f.layout := by
      obtain ⟨before, i, after, code, -⟩ := ends
      exact laid_of_code meshed (i := i) (by simp [code])
    exact idleJump?_none (rest.dropped b laid) ends jumps
  direct t x inner only named other p mem away := by
    have laid : t ∈ f.layout := by
      obtain ⟨before, i, after, y, code, -⟩ := only
      exact laid_of_code meshed (i := i) (by simp [code])
    obtain ⟨target, asked, stuck⟩ := rest.barred t laid inner
    rw [only.onlyJump? (block_of_live ((meshed.laid t).mp laid)) named] at asked
    cases asked
    obtain ⟨preds, entered, stuck⟩ := stuck x rfl other
    obtain ⟨blk, found, same⟩ := bind_ok_iff.mp entered
    cases same
    rw [blockAt_eq found] at mem
    exact canRedirect_false (stuck p mem) away
  whole b s succs other inner preds := by
    have laid : b ∈ f.layout := (meshed.laid b).mpr (meshed.live (s := s) (by simp [succs]))
    exact absorbable?_none (rest.merged b laid) succs other inner preds

/-- A cleanup of a proper graph that comes to an end, after however many rounds, leaves control flow
tidy, and another cleanup then reports no change and leaves all as it is. -/
theorem tidy_of_roundsFrom {fuel : Nat} {g : Procedure} {changed : Bool} {log log' : Array Event}
    (verified : f.verify = .ok (.ok ()))
    (run : (roundsFrom fuel 0 (f, false)).run log = (.ok (g, changed), log')) :
    Tidy g ∧ Traced.Returns (Cleanup.run g) (· = (g, false)) := by
  have meshed := (verify_iff.mp verified).toLinked.meshed
  obtain ⟨rest, -⟩ := roundsFrom_silent fuel 0 false log _ log' run
  exact ⟨rest.tidy (meshed_roundsFrom fuel 0 false meshed log _ log' run), rest.run_returns⟩

/-- A fork whose arms only jump to a join that tells them apart, and a block that nothing leads
to. -/
def detour : Procedure where
  name := "detour"
  blocks := #[
    { id := 0, name := "entry", code := [0, 1], succs := [1, 2] },
    { id := 1, name := "left", code := [2], succs := [3], preds := [0] },
    { id := 2, name := "right", code := [3], succs := [3], preds := [0] },
    { id := 3, name := "join", code := [4, 5], succs := [4], preds := [1, 2] },
    { id := 4, name := "end", code := [6], preds := [3, 5] },
    { id := 5, name := "aside", code := [7], succs := [4] }]
  insts := #[.branch [⟨2, false⟩] 1, .jump 2, .jump 3, .jump 3,
    { op := .phi, defs := [3], uses := [.reg 0, .block 1, .reg 1, .block 2] }, .jump 4,
    { op := .ret, uses := [.reg 3] }, .jump 4]
  layout := [0, 3, 4, 1, 2, 5]

/-- One of the arms is left out. The other one stays, since the join tells it from the entry. -/
def shortcut : Procedure where
  name := "detour"
  blocks := #[
    { id := 0, name := "entry", code := [0, 1], succs := [2, 3] },
    { id := 1, name := "left", dead := true },
    { id := 2, name := "right", code := [3], succs := [3], preds := [0] },
    { id := 3, name := "join", code := [4, 6], preds := [2, 0] },
    { id := 4, name := "end", dead := true },
    { id := 5, name := "aside", dead := true }]
  insts := #[.branch [⟨2, false⟩] 3, .jump 2, .jump 3, .jump 3,
    { op := .phi, defs := [3], uses := [.reg 1, .block 2, .reg 0, .block 0] }, .jump 4,
    { op := .ret, uses := [.reg 3] }, .jump 4]
  layout := [0, 3, 2]

theorem tidy_shortcut : detour.verify = .ok (.ok ()) ∧
    (roundsFrom 3 0 (detour, false)).events = (.ok (shortcut, true),
      #[.removed "aside", .tunnelled "entry" "left" "join", .merged "join" "end", .round 0 true,
        .removed "left", .round 1 true, .round 2 false]) ∧
    Tidy shortcut ∧ Traced.Returns (Cleanup.run shortcut) (· = (shortcut, false)) := by
  have verified : detour.verify = .ok (.ok ()) := by decide +kernel
  have run : (roundsFrom 3 0 (detour, false)).events = (.ok (shortcut, true),
      #[.removed "aside", .tunnelled "entry" "left" "join", .merged "join" "end", .round 0 true,
        .removed "left", .round 1 true, .round 2 false]) := by decide +kernel
  exact ⟨verified, run, tidy_of_roundsFrom verified run⟩

end Cleanup

end Predication
