import Predication.Conversion.Pass
import Predication.Proofs.Yields

/-!
What conversions are made of. A property of steps that holds of the smallest ones and of steps that are
put together holds of all that a conversion does, and what is said of a conversion as a whole follows
from what is said of its end, of the blocks that it treats and of the steps in between.
-/

set_option autoImplicit false
set_option relaxedAutoImplicit false

namespace Predication

/-- The number of blocks that a conversion guards or copies. -/
def Kind.arms : Kind → Nat
  | diamond => 2
  | _ => 1

namespace Conversion

open Predication.Conversion.Convert

/-- A property of steps that look at the state, and of steps that are put together. -/
@[grind cases] structure Composes (P : {α : Type} → Convert α → Prop) : Prop where
  bind : ∀ {α β : Type} {m : Convert α} {k : α → Convert β}, P m → (∀ a, P (k a)) → P (m >>= k)
  pure : ∀ {α : Type} (a : α), P (pure a)
  throw : ∀ {α : Type} (e : Stop), e ≠ .unsettled → P (throw e : Convert α)
  procedure : P procedure
  query : ∀ {α : Type} (g : Procedure → Except Fault α), P (query g)
  ofExcept : ∀ {α : Type} (x : Except Fault α), P (ofExcept x)
  info : ∀ b, P (info b)
  report : ∀ e, P (report e)

namespace Composes

variable {P : {α : Type} → Convert α → Prop} (h : Composes P) {α β : Type}

include h

theorem forM {k : α → Convert Unit} (l : List α) (one : ∀ a, P (k a)) : P (l.forM k) := by
  induction l with
  | nil => exact h.pure ()
  | cons a l ih => exact h.bind (one a) fun _ => ih

theorem foldlM {k : β → α → Convert β} (l : List α) (x : β) (one : ∀ y a, P (k y a)) :
    P (l.foldlM k x) := by
  induction l generalizing x with
  | nil => exact h.pure x
  | cons a l ih => exact h.bind (one x a) ih

private theorem breach (b : Option BlockId) (i : Option InstId) (reason : Reason) :
    P (breach b i reason : Convert α) := by
  unfold Convert.breach
  grind

private theorem predCount (b : BlockId) : P (predCount b) := h.bind (h.query _) fun _ => h.pure _

theorem notePlain (t : Target) (valued : BitSet) (id : InstId) : P (notePlain t valued id) := by
  unfold Conversion.notePlain
  grind

private theorem valuedAt (blocks : List BlockId) : P (valuedAt blocks) :=
  h.foldlM _ _ fun _ _ => h.bind (h.query _) fun _ => h.ofExcept _

private theorem reverse (t : Target) (b : BlockId) (c : Condition) : P (reverse t b c) := by
  unfold Conversion.reverse
  split
  · exact h.pure _
  · exact h.breach _ _ _

theorem armsOf (head : Summary) (which : Arm) : P (armsOf head which) := by
  cases which with
  | taken => exact h.bind (h.info _) fun _ => h.bind (h.info _) fun _ => h.pure _
  | other => exact h.bind (h.info _) fun _ => h.bind (h.info _) fun _ => h.pure _

theorem isUsable (arm : Summary) : P (isUsable arm) := by
  have count := h.predCount arm.block
  unfold Conversion.isUsable
  grind

private theorem armCondition (t : Target) (head : Summary) (which : Arm) : P (armCondition t head which) := by
  cases which with
  | taken => exact h.pure _
  | other => exact h.reverse t _ _

theorem mayRunOn (t : Target) (b : BlockId) : P (mayRunOn t b) := by
  unfold Conversion.mayRunOn
  grind

theorem branchSuccs (b : BlockId) : P (branchSuccs b) := by
  unfold Conversion.branchSuccs
  grind

theorem ensureValid (failure : Defect → Failure) : P (ensureValid failure) := by
  unfold Conversion.ensureValid
  grind

theorem reportListing (wanted : Bool) (event : String → Except Listing.WriteError String → Event) :
    P (reportListing wanted event) := by
  unfold Conversion.reportListing
  grind

private theorem joinPhi {s dest source : BlockId} {c : Condition} {id : InstId}
    (select : ∀ x y, P (addSelect dest c x y)) (replace : ∀ v, P (replacePhi s id v))
    (update : ∀ u : Inst → Inst, (∀ x, (u x).defs = x.defs ∧ (u x).op = x.op) →
      P (Convert.edit (·.updateInst id u))) : P (joinPhi s dest source c id) := by
  have stop := @h.breach
  refine h.bind (h.query _) fun i => h.bind (update _ fun _ => ⟨rfl, rfl⟩) fun _ => ?_
  extract_lets finish
  have last : ∀ joined, P (finish joined) := by
    intro joined
    simp only [finish]
    split
    · exact h.pure ()
    · refine h.bind (h.query _) fun i => ?_
      split
      · exact replace _
      · exact update _ fun _ => ⟨rfl, rfl⟩
  split <;> grind

private theorem collapsePhi {b : BlockId} {id : InstId} (replace : ∀ v, P (replacePhi b id v)) :
    P (collapsePhi b id) := by
  have stop := @h.breach
  unfold Conversion.collapsePhi
  grind

theorem handOver {dest source : BlockId} {c : Condition} {succs : List BlockId}
    (phis : ∀ s ∈ succs, P (joinPhis s dest source c)) (add : ∀ s, P (Convert.edit (·.addSucc dest s)))
    (remove : ∀ s, P (Convert.edit (·.removeSucc source s))) (keep : Bool) (next : Option BlockId) :
    P (handOver dest source c keep next succs) := by
  induction succs with
  | nil => exact h.pure ()
  | cons s rest ih =>
    obtain ⟨here, later⟩ := List.forall_mem_cons.mp phis
    have ih := ih later
    have leads := add s
    have drops := remove s
    unfold Conversion.handOver
    grind

end Composes

@[grind cases] structure Pervasive (P : {α : Type} → Convert α → Prop) : Prop extends Composes P where
  edit : ∀ g, P (edit g)
  editWith : ∀ {α : Type} (g : Procedure → Except Fault (Procedure × α)), P (editWith g)
  setInfo : ∀ b (u : Summary → Summary), ((fun i => (u i).block) = fun i => i.block) →
    ((fun i => i.done || (u i).done) = fun i => (u i).done) → P (setInfo b u)

namespace Pervasive

variable {P : {α : Type} → Convert α → Prop} (h : Pervasive P) (t : Target) (b dest source : BlockId)
  (c : Condition) (id : InstId) (valued : BitSet)

include h

private theorem mark {u : Summary → Summary} (block : ∀ i, (u i).block = i.block)
    (done : ∀ i, (u i).done = i.done) : P (Convert.setInfo b u) :=
  h.setInfo b u (funext block) (funext fun i => by rw [done, Bool.or_self])

private theorem addSelect (x y : Operand) : P (addSelect b c x y) := by
  unfold Conversion.addSelect
  grind

theorem extendPhis : P (extendPhis b dest source c) := by
  have select := h.addSelect dest c
  refine h.bind (h.query _) fun ids => h.forM ids fun id => ?_
  unfold extendPhi
  grind

private theorem replacePhi (v : Operand) : P (replacePhi b id v) := by
  have stop := @h.breach
  unfold Conversion.replacePhi
  grind

private theorem joinPhis : P (joinPhis b dest source c) := by
  refine h.bind (h.query _) fun ids => h.forM ids fun id => ?_
  exact h.joinPhi (h.addSelect dest c) (h.replacePhi b id) fun _ _ => h.edit _

private theorem collapsePhis : P (collapsePhis b) := by
  exact h.bind (h.query _) fun ids => h.forM ids fun id => h.collapsePhi (h.replacePhi b id)

private theorem guardInst : P (guardInst t b id c) := by
  have stop := @h.breach
  unfold Conversion.guardInst
  grind

private theorem noteGuarded : P (noteGuarded t valued id) := by
  unfold Conversion.noteGuarded
  grind

theorem guardCode (code : List InstId) : P (guardCode t b c code valued) := by
  induction code generalizing valued with
  | nil => exact h.pure valued
  | cons id rest ih =>
    have guard := h.guardInst t b c id
    have note := h.noteGuarded t id
    unfold Conversion.guardCode
    grind

theorem guardBlock (counted : P (tally fun s => { s with guardedBlocks := s.guardedBlocks + 1 }))
    (stop : Int) : P (guardBlock t b stop c valued) :=
  h.bind (h.query _) fun code => h.bind (h.guardCode t b c valued code) fun _ =>
    h.bind (h.mark b (fun _ => rfl) fun _ => rfl) fun _ => h.bind counted fun _ => h.pure _

theorem copyCode (branches : Bool) (code : List InstId) :
    P (copyCode t dest c branches code valued) := by
  induction code generalizing valued with
  | nil => exact h.pure ()
  | cons id rest ih =>
    refine h.bind (h.query _) fun i => ?_
    split
    · exact h.pure ()
    · refine h.bind (h.editWith _) fun new => h.bind (h.edit _) fun _ => h.bind (h.query _) fun i => ?_
      split
      · exact ih valued
      · refine h.bind (h.mark dest (fun _ => rfl) fun _ => rfl) fun _ => ?_
        exact h.bind (h.guardInst t dest c new) fun _ => h.bind (h.noteGuarded t new valued) ih

theorem copyBlock (counted : P (tally fun s => { s with copiedBlocks := s.copiedBlocks + 1 }))
    (branches : Bool) : P (copyBlock t dest source c valued branches) := by
  have charged : P (do
      let src ← Convert.info source
      Convert.setInfo dest fun i =>
        { i with
          guard := (i.guard.conj src.guard).conj c
          clobbers := i.clobbers || src.clobbers
          visit := .unvisited }
      tally fun s => { s with copiedBlocks := s.copiedBlocks + 1 }) :=
    h.bind (h.info source) fun src => h.bind (h.mark dest (fun _ => rfl) fun _ => rfl) fun _ => counted
  refine h.bind (h.query _) fun code => h.bind (h.copyCode t dest c valued branches code) fun _ => ?_
  split
  · refine h.bind (h.branchSuccs source) fun succs => h.bind (h.forM succs fun s => ?_) fun _ => charged
    exact h.bind (h.edit _) fun _ => h.extendPhis s dest source c
  · exact charged

private theorem join (keep : Bool) : P (join dest source c keep) := by
  refine h.bind (h.collapsePhis source) fun _ => h.bind (h.info source) fun src => ?_
  refine h.bind h.procedure fun f => h.bind (h.edit _) fun _ => h.bind (h.query _) fun succs => ?_
  refine h.bind (h.handOver (fun s _ => h.joinPhis s dest source c) (fun _ => h.edit _)
    (fun _ => h.edit _) keep _) fun _ => h.bind (h.edit _) fun _ => ?_
  refine h.bind (h.predCount source) fun preds => ?_
  extract_lets taken
  have last : ∀ u, P (taken u) := fun _ =>
    h.bind (h.edit _) fun _ => h.bind (h.info source) fun src =>
      h.bind (h.mark dest (fun _ => rfl) fun _ => rfl) fun _ =>
        h.mark source (fun _ => rfl) fun _ => rfl
  split
  · exact h.bind (h.breach _ _ _) last
  · exact last ()

private theorem dropExtraEdges : P (dropExtraEdges t b) := by
  have each := @h.forM
  unfold Conversion.dropExtraEdges
  grind

private theorem invalidatePreds : P (invalidatePreds b) := by
  have each := @h.forM
  unfold Conversion.invalidatePreds
  grind

private theorem jumpTo : P (jumpTo t b dest) := by
  unfold Conversion.jumpTo
  grind

private theorem cutBranch : P (cutBranch t b) := by
  unfold Conversion.cutBranch
  grind

private theorem turnBranch : P (turnBranch t b) := by
  refine h.bind (h.info b) fun i => ?_
  split
  · exact h.pure false
  · refine h.bind (h.editWith _) fun _ => h.bind (h.editWith _) fun _ => ?_
    exact h.bind (h.mark b (fun _ => rfl) fun _ => rfl) fun _ => h.pure true

theorem revisit : P (revisit b) := h.mark b (fun _ => rfl) fun _ => rfl

theorem retire : P (retire b) := h.setInfo b _ rfl (funext fun _ => Bool.or_true _)

private theorem reachNext (next : BlockId) : P (reachNext t b next) := by
  have jump := h.jumpTo t b next
  unfold Conversion.reachNext
  grind

private theorem settleHead (falls : Bool) : P (settleHead t b falls) := by
  have drop := h.dropExtraEdges t b
  have retired := h.retire b
  have preds := h.invalidatePreds b
  unfold Conversion.settleHead
  grind

private theorem turnArm (arm : BlockId) : P (turnArm t b arm) := by
  have turn := h.turnBranch t arm
  have each := @h.forM
  unfold Conversion.turnArm
  grind

private theorem reachJoin (next : BlockId) (early : Bool) : P (reachJoin t b next early) := by
  have jump := h.jumpTo t b next
  have joined := h.join b next [] true
  have count := h.predCount next
  unfold Conversion.reachJoin
  grind

private theorem shrink (n : Int) : P (shrink b n) := h.mark b (fun _ => rfl) fun _ => rfl

private theorem reachTail (tail : BlockId) : P (reachTail t b tail) := by
  refine h.bind (h.info tail) fun _ => ?_
  extract_lets lead
  have led : ∀ alone, P (lead alone) := by
    intro alone
    show P (if alone then _ else _)
    split
    · refine h.bind (h.mark tail (fun _ => rfl) fun _ => rfl) fun _ => ?_
      exact h.bind (h.join _ _ _ _) fun _ => h.retire tail
    · exact h.bind (h.edit _) fun _ => h.jumpTo t b tail
  refine h.bind (h.predCount tail) fun _ => ?_
  split
  · exact led false
  · split
    · exact led false
    · exact h.bind (h.mayRunOn t tail) fun runs => led !runs

end Pervasive

/-- What is said of conversions. `Made o n` is said of what is left of one that is made: it treats `n`
blocks, and the block `o` is retired in it. `Open o n` is said of what is left of one that may still be
given up, without `o` of one that will be, and `Tried n` of the whole. Steps with `R` come before it is
given up. -/
structure Converting (t : Target) (R P : {α : Type} → Convert α → Prop)
    (Made Open : Option BlockId → Nat → Convert Bool → Prop) (Tried : Nat → Convert Bool → Prop) : Prop
    extends Pervasive P where
  made : Made none 0 (Pure.pure true)
  step : ∀ {α : Type} {o n} {m : Convert α} {k : α → Convert Bool}, P m → (∀ a, Made o n (k a)) →
    Made o n (m >>= k)
  guarded : ∀ {o n b stop c valued} {k : BitSet → Convert Bool}, (∀ a, Made o n (k a)) →
    Made o (n + 1) (Conversion.guardBlock t b stop c valued >>= k)
  copied : ∀ {o n dest source c valued branches} {k : Unit → Convert Bool}, (∀ a, Made o n (k a)) →
    Made o (n + 1) (copyBlock t dest source c valued branches >>= k)
  retired : ∀ {n b} {m : Convert Bool}, Made none n m →
    Made (some b) n (Conversion.retire b >>= fun _ => m)
  looks : Composes R
  revisits : ∀ b, R (Conversion.revisit b)
  look : ∀ {α : Type} {o n} {m : Convert α} {k : α → Convert Bool}, R m → (∀ a, Open o n (k a)) →
    Open o n (m >>= k)
  agreed : ∀ {b n m}, Made (some b) n m → Open (some b) n m
  refused : ∀ {o n}, Open o n (Pure.pure false)
  arm : ∀ {b which n} {go : Summary → Summary × Summary → Convert Bool},
    (∀ head arm next, ∃ k, go head (arm, next) = Conversion.isUsable arm >>= k ∧
      Open (some arm.block) n (k true) ∧ Open none n (k false)) →
    Tried n (Convert.info b >>= fun head => Conversion.armsOf head which >>= go head)
  arms : ∀ {b n} {go : Summary → Summary → Summary → Convert Bool},
    (∀ head taken other o, (taken.done = false → o = some taken.block) →
      Open o n (go head taken other)) →
    Tried n (Convert.info b >>= fun head => infoOf head.taken >>= fun taken =>
      infoOf head.other >>= fun other => go head taken other)

namespace Converting

variable {t : Target} {R P : {α : Type} → Convert α → Prop}
  {Made Open : Option BlockId → Nat → Convert Bool → Prop} {Tried : Nat → Convert Bool → Prop}
  (h : Converting t R P Made Open Tried) (b : BlockId)

include h

private theorem giveUp {o : Option BlockId} {n : Nat} (arm : BlockId) :
    Open o n (Conversion.revisit b >>= fun _ => Conversion.revisit arm >>= fun _ => Pure.pure false) :=
  h.look (h.revisits b) fun _ => h.look (h.revisits arm) fun _ => h.refused

private theorem convertSimple (which : Arm) : Tried 1 (convertSimple t b which) := by
  unfold Conversion.convertSimple
  refine h.arm fun head arm next => ⟨_, rfl, h.agreed ?_, h.giveUp b _⟩
  rw [if_pos rfl]
  refine h.step (h.armCondition t head which) fun c => h.step (h.valuedAt _) fun valued => ?_
  refine h.step (h.predCount _) fun n => ?_
  extract_lets finished
  have settled : ∀ u, Made (some arm.block) 0 (finished u) := fun _ =>
    h.step (h.reachNext t b _) fun falls => h.step (h.settleHead t b falls) fun _ => h.retired h.made
  split
  · refine h.step (h.cutBranch t b) fun _ => h.copied fun _ => h.step (h.query _) fun loops => ?_
    split
    · exact settled ()
    · exact h.step (h.edit _) fun _ => h.step (h.edit _) settled
  · refine h.step (h.query _) fun code => h.guarded fun _ => h.step (h.cutBranch t b) fun _ => ?_
    exact h.step (h.join _ _ _ _) settled

private theorem convertTriangle (which : Arm) (reversed : Bool) :
    Tried 1 (convertTriangle t b which reversed) := by
  unfold Conversion.convertTriangle
  refine h.arm fun head arm next => ⟨_, rfl, h.agreed ?_, h.giveUp b _⟩
  rw [if_pos rfl]
  refine h.step (h.armCondition t head which) fun c => ?_
  extract_lets finished turned
  have afterTurn : ∀ u, Made (some arm.block) 1 (turned u) := by
    intro u
    refine h.step (h.valuedAt _) fun valued => h.step (h.info _) fun i => ?_
    extract_lets guarded
    have afterExit : ∀ exit?, Made (some arm.block) 1 (guarded exit?) := by
      intro exit?
      refine h.step (h.predCount _) fun n => ?_
      extract_lets joined led
      have afterJoin : ∀ u, Made (some arm.block) 0 (joined u) := by
        intro u
        refine h.step (h.reachJoin t b _ _) fun r => h.step (h.settleHead t b _) fun _ => ?_
        refine h.retired ?_
        split
        · exact h.step (h.retire _) fun _ => h.made
        · exact h.made
      have afterGuard : ∀ u, Made (some arm.block) 0 (led u) := by
        intro u
        unfold led
        split
        · exact h.step (h.editWith _) fun _ => h.step (h.edit _) afterJoin
        · exact afterJoin ()
      split
      · refine h.step (h.cutBranch t b) fun _ => h.copied fun _ => h.step (h.edit _) fun _ => ?_
        refine h.step (h.edit _) fun _ => h.step (h.extendPhis _ _ _ _) fun _ => ?_
        split
        · exact h.step (h.extendPhis _ _ _ _) afterGuard
        · exact afterGuard ()
      · refine h.step (h.cutBranch t _) fun _ => h.step (h.query _) fun code => h.guarded fun _ => ?_
        exact h.step (h.cutBranch t b) fun _ => h.step (h.join _ _ _ _) afterGuard
    split
    · exact h.step (h.reverse t _ _) fun c' => afterExit (some (_, c'))
    · exact afterExit none
  split
  · exact h.step (h.turnArm t b arm.block) afterTurn
  · exact afterTurn ()

private theorem moveArms {o : Option BlockId} {n : Nat} (first second : BlockId) (c c' : Condition)
    (shared sharedTail : Int) (keep : Bool) {k : Unit → Convert Bool} (later : ∀ u, Made o n (k u)) :
    Made o (n + 2) (moveArms t b first second c c' shared sharedTail keep >>= k) := by
  simp only [Conversion.moveArms, bind_assoc]
  refine h.step (h.cutBranch t b) fun _ => h.step (h.valuedAt _) fun valued => ?_
  refine h.step (h.query _) fun stop => h.step (h.query _) fun stop' => h.step (h.query _) fun code => ?_
  refine h.step (h.foldlM code _ fun _ _ => h.notePlain t _ _) fun valued => ?_
  refine h.step (h.edit _) fun _ => h.step (h.edit _) fun _ => ?_
  refine h.step (h.shrink _ _) fun _ => h.step (h.shrink _ _) fun _ => ?_
  refine h.step (h.cutBranch t first) fun _ => h.step (h.edit _) fun _ => h.step (h.query _) fun _ => ?_
  refine h.guarded fun valued => h.step (h.cutBranch t second) fun _ => h.step (h.query _) fun stop => ?_
  exact h.guarded fun _ => h.step (h.join _ _ _ _) fun _ => h.step (h.join _ _ _ _) later

private theorem convertDiamond (shared sharedTail : Int) : Tried 2
    (convertDiamond t b shared sharedTail) := by
  unfold Conversion.convertDiamond
  refine h.arms fun head taken other o agreed => ?_
  refine h.look h.looks.procedure fun f => h.look (h.looks.predCount _) fun n => ?_
  extract_lets c met moved decided
  have afterTail : ∀ u, Made (some taken.block) 0 (met u) := fun _ =>
    h.step (h.dropExtraEdges t b) fun _ => h.step (h.retire b) fun _ => h.retired
      (h.step (h.retire _) fun _ => h.step (h.invalidatePreds b) fun _ =>
        h.step h.procedure fun f => h.step (h.report _) fun _ => h.made)
  have afterMove : ∀ u, Made (some taken.block) 0 (moved u) := by
    intro u
    unfold moved
    split
    · exact h.step (h.reachTail t b _) afterTail
    · exact afterTail ()
  have refused : Open o 2 (decided false) :=
    h.look (h.revisits b) fun _ => h.giveUp _ _
  have answered : ∀ usable, o = some taken.block → Open o 2 (decided usable) := by
    rintro usable rfl
    cases usable with
    | false => exact refused
    | true =>
      refine h.agreed (h.step (h.reverse t b _) fun c' => ?_)
      split
      · exact h.moveArms b _ _ _ _ _ _ _ afterMove
      · exact h.moveArms b _ _ _ _ _ _ _ afterMove
  split
  · exact refused
  · rename_i fresh
    split
    · exact refused
    · refine h.look (h.looks.predCount _) fun n => answered _ (agreed ?_)
      cases done : taken.done
      · rfl
      · exact absurd (by rw [done]; rfl) fresh

theorem convert (c : Candidate) : Tried c.kind.arms (convert t c) := by
  unfold Conversion.convert
  cases c.kind with
  | simple arm => exact h.convertSimple c.block arm
  | triangle arm reversed => exact h.convertTriangle c.block arm reversed
  | diamond => exact h.convertDiamond c.block c.shared c.sharedTail

end Converting

section Analysis

variable (s : Setting) {P : {α : Type} → Convert α → Prop}

/-- Goes through the code of a block, unless that was done. The block is marked as one that is being
analyzed, or as analyzed if it is no head. -/
def look (b : BlockId) : Convert (Option Summary) := do
  let i ← info b
  if i.visit ≠ .unvisited then
    return none
  else
    let i ← query fun f => ({ i with visit := .analyzing } : Summary).scan s.target f
    setInfo b fun _ => if i.isHead then i else { i with visit := .analyzed }
    return some i

def finish (b : BlockId) : Convert Unit := do
  classify s b
  setInfo b fun i => { i with visit := .analyzed }

theorem analyzeStack_head (fuel : Nat) (b : BlockId) (stack : List Pending) :
    analyzeStack s (fuel + 1) ({ block := b, armsDone := true } :: stack) =
      info b >>= fun _ => finish s b >>= fun _ => analyzeStack s fuel stack := by
  simp [analyzeStack, finish]

theorem analyzeStack_block (fuel : Nat) (b : BlockId) (stack : List Pending) :
    analyzeStack s (fuel + 1) ({ block := b } :: stack) = look s b >>= fun
      | none => analyzeStack s fuel stack
      | some i =>
        if i.isHead then
          analyzeStack s fuel ({ block := BlockId.ofOption i.taken } ::
            { block := BlockId.ofOption i.other } :: { block := b, armsDone := true } :: stack)
        else
          analyzeStack s fuel stack := by
  conv_lhs => rw [analyzeStack]
  unfold look
  simp only [bind_assoc]
  refine bind_congr fun i => ?_
  rw [if_neg (by simp)]
  split
  · simp
  · simp only [bind_assoc, pure_bind]
    refine bind_congr fun j => ?_
    split
    · simp
    · simp

structure Classifying (P : {α : Type} → Convert α → Prop) : Prop extends Composes P where
  queued : ∀ name, P (do Convert.report (.queued name (← get).queue.size))
  enqueue : ∀ c, P (enqueue s c)

namespace Classifying

variable {s} (h : Classifying s P)

include h

private theorem ite {c : Prop} [Decidable c] {m : Convert Unit} (then_ : P m) :
    P (if c then m else Pure.pure ()) := by
  split
  · exact then_
  · exact h.pure ()

private theorem queueDiamond (head taken other : Summary) (reverse : Condition) (e : Estimate) :
    P (queueDiamond s head taken other reverse e) := by
  refine h.bind (h.query _) fun found => ?_
  split
  · exact h.ite (h.enqueue _)
  · exact h.pure ()

private theorem queueArm (head : Summary) (arm : Arm) (info join : Summary) (c : Condition) (e : Estimate) :
    P (queueArm s head arm info join c e) := by
  have triangle : ∀ reversed, P (queueTriangle s head arm info join c reversed e) := by
    intro reversed
    refine h.bind (h.query _) fun found => ?_
    split
    · exact h.ite (h.enqueue _)
    · exact h.pure ()
  refine h.bind (triangle false) fun _ => h.bind (triangle true) fun _ => ?_
  refine h.bind (h.query _) fun found => ?_
  split
  · exact h.ite (h.enqueue _)
  · exact h.pure ()

theorem classify (b : BlockId) : P (classify s b) := by
  refine h.bind (h.info b) fun head => ?_
  refine h.bind (h.info _) fun taken => h.bind (h.info _) fun other => ?_
  split
  · exact h.pure ()
  · refine h.bind h.procedure fun f => h.bind (h.report _) fun _ => h.bind (h.ofExcept _) fun e => ?_
    have told : P (do
        if (← Convert.info b).queued then
          Convert.report (.queued (f.blockName b) (← get).queue.size)) :=
      h.bind (h.info b) fun i => h.ite (h.queued _)
    cases s.target.reverse? head.cond with
    | none => exact h.bind (h.queueArm _ _ _ _ _ _) fun _ => told
    | some reverse =>
      refine h.bind (h.queueDiamond _ _ _ _ _) fun _ => ?_
      refine h.bind (h.queueArm _ _ _ _ _ _) fun _ => ?_
      exact h.bind (h.queueArm _ _ _ _ _ _) fun _ => told

end Classifying

/-- A property of the steps that the analysis is made of. -/
structure Analyzing (P : {α : Type} → Convert α → Prop) : Prop extends Classifying s P where
  look : ∀ b, P (look s b)
  finished : ∀ b, P (setInfo b fun i => { i with visit := .analyzed })
  visit : ∀ b, P (visit b)
  sized : ∀ {k : Nat → Convert Unit}, (∀ n, P (k n)) → P (do k (← get).infos.size)
  unsettled : P (MonadExcept.throw Stop.unsettled : Convert Unit)
  start : P (modify fun st => { st with visited := st.visited.reset } : Convert Unit)

namespace Analyzing

variable {s} (h : Analyzing s P)

include h

private theorem analyzeStack (fuel : Nat) (stack : List Pending) : P (analyzeStack s fuel stack) := by
  induction fuel generalizing stack with
  | zero =>
    cases stack with
    | nil => exact h.pure ()
    | cons p stack => exact h.unsettled
  | succ fuel ih =>
    rcases stack with - | ⟨⟨b, armsDone⟩, stack⟩
    · exact h.pure ()
    · cases armsDone with
      | true =>
        rw [analyzeStack_head]
        have finish := h.bind (h.classify b) fun _ => h.finished b
        exact h.bind (h.info b) fun _ => h.bind finish fun _ => ih stack
      | false =>
        rw [analyzeStack_block]
        refine h.bind (h.look b) fun i? => ?_
        cases i? with
        | none => exact ih stack
        | some i =>
          dsimp only
          split
          · exact ih _
          · exact ih stack

theorem analyzeBlock (b : BlockId) : P (analyzeBlock s b) :=
  h.sized fun n => h.analyzeStack (4 * n + 4) [{ block := b }]

private theorem analyzeBack (fuel : Nat) (stack : List BlockId) : P (analyzeBack s fuel stack) := by
  induction fuel generalizing stack with
  | zero =>
    cases stack with
    | nil => exact h.pure ()
    | cons b stack => exact h.unsettled
  | succ fuel ih =>
    cases stack with
    | nil => exact h.pure ()
    | cons b stack =>
      refine h.bind (h.analyzeBlock b) fun _ => h.bind (h.query _) fun preds => ?_
      refine h.bind (h.foldlM _ stack fun stack b => h.bind (h.visit b) fun new => ?_) ih
      split
      · exact h.pure _
      · exact h.pure _

theorem analyze : P (analyze s) := by
  have roots : ∀ l, P (analyzeRoots s l) := by
    intro l
    induction l with
    | nil => exact h.pure ()
    | cons root l ih =>
      refine h.bind (h.query _) fun succs => ?_
      split
      · refine h.bind (h.visit root) fun new => ?_
        split
        · exact h.sized fun n => h.bind (h.analyzeBack (n + 1) _) fun _ => ih
        · exact ih
      · exact ih
  exact h.bind h.start fun _ => h.bind h.procedure fun f => roots _

end Analyzing

end Analysis

end Conversion

end Predication
