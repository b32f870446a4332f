import Predication.Cleanup.Rounds
import Predication.Proofs.BlockViews

/-!
What holds of the outcome of a computation if there is one, and that there is one. A cleanup is made
of small changes that all leave the number of blocks alone, so it does so as a whole.
-/

set_option autoImplicit false
set_option relaxedAutoImplicit false

namespace Predication

variable {α β ε : Type} {P : α → Prop} {Q : β → Prop}

/-- The property holds of the outcome, if there is one. -/
def Holds (P : α → Prop) (m : Except Fault α) : Prop := ∀ a, m = .ok a → P a

theorem Holds.of_ok {a : α} (h : P a) : Holds P (.ok a) := by
  rintro _ ⟨⟩
  exact h

theorem Holds.error (e : Fault) : Holds P (.error e) := fun _ h => nomatch h

theorem Holds.any (m : Except Fault α) : Holds (fun _ => True) m := fun _ _ => trivial

theorem Holds.bind {m : Except Fault α} {k : α → Except Fault β} (h : Holds P m)
    (h' : ∀ a, P a → Holds Q (k a)) : Holds Q (m >>= k) := by
  intro b run
  obtain ⟨a, first, rest⟩ := bind_ok_iff.mp run
  exact h' a (h a first) b rest

theorem Holds.after {m : Except Fault α} {k : α → Except Fault β} (h : ∀ a, Holds Q (k a)) :
    Holds Q (m >>= k) :=
  (Holds.any m).bind fun a _ => h a

theorem Holds.foldlM {k : β → α → Except Fault β} (h : ∀ y a, Q y → Holds Q (k y a)) (l : List α)
    (x : β) (start : Q x) : Holds Q (l.foldlM k x) := by
  induction l generalizing x with
  | nil => exact .of_ok start
  | cons a l ih => exact (h x a start).bind ih

/-- There is an outcome, and the property holds of it. -/
def Gives (m : Except Fault α) (P : α → Prop) : Prop := ∃ a, m = .ok a ∧ P a

theorem Gives.of_ok {a : α} (h : P a) : Gives (.ok a) P := ⟨a, rfl, h⟩

theorem Gives.bind {m : Except Fault α} {k : α → Except Fault β} (h : Gives m P)
    (h' : ∀ a, P a → Gives (k a) Q) : Gives (m >>= k) Q := by
  obtain ⟨a, run, holds⟩ := h
  obtain ⟨b, run', holds'⟩ := h' a holds
  exact ⟨b, by rw [run]; exact run', holds'⟩

theorem Gives.of_run {m : Except Fault α} {k : α → Except Fault β} {a : α} (run : m = .ok a)
    (h : Gives (k a) Q) : Gives (m >>= k) Q := by
  rw [run]
  exact h

theorem Gives.imp {P' : α → Prop} {m : Except Fault α} (h : Gives m P) (h' : ∀ a, P a → P' a) :
    Gives m P' := by
  obtain ⟨a, run, holds⟩ := h
  exact ⟨a, run, h' a holds⟩

theorem Gives.holds {m : Except Fault α} (h : Gives m P) : Holds P m := by
  obtain ⟨a, run, holds⟩ := h
  intro b run'
  cases run.symm.trans run'
  exact holds

theorem Gives.foldlM {k : β → α → Except Fault β} {l : List α} {x : β}
    (step : ∀ y, ∀ a ∈ l, Q y → Gives (k y a) Q) (start : Q x) : Gives (l.foldlM k x) Q := by
  obtain ⟨y, run, holds⟩ := foldlM_ok (P := fun _ => Q) (k := k) (l := l) (x := x)
    (fun before a after y split h => step y a (by simp [split]) h) start
  exact ⟨y, run, holds⟩

namespace Traced

/-- There is an outcome, the same whatever was reported before, and the property holds of it. -/
def Returns (m : Traced ε α) (P : α → Prop) : Prop :=
  ∃ a, P a ∧ ∀ log, ∃ log', m.run log = (.ok a, log')

/-- The property holds of the outcome, if there is one. -/
def Holds (P : α → Prop) (m : Traced ε α) : Prop := ∀ log a log', m.run log = (.ok a, log') → P a

theorem Holds.pure {a : α} (h : P a) : Holds P (pure a : Traced ε α) := by
  rintro log _ _ ⟨⟩
  exact h

theorem Holds.throw (e : Fault) : Holds P (throw e : Traced ε α) := fun _ _ _ h => nomatch h

theorem Holds.any (m : Traced ε α) : Holds (fun _ => True) m := fun _ _ _ _ => trivial

theorem Holds.bind {m : Traced ε α} {k : α → Traced ε β} (h : Holds P m)
    (h' : ∀ a, P a → Holds Q (k a)) : Holds Q (m >>= k) := by
  intro log b log' run
  rw [run_bind] at run
  rcases first : m.run log with ⟨e | a, mid⟩
  · rw [first] at run
    cases run
  · rw [first] at run
    exact h' a (h log a mid first) mid b log' run

theorem Holds.after {m : Traced ε α} {k : α → Traced ε β} (h : ∀ a, Holds Q (k a)) :
    Holds Q (m >>= k) :=
  (Holds.any m).bind fun a _ => h a

theorem Holds.ofExcept {m : Except Fault α} (h : Predication.Holds P m) :
    Holds P (ofExcept m : Traced ε α) := by
  cases m with
  | ok a => exact .pure (h a rfl)
  | error e => exact .throw e

theorem holds_outcome (m : Except Fault α) : Holds (fun a => m = .ok a) (ofExcept m : Traced ε α) :=
  .ofExcept fun _ run => run

theorem Returns.pure {a : α} (h : P a) : Returns (pure a : Traced ε α) P :=
  ⟨a, h, fun log => ⟨log, rfl⟩⟩

theorem Returns.report (e : ε) : Returns (report e) fun _ => True :=
  ⟨(), trivial, fun log => ⟨log.push e, rfl⟩⟩

theorem Returns.bind {m : Traced ε α} {k : α → Traced ε β} (h : Returns m P)
    (h' : ∀ a, P a → Returns (k a) Q) : Returns (m >>= k) Q := by
  obtain ⟨a, holds, first⟩ := h
  obtain ⟨b, holds', rest⟩ := h' a holds
  refine ⟨b, holds', fun log => ?_⟩
  obtain ⟨mid, first⟩ := first log
  obtain ⟨log', rest⟩ := rest mid
  exact ⟨log', by rw [run_bind, first]; exact rest⟩

theorem Returns.imp {P' : α → Prop} {m : Traced ε α} (h : Returns m P) (h' : ∀ a, P a → P' a) :
    Returns m P' := by
  obtain ⟨a, holds, run⟩ := h
  exact ⟨a, h' a holds, run⟩

theorem Returns.holds {m : Traced ε α} (h : Returns m P) : Holds P m := by
  obtain ⟨a, holds, run⟩ := h
  intro log b log' run'
  obtain ⟨log'', run⟩ := run log
  cases run.symm.trans run'
  exact holds

theorem Returns.value {m : Traced ε α} (h : Returns m P) : ∃ a, P a ∧ Returns m fun b => b = a := by
  obtain ⟨a, holds, run⟩ := h
  exact ⟨a, holds, a, rfl, run⟩

theorem Returns.ofExcept {m : Except Fault α} (h : Gives m P) :
    Returns (ofExcept m : Traced ε α) P := by
  obtain ⟨a, rfl, holds⟩ := h
  exact .pure holds

end Traced

namespace Procedure

variable {f : Procedure} {b s t p : BlockId} {n : Nat}

def Sized (n : Nat) (f : Procedure) : Prop := f.blocks.size = n

private theorem sized_updateBlock (h : Sized n f) (u : Block → Block) :
    Holds (Sized n) (f.updateBlock b u) := by
  intro g run
  obtain ⟨blocks, updated, same⟩ := bind_ok_iff.mp run
  cases same
  exact (Arena.size_update updated).trans h

private theorem sized_addSucc (h : Sized n f) : Holds (Sized n) (f.addSucc b s) := by
  unfold addSucc
  refine .after fun there => ?_
  split
  · exact .of_ok h
  · exact (sized_updateBlock h _).bind fun g h => sized_updateBlock h _

theorem sized_removeSucc (h : Sized n f) : Holds (Sized n) (f.removeSucc b s) := by
  unfold removeSucc
  refine .after fun there => ?_
  split
  · exact (sized_updateBlock h _).bind fun g h => sized_updateBlock h _
  · exact .of_ok h

private theorem sized_removeBlock (h : Sized n f) : Holds (Sized n) (f.removeBlock b) := by
  unfold removeBlock
  refine .after fun blk => ?_
  split
  · refine (Holds.foldlM (fun g s h => sized_removeSucc h) _ f h).bind fun g h => ?_
    exact (sized_updateBlock h _).bind fun g h => .of_ok h
  · exact .error _

private theorem sized_replaceReg (h : Sized n f) (d r : Reg) : Sized n (f.replaceReg d r) := by
  show (Array.map _ f.blocks).size = n
  rw [Array.size_map]
  exact h

end Procedure

namespace Cleanup

open Procedure

/-- A property that the edits of a cleanup keep. Its parameter tells which blocks may get code and edges,
and may change where a block is removed. -/
structure Lasting {ι : Type} (On : ι → BlockId → Prop) (P : ι → Procedure → Prop) : Prop where
  blocks {l : ι} {f g : Procedure} (h : P l f) (blocks : g.blocks = f.blocks)
    (layout : g.layout = f.layout) : P l g
  updateCode {l : ι} {f : Procedure} {b : BlockId} {u : Block → Block} (h : P l f) (on : On l b)
    (recodes : ∀ x, u x = { x with code := (u x).code }) : Holds (P l) (f.updateBlock b u)
  eraseCode {l : ι} {f : Procedure} (h : P l f) (b : BlockId) (i j : Int) : Holds (P l) (f.eraseCode b i j)
  addSucc {l : ι} {f : Procedure} {b : BlockId} (h : P l f) (on : On l b) (s : BlockId) :
    Holds (P l) (f.addSucc b s)
  removeSucc {l : ι} {f : Procedure} (h : P l f) (b s : BlockId) : Holds (P l) (f.removeSucc b s)
  replaceReg {l : ι} {f : Procedure} (h : P l f) (d r : Reg) : P l (f.replaceReg d r)
  removeBlock {l : ι} {f : Procedure} (h : P l f) (s : BlockId) :
    Holds (fun g => ∃ l', P l' g ∧ ∀ b ≠ s, On l b → On l' b) (f.removeBlock s)
  laid {l : ι} {f : Procedure} {b : BlockId} (h : P l f) (mem : b ∈ f.layout) : On l b
  preds {l : ι} {f : Procedure} {t : BlockId} {preds : List BlockId} (h : P l f)
    (run : f.preds t = .ok preds) : ∀ p ∈ preds, On l p
  phis {l : ι} {f : Procedure} {s : BlockId} {ids : List InstId} (h : P l f) (run : f.phis s = .ok ids) :
    ids = [] ∨ On l s

private theorem absorbable?_other {f : Procedure} {b s : BlockId} {isEntry : BlockId → Bool} {how : Straight}
    (run : absorbable? isEntry f b = .ok (some (s, how))) : s ≠ b := by
  obtain ⟨blk, -, run⟩ := bind_ok_iff.mp run
  split at run
  · split at run
    · cases run
    · rename_i s' _ different
      obtain ⟨preds, -, run⟩ := bind_ok_iff.mp run
      split at run
      · cases run
      · obtain ⟨found, -, run⟩ := bind_ok_iff.mp run
        have mapped := Except.ok.inj run
        obtain ⟨_, -, same⟩ := Option.map_eq_some_iff.mp mapped
        cases same
        simp only [Bool.or_eq_true, decide_eq_true_eq, not_or] at different
        exact different.1
  · cases run

namespace Lasting

variable {ι : Type} {On : ι → BlockId → Prop} {P : ι → Procedure → Prop} (k : Lasting On P) {l : ι}
  {f : Procedure} {b p s t x : BlockId}

include k

private theorem updateInst (h : P l f) (i : InstId) (u : Inst → Inst) : Holds (P l) (f.updateInst i u) :=
  .after fun _ => .of_ok (k.blocks h rfl rfl)

private theorem updateInsts (h : P l f) (ids : List InstId) (u : InstId → Inst → Inst) :
    Holds (P l) (ids.foldlM (fun f i => f.updateInst i (u i)) f) :=
  Holds.foldlM (fun _ i h => k.updateInst h i _) ids f h

private theorem insert (h : P l f) (on : On l b) (pos : Int) (i : Inst) :
    Holds (fun r => P l r.1) (f.insert b pos i) := by
  refine .bind (P := P l) ?_ fun g h => .of_ok h
  exact .after fun _ => .after fun _ => .after fun _ =>
    k.updateCode (f := (f.addInst i).1) (k.blocks h rfl rfl) on fun _ => rfl

private theorem append (h : P l f) (on : On l b) (i : Inst) : Holds (fun r => P l r.1) (f.append b i) :=
  (k.updateCode (f := (f.addInst i).1) (k.blocks h rfl rfl) on fun _ => rfl).bind fun _ h => .of_ok h

private theorem removeAll (h : ∃ l, P l f) (lost : List BlockId) :
    Traced.Holds (fun g => ∃ l, P l g) (removeAll lost f) := by
  induction lost generalizing f with
  | nil => exact .pure h
  | cons b lost ih =>
    obtain ⟨l, h⟩ := h
    refine .after fun _ => (Traced.Holds.ofExcept (k.removeBlock h b)).bind fun g h => ?_
    obtain ⟨l', h, -⟩ := h
    exact ih ⟨l', h⟩

private theorem removeUnreachable (h : P l f) :
    Traced.Holds (fun r => ∃ l, P l r.1) (removeUnreachable f) := by
  unfold Cleanup.removeUnreachable
  split
  · exact .pure ⟨l, h⟩
  · refine .after fun lost => ?_
    have unlinked : Holds (P l) (lost.foldlM unlink f) := by
      refine Holds.foldlM (fun g b h => .after fun succs => ?_) lost f h
      refine Holds.foldlM (fun g s h => ?_) _ g h
      refine Holds.bind (P := P l) (.after fun ids => k.updateInsts h ids _) fun g h => ?_
      exact k.removeSucc h b s
    refine (Traced.Holds.ofExcept unlinked).bind fun g h => ?_
    exact (k.removeAll ⟨l, h⟩ lost).bind fun _ h => .pure h

private theorem redirect (h : P l f) (on : On l p) : Holds (P l) (redirect f p t x) := by
  unfold Cleanup.redirect
  refine .after fun code => ?_
  refine (Holds.foldlM (fun g i h => k.updateInsts h _ fun _ => _) code f h).bind fun g h => ?_
  refine (k.removeSucc h p t).bind fun _ h => .after fun there => ?_
  split
  · exact .of_ok h
  · refine (k.addSucc h on x).bind fun g h => .after fun ids => ?_
    refine Holds.foldlM (fun g i h => .after fun x => ?_) ids g h
    split
    · exact k.updateInst h i _
    · exact .of_ok h

private theorem tunnelFrom (preds : List BlockId) (changed : Bool) (h : P l f) (on : ∀ p ∈ preds, On l p) :
    Traced.Holds (fun r => P l r.1) (tunnelFrom t x preds (f, changed)) := by
  induction preds generalizing f changed with
  | nil => exact .pure h
  | cons p preds ih =>
    obtain ⟨here, rest⟩ := List.forall_mem_cons.mp on
    unfold Cleanup.tunnelFrom
    refine .after fun can => ?_
    split
    · refine (Traced.Holds.ofExcept (k.redirect h here)).bind fun g h => ?_
      exact .after fun _ => ih true h rest
    · exact ih changed h rest

private theorem tunnelThrough (isEntry : BlockId → Bool) (ts : List BlockId) (changed : Bool) (h : P l f) :
    Traced.Holds (fun r => P l r.1) (tunnelThrough isEntry ts (f, changed)) := by
  induction ts generalizing f changed with
  | nil => exact .pure h
  | cons t ts ih =>
    unfold Cleanup.tunnelThrough
    split
    · exact ih changed h
    · refine .after fun only => ?_
      split
      · exact ih changed h
      · split
        · exact ih changed h
        · refine (Traced.holds_outcome _).bind fun preds run => ?_
          exact (k.tunnelFrom preds changed h (k.preds h run)).bind fun r h => ih r.2 h

private theorem resolvePhi (h : P l f) (on : On l b) (id : InstId) : Holds (P l) (resolvePhi f b id) := by
  have place : ∀ {g}, P l g → ∀ i, Holds (P l) (placeResolved g b id i) := fun h i =>
    (k.updateInst h id _).bind fun g h => .after fun ids =>
      (k.insert h on _ i).bind fun _ h => .of_ok (k.blocks h rfl rfl)
  unfold Cleanup.resolvePhi
  refine .after fun i => (k.updateCode h on fun _ => rfl).bind fun g h => ?_
  split
  · exact place h _
  · split
    · exact .of_ok (k.replaceReg h _ _)
    · exact .error _
  · exact place h _

private theorem takeEdges (h : P l f) (on : On l b) : Holds (P l) (takeEdges f b s) := by
  unfold Cleanup.takeEdges
  refine .after fun succs => Holds.foldlM (fun g x h => ?_) succs f h
  refine Holds.bind (P := P l) (.after fun ids => k.updateInsts h ids _) fun g h => ?_
  exact (k.removeSucc h s x).bind fun g h => k.addSucc h on x

private theorem fuse (h : P l f) (on : On l b) (other : s ≠ b) : Holds (fun g => ∃ l, P l g)
    (fuse f b s) := by
  unfold Cleanup.fuse
  refine .bind (P := fun ids => f.phis s = .ok ids) (fun _ => id) fun ids found => ?_
  -- the phis of a block that may get no code are none
  have resolved : Holds (P l) (ids.foldlM (fun f id => Cleanup.resolvePhi f s id) f) := by
    rcases k.phis h found with rfl | on
    · exact .of_ok h
    · exact Holds.foldlM (fun g id h => k.resolvePhi h on id) ids f h
  refine resolved.bind fun g h => .after fun falls => .after fun code => ?_
  have moved : Holds (P l) (g.moveCode b s 0 code.length) :=
    .after fun _ => .after fun _ => .after fun _ =>
      (k.updateCode h on fun _ => rfl).bind fun _ h => k.eraseCode h s _ _
  refine moved.bind fun g h => (k.takeEdges h on).bind fun g h => (k.removeSucc h b s).bind fun g h => ?_
  refine (k.removeBlock h s).bind fun g h => ?_
  obtain ⟨l', h, stays⟩ := h
  split
  · split
    · exact .of_ok ⟨l', h⟩
    · exact (k.append h (stays b (Ne.symm other) on) _).bind fun _ h => .of_ok ⟨l', h⟩
  · exact .of_ok ⟨l', h⟩

private theorem absorb (h : P l f) (on : On l b) (other : s ≠ b) (how : Straight) :
    Holds (fun g => ∃ l, P l g) (absorb f b s how) := by
  unfold Cleanup.absorb openEnd
  cases how with
  | falls => exact k.fuse h on other
  | jumps position => exact (k.eraseCode h b _ _).bind fun _ h => k.fuse h on other

private theorem mergeFrom (isEntry : BlockId → Bool) (fuel index : Nat) (changed : Bool) (h : P l f) :
    Traced.Holds (fun r => ∃ l, P l r.1) (mergeFrom isEntry fuel index (f, changed)) := by
  induction fuel generalizing index f changed l with
  | zero => exact .throw _
  | succ fuel ih =>
    unfold Cleanup.mergeFrom
    split
    · exact .pure ⟨l, h⟩
    · rename_i b here
      refine (Traced.holds_outcome _).bind fun found run => ?_
      cases found with
      | none => exact ih _ changed h
      | some step =>
        have absorbed := k.absorb h (k.laid h (List.mem_of_getElem? here)) (absorbable?_other run) step.2
        refine (Traced.Holds.ofExcept absorbed).bind fun g h => ?_
        obtain ⟨l, h⟩ := h
        exact .after fun _ => ih index true h

private theorem dropJumpsOf (bs : List BlockId) (changed : Bool) (h : P l f) :
    Holds (fun r => P l r.1) (dropJumpsOf bs (f, changed)) := by
  induction bs generalizing f changed with
  | nil => exact .of_ok h
  | cons b bs ih =>
    unfold Cleanup.dropJumpsOf
    refine .after fun idle => ?_
    split
    · exact (k.eraseCode h b _ _).bind fun g h => ih true h
    · exact ih changed h

private theorem round (h : P l f) : Traced.Holds (fun r => ∃ l, P l r.1) (round f) := by
  unfold Cleanup.round
  refine (k.removeUnreachable h).bind fun r h => ?_
  obtain ⟨l, h⟩ := h
  refine (k.tunnelThrough _ _ _ h).bind fun r h => (k.mergeFrom _ _ _ _ h).bind fun r h => ?_
  obtain ⟨l, h⟩ := h
  exact (Traced.Holds.ofExcept (k.dropJumpsOf _ _ h)).bind fun r h => .pure ⟨l, h⟩

theorem roundsFrom (fuel number : Nat) (changed : Bool) (h : P l f) :
    Traced.Holds (fun r => ∃ l, P l r.1) (roundsFrom fuel number (f, changed)) := by
  induction fuel generalizing number f changed l with
  | zero => exact .throw _
  | succ fuel ih =>
    unfold Cleanup.roundsFrom
    refine (k.round h).bind fun r h => .after fun _ => ?_
    obtain ⟨l, h⟩ := h
    split
    · exact ih _ true h
    · exact .pure ⟨l, h⟩

end Lasting

private theorem lasting_sized (n : Nat) : Lasting (fun (_ : Unit) _ => True) fun _ => Sized n where
  blocks h blocks _ := (congrArg Array.size blocks).trans h
  updateCode h _ _ := sized_updateBlock h _
  eraseCode h _ _ _ := .after fun _ => .after fun _ => .after fun _ => sized_updateBlock h _
  addSucc h _ _ := sized_addSucc h
  removeSucc h _ _ := sized_removeSucc h
  replaceReg := sized_replaceReg
  removeBlock h _ g run := ⟨(), sized_removeBlock h g run, fun _ _ => id⟩
  laid _ _ := trivial
  preds _ _ _ _ := trivial
  phis _ _ := .inr trivial

theorem size_run {f : Procedure} : Traced.Holds (fun r => r.1.blocks.size = f.blocks.size) (run f) := by
  intro log r log' ran
  obtain ⟨-, h⟩ := (lasting_sized _).roundsFrom (l := ()) _ _ _ rfl log r log' ran
  exact h

end Cleanup

end Predication
