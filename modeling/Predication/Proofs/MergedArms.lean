import Predication.Proofs.Splices

/-!
Both arms of a branch in one piece of code. What the arms start with in common stands there once, then
each has its own code under its own condition, and what they end with in common stands there once
again. The arm that may set a predicate comes last, so the condition of the other one is gone by the
time that its code could be cut off, and the whole runs as the one arm or as the other.
-/

set_option autoImplicit false
set_option relaxedAutoImplicit false

namespace Predication

open Procedure

section Running

variable {V : Type} {d : Datapath} {f : Procedure} {m : Machine V} {label : BlockId → V} {s s' : Store V}
  {l l' : List Inst}

private theorem Datapath.performAll_append :
    d.performAll f m label (l ++ l') s =
      (d.performAll f m label l s).andThen (d.performAll f m label l') := by
  induction l generalizing s with
  | nil => rfl
  | cons x l ih =>
    rw [List.cons_append, performAll, performAll]
    cases d.perform f m label x s with
    | on s => exact ih
    | leave | ret => rfl

private theorem Datapath.performAll_live (l : List Inst) :
    d.performAll f m label (l.filter fun x => !x.op.isDebug) s = d.performAll f m label l s := by
  induction l generalizing s with
  | nil => rfl
  | cons x l ih =>
    cases debug : x.op.isDebug with
    | true =>
      rw [List.filter_cons_of_neg (by simp [debug]), performAll, perform_debug debug, ih]
      rfl
    | false =>
      rw [List.filter_cons_of_pos (by simp [debug]), performAll, performAll]
      congr 1
      funext s
      exact ih

private theorem Datapath.performAll_liveOf {code code' : List InstId}
    (same : f.liveOf code = f.liveOf code') :
    d.performAll f m label (code.filterMap f.inst?) s =
      d.performAll f m label (code'.filterMap f.inst?) s := by
  rw [← performAll_live (code.filterMap f.inst?), ← performAll_live (code'.filterMap f.inst?)]
  exact congrArg (d.performAll f m label · s) same

private theorem Datapath.file_performAll {r : Reg} (h : d.performAll f m label l s = .on s')
    (free : ∀ x ∈ l, r ∉ d.sets f x) : s'.file r = s.file r := by
  induction l generalizing s with
  | nil =>
    cases h
    rfl
  | cons x l ih =>
    obtain ⟨here, later⟩ := List.forall_mem_cons.mp free
    rw [performAll] at h
    cases first : d.perform f m label x s with
    | on s₁ =>
      rw [first] at h
      exact (ih h later).trans (file_perform first here)
    | leave | ret =>
      rw [first] at h
      cases h

variable {c c' : Condition} {r : Reg} {lead arm arm' rest rest' trail : List Inst}

/-- Two pieces of code under opposite conditions, between code that both share. The conditions read a
register that nothing before the second piece sets. -/
private theorem performAll_merged (reads : ∀ t ∈ c ++ c', t.reg = r)
    (opposite : ∀ file : Reg → V, m.holds file c' = !m.holds file c)
    (inner : ∀ x ∈ lead ++ arm, x.op.isTerminator = false)
    (kept : ∀ x ∈ lead ++ arm, r ∉ d.sets f x)
    (narrows : List.Forall₂ (Narrows d f c) arm arm') (closing : Closing d arm)
    (narrows' : List.Forall₂ (Narrows d f c') rest rest') (closing' : Closing d rest)
    (sets : ∀ x ∈ rest, r ∈ d.sets f x → (d.profile x.op).setsPredicate = true) :
    d.performAll f m label (lead ++ arm' ++ rest' ++ trail) s =
      if m.holds s.file c then d.performAll f m label (lead ++ arm ++ trail) s
      else d.performAll f m label (lead ++ rest ++ trail) s := by
  have same : ∀ {s s' : Store V}, s'.file r = s.file r → m.holds s'.file c = m.holds s.file c :=
    fun same => m.holds_congr fun t mem => by rw [reads t (List.mem_append_left c' mem), same]
  obtain ⟨s₁, first⟩ : ∃ s₁, d.performAll f m label lead s = .on s₁ :=
    Datapath.performAll_inner fun x mem => inner x (List.mem_append_left arm mem)
  have still : m.holds s₁.file c = m.holds s.file c :=
    same (Datapath.file_performAll first fun x mem => kept x (List.mem_append_left arm mem))
  have middle : d.performAll f m label arm' s₁ =
      if m.holds s₁.file c then d.performAll f m label arm s₁ else .on s₁ :=
    performAll_narrows narrows closing fun x mem set => by
      obtain ⟨t, here, set⟩ := set
      rw [reads t (List.mem_append_left c' here)] at set
      exact absurd set (kept x (List.mem_append_right lead mem))
  have last : ∀ s₂ : Store V, d.performAll f m label rest' s₂ =
      if m.holds s₂.file c' then d.performAll f m label rest s₂ else .on s₂ := fun s₂ =>
    performAll_narrows narrows' closing' fun x mem set => by
      obtain ⟨t, here, set⟩ := set
      rw [reads t (List.mem_append_right c here)] at set
      exact sets x mem set
  simp only [Datapath.performAll_append, first, Exit.andThen_on]
  rw [middle, still]
  cases holds : m.holds s.file c with
  | true =>
    obtain ⟨s₂, second⟩ : ∃ s₂, d.performAll f m label arm s₁ = .on s₂ :=
      Datapath.performAll_inner fun x mem => inner x (List.mem_append_right lead mem)
    have gone : m.holds s₂.file c' = false := by
      rw [opposite, same (Datapath.file_performAll second fun x mem => kept x (List.mem_append_right lead mem)),
        still, holds]
      rfl
    simp only [if_true, second, Exit.andThen_on, last, gone]
    rfl
  | false =>
    have there : m.holds s₁.file c' = true := by
      rw [opposite, still, holds]
      rfl
    simp only [Bool.false_eq_true, if_false, Exit.andThen_on, last, there, if_true]

end Running

namespace Procedure

def bodyAt (f : Procedure) (a : BlockId) : List Inst := (f.instsAt a).filter fun x => !x.op.isBranch

/-- The code of the blocks `p` and `q` in one piece, debug markers apart: the `n` instructions that both
start with, what the first has of its own under `c`, what the second has of its own under `c'`, and the
`m` instructions that both end with. -/
def Folds (d : Datapath) (f : Procedure) (p q : BlockId) (c c' : Condition) (n m : Nat) (ids : List InstId)
    (code : List Inst) : Prop :=
  ∃ lead first second trail own own', ids = lead ++ first ++ (second ++ trail) ∧
    code = lead.filterMap f.inst? ++ own ++ (own' ++ trail.filterMap f.inst?) ∧
    List.Forall₂ (Narrows d f c) (first.filterMap f.inst?) own ∧
    List.Forall₂ (Narrows d f c') (second.filterMap f.inst?) own' ∧
    (f.liveOf lead).length = n ∧ (f.liveOf trail).length = m ∧
    ((f.bodyAt p).filter fun x => !x.op.isDebug) = f.liveOf (lead ++ (first ++ trail)) ∧
    ((f.bodyAt q).filter fun x => !x.op.isDebug) = f.liveOf (lead ++ (second ++ trail))

/-- The blocks of a list, and those that they lead to. -/
def Around (f : Procedure) (l : List BlockId) (a : BlockId) : Prop :=
  a ∈ l ∨ ∃ c ∈ l, a ∈ (f.blockAt c).succs

end Procedure

namespace Conversion

open Predication.Conversion.Convert

variable {d : Datapath} {f : Procedure} {st st' : State} {a b p q : BlockId} {c c' : Condition}
  {u : Unit} {valued valued' : BitSet} {r : Reg}

private theorem Side.bodyAt {body exits : List InstId} (h : Side d f r a body exits) :
    f.bodyAt a = body.filterMap f.inst? := by
  have inner : ∀ x ∈ body.filterMap f.inst?, x.op.isBranch = false := fun x mem => by
    have inner := h.inner x mem
    revert inner
    cases x.op <;> simp [Op.isBranch, Op.isTerminator]
  rw [Procedure.bodyAt, Procedure.instsAt, h.code, List.filterMap_append, List.filter_append,
    List.filter_eq_self.mpr fun x mem => by simp [inner x mem],
    List.filter_eq_nil_iff.mpr fun x mem => by simp [h.isBranch x mem], List.append_nil]

private theorem Side.liveAt {body exits : List InstId} (h : Side d f r a body exits) :
    ((f.bodyAt a).filter fun x => !x.op.isDebug) = f.liveOf body := by
  rw [h.bodyAt]
  rfl

section Merged

variable {g : Procedure} {H lead midA trailA leadB midB trail exitsA exitsB ids : List InstId}

structure Merging (d : Datapath) (f g : Procedure) (b p q : BlockId) (c c' : Condition) (r : Reg)
    (H lead midA trailA leadB midB trail exitsA exitsB : List InstId) : Prop
    extends Spliced d f g b p q c c' H lead midA trailA leadB midB trail where
  sideA : Side d f r p (lead ++ (midA ++ trailA)) exitsA
  sideB : Side d f r q (leadB ++ (midB ++ trail)) exitsB
  single : (lead ++ (midA ++ trailA) ++ exitsA ++ (leadB ++ (midB ++ trail) ++ exitsB)).Nodup

namespace Merging

variable (h : Merging d f g b p q c c' r H lead midA trailA leadB midB trail exitsA exitsB)

include h

private theorem inA {i : InstId} (mem : i ∈ midA) :
    ∃ x y, f.inst i = .ok x ∧ g.inst i = .ok y ∧ Narrows d f c x y := by
  obtain ⟨x, found⟩ := h.sideA.found i (by simp [mem])
  obtain ⟨y, there, narrows, -, -⟩ := h.inst i x found
  have off : i ∉ midB := fun mem' =>
    (List.nodup_append.mp h.single).2.2 i (by simp [mem]) i (by simp [mem']) rfl
  exact ⟨x, y, found, there, narrows mem off⟩

private theorem inB {i : InstId} (mem : i ∈ midB) :
    ∃ x y, f.inst i = .ok x ∧ g.inst i = .ok y ∧ Narrows d f c' x y := by
  obtain ⟨x, found⟩ := h.sideB.found i (by simp [mem])
  obtain ⟨y, there, -, narrows, -⟩ := h.inst i x found
  have off : i ∉ midA := fun mem' =>
    (List.nodup_append.mp h.single).2.2 i (by simp [mem']) i (by simp [mem]) rfl
  exact ⟨x, y, found, there, narrows mem off⟩

private theorem shared {i : InstId} (mem : i ∈ lead ∨ i ∈ trail) : g.inst i = f.inst i := by
  have single := h.single
  have off : i ∉ midA ∧ i ∉ midB := by grind [List.nodup_append]
  obtain ⟨x, found⟩ : ∃ x, f.inst i = .ok x := by
    rcases mem with mem | mem
    · exact h.sideA.found i (by simp [mem])
    · exact h.sideB.found i (by simp [mem])
  obtain ⟨y, there, -, -, same⟩ := h.inst i x found
  rw [there, found, same off.1 off.2]

private theorem insts : (lead ++ midA ++ (midB ++ trail)).filterMap g.inst? =
    lead.filterMap f.inst? ++ midA.filterMap g.inst? ++ (midB.filterMap g.inst? ++
      trail.filterMap f.inst?) := by
  have same : ∀ code : List InstId, (∀ i ∈ code, i ∈ lead ∨ i ∈ trail) →
      code.filterMap g.inst? = code.filterMap f.inst? :=
    fun code sub => List.filterMap_congr fun i mem => by rw [inst?, inst?, h.shared (sub i mem)]
  rw [List.filterMap_append, List.filterMap_append, List.filterMap_append, same lead fun _ => .inl,
    same trail fun _ => .inr]

/-- The code that the head takes in runs as the first arm where its condition holds, and as the second
one elsewhere. -/
private theorem runs {V : Type} {m : Machine V} {label : BlockId → V} {s : Store V}
    (reads : ∀ t ∈ c ++ c', t.reg = r) (opposite : ∀ file : Reg → V, m.holds file c' = !m.holds file c)
    (calm : ∀ x ∈ (lead ++ (midA ++ trailA)).filterMap f.inst?, r ∉ d.sets f x) :
    d.performAll f m label ((lead ++ midA ++ (midB ++ trail)).filterMap g.inst?) s =
      if m.holds s.file c then
        d.performAll f m label ((lead ++ (midA ++ trailA)).filterMap f.inst?) s
      else d.performAll f m label ((leadB ++ (midB ++ trail)).filterMap f.inst?) s := by
  have within : ∀ {part whole : List InstId}, part.Sublist whole →
      (part.filterMap f.inst?).Sublist (whole.filterMap f.inst?) := fun sub => sub.filterMap f.inst?
  have partA : (lead ++ midA).Sublist (lead ++ (midA ++ trailA)) := by simp
  have partB : midB.Sublist (leadB ++ (midB ++ trail)) := by simp
  have front : lead.filterMap f.inst? ++ midA.filterMap f.inst? = (lead ++ midA).filterMap f.inst? :=
    List.filterMap_append.symm
  rw [h.insts, ← List.append_assoc, performAll_merged reads opposite (fun x mem => ?_) (fun x mem => ?_)
    (forall₂_insts fun i mem => h.inA mem) (h.sideA.closing.sublist (within (by simp)))
    (forall₂_insts fun i mem => h.inB mem) (h.sideB.closing.sublist (within partB))
    fun x mem => h.sideB.sets x ((within partB).subset mem)]
  · have first : d.performAll f m label ((lead ++ midA ++ trail).filterMap f.inst?) s =
        d.performAll f m label ((lead ++ (midA ++ trailA)).filterMap f.inst?) s :=
      Datapath.performAll_liveOf (by simp only [liveOf_append, h.trails, List.append_assoc])
    have second : d.performAll f m label ((lead ++ midB ++ trail).filterMap f.inst?) s =
        d.performAll f m label ((leadB ++ (midB ++ trail)).filterMap f.inst?) s :=
      Datapath.performAll_liveOf (by simp only [liveOf_append, h.leads, List.append_assoc])
    rw [← first, ← second]
    simp only [List.filterMap_append]
  · rw [front] at mem
    exact h.sideA.inner x ((within partA).subset mem)
  · rw [front] at mem
    exact calm x ((within partA).subset mem)

private theorem philess {i : InstId} {x y : Inst} (found : f.inst i = .ok x) (there : g.inst i = .ok y)
    (other : x.op ≠ .phi) : y.op ≠ .phi := by
  obtain ⟨y', there', -, inB, same⟩ := h.inst i x found
  cases there.symm.trans there'
  by_cases memA : i ∈ midA
  · obtain ⟨x', y', found', there', narrows⟩ := h.inA memA
    cases found.symm.trans found'
    cases there.symm.trans there'
    exact narrows.philess other
  by_cases memB : i ∈ midB
  · exact (inB memB memA).philess other
  · rw [same memA memB]
    exact other

private theorem not_phi {i : InstId} {x : Inst} (found : f.inst i = .ok x)
    (mem : i ∈ (f.blockAt p).code ∨ i ∈ (f.blockAt q).code) : x.op ≠ .phi := by
  rcases mem with mem | mem
  · exact (h.sideA.plain x (mem_instsAt.mpr ⟨i, mem, found⟩)).2
  · exact (h.sideB.plain x (mem_instsAt.mpr ⟨i, mem, found⟩)).2

private theorem phiNear {near : BlockId → Prop} {y : Inst} (close : g.PhiNear near y) : f.PhiNear near y := by
  obtain ⟨a, i, here, mem, there, phi⟩ := close
  obtain ⟨x, found⟩ := h.old i y there
  have isPhi : x.op = .phi := by
    by_contra other
    exact h.philess found there other phi
  have away : i ∉ (f.blockAt p).code ∧ i ∉ (f.blockAt q).code :=
    ⟨fun mem => h.not_phi found (.inl mem) isPhi, fun mem => h.not_phi found (.inr mem) isPhi⟩
  rw [h.sideA.code, h.sideB.code] at away
  have offA : i ∉ lead ++ midA := fun mem => away.1 (by grind)
  have offB : i ∉ midB ++ trail := fun mem => away.2 (by grind)
  have same : y = x := by
    obtain ⟨y', there', -, -, same⟩ := h.inst i x found
    cases there.symm.trans there'
    exact same (fun mem => offA (by simp [mem])) fun mem => offB (by simp [mem])
  refine ⟨a, i, here, ?_, same ▸ found, phi⟩
  by_cases head : a = b
  · rw [head, h.head] at mem
    rw [head]
    rcases List.mem_append.mp mem with mem | mem
    · exact h.front.subset mem
    · exact absurd (List.mem_append_left midA mem) offA
  by_cases first : a = p
  · rw [first, h.first] at mem
    exact absurd (List.mem_append_right lead mem) offA
  by_cases second : a = q
  · rw [second, h.second] at mem
    exact absurd mem offB
  · rwa [h.rest a head first second] at mem

private theorem plain (marked : ∀ i, i ∈ ids ↔ i ∈ (f.blockAt p).code ∨ i ∈ (f.blockAt q).code) :
    ∀ i ∈ ids, ∃ x, g.inst i = .ok x ∧ x.op ≠ .phi := by
  intro i mem
  have mem := (marked i).mp mem
  obtain ⟨x, found⟩ : ∃ x, f.inst i = .ok x := by
    rcases mem with mem | mem
    · exact h.sideA.found i (h.sideA.code ▸ mem)
    · exact h.sideB.found i (h.sideB.code ▸ mem)
  obtain ⟨y, there, -⟩ := h.inst i x found
  exact ⟨y, there, h.philess found there (h.not_phi found mem)⟩

/-- When the arms are joined to the head, it has their code in order, and no other block has any of
it. -/
private theorem follows {keep : Bool} {near : BlockId → Prop} (start : st.procedure = g)
    (here : near p ∧ near q)
    (around : ∀ a, a = p ∨ a = q → ∀ s ∈ (f.blockAt a).succs, near s)
    (marked : ∀ i, i ∈ ids ↔ i ∈ (f.blockAt p).code ∨ i ∈ (f.blockAt q).code)
    (alone : ∀ a, ∀ i ∈ ids, i ∈ (f.blockAt a).code → a = p ∨ a = q)
    (joins : Yields (do join b p c keep; join b q c' keep) st u st') :
    ∃ names places, Follows g b near ids names places st'.procedure ∧
      places b = lead ++ midA ++ (midB ++ trail) ∧ ∀ a, a ≠ b → places a = [] := by
  obtain ⟨u₁, mid, first, second⟩ := yields_bind.mp joins
  have around : ∀ a, a = p ∨ a = q → ∀ s ∈ (g.blockAt a).succs, near s := fun a arm s mem =>
    around a arm s (h.succs a ▸ mem)
  have follows₀ : Follows g b near ids [] _ g := Follows.refl (h.plain marked)
  rw [← start] at follows₀ around
  obtain ⟨names₁, follows₁⟩ := join_follows h.firstNe here.1 (around p (.inl rfl)) follows₀ first
  obtain ⟨names₂, follows₂⟩ := join_follows h.secondNe here.2 (around q (.inr rfl)) follows₁ second
  rw [start] at follows₂
  have all : ∀ {code : List InstId}, (∀ i ∈ code, i ∈ ids) → code.filter (· ∈ ids) = code := fun sub =>
    List.filter_eq_self.mpr fun i mem => by simpa using sub i mem
  have none : ∀ a, a ≠ p → a ≠ q → ∀ code, code ⊆ (f.blockAt a).code → code.filter (· ∈ ids) = [] := by
    intro a first second code sub
    refine List.filter_eq_nil_iff.mpr fun i mem => ?_
    have away : i ∉ ids := fun marked => (alone a i marked (sub mem)).elim first second
    simpa using away
  have markedA : ∀ i ∈ lead ++ midA, i ∈ ids := fun i mem =>
    (marked i).mpr (.inl (by rw [h.sideA.code]; grind))
  have markedB : ∀ i ∈ midB ++ trail, i ∈ ids := fun i mem =>
    (marked i).mpr (.inr (by rw [h.sideB.code]; grind))
  have head : (g.blockAt b).code.filter (· ∈ ids) = lead := by
    rw [h.head, List.filter_append, none b h.firstNe.symm h.secondNe.symm H h.front.subset,
      all fun i mem => markedA i (by simp [mem])]
    rfl
  have firstArm : (g.blockAt p).code.filter (· ∈ ids) = midA := by
    rw [h.first, all fun i mem => markedA i (by simp [mem])]
  have secondArm : (g.blockAt q).code.filter (· ∈ ids) = midB ++ trail := by
    rw [h.second, all markedB]
  refine ⟨names₂, _, follows₂, ?_, fun a other => ?_⟩
  · simp only [if_neg h.secondNe.symm, if_pos, if_neg h.secondNe, if_neg h.firstNe.symm, if_neg h.apart.symm,
      head, firstArm, secondArm]
  · simp only [if_neg other]
    split
    · rfl
    split
    · rfl
    · rename_i second first
      rw [h.rest a other first second, none a first second _ (List.Subset.refl _)]

end Merging

structure Begins (f g : Procedure) (near : BlockId → Prop) : Prop where
  old : ∀ i x, f.inst i = .ok x → ∃ y, g.inst i = .ok y
  phis : ∀ y, g.PhiNear near y → f.PhiNear near y
  succs : ∀ a, (g.blockAt a).succs = (f.blockAt a).succs

/-- The arms are moved to the head, where their code runs as the one or the other. The code in `g` is
what they become under their conditions. -/
private theorem moveArms_runs {keep : Bool} {near : BlockId → Prop} {xs ys zsA zsB : List Inst}
    {bodyA exitsA bodyB exitsB ids : List InstId} (here : near p ∧ near q)
    (around : ∀ a, a = p ∨ a = q → ∀ s ∈ (st.procedure.blockAt a).succs, near s)
    (firstNe : p ≠ b) (secondNe : q ≠ b) (apart : p ≠ q)
    (sideA : Side d st.procedure r p bodyA exitsA) (sideB : Side d st.procedure r q bodyB exitsB)
    (single : ((st.procedure.blockAt p).code ++ (st.procedure.blockAt q).code).Nodup)
    (marked : ∀ i, i ∈ ids ↔ i ∈ (st.procedure.blockAt p).code ∨ i ∈ (st.procedure.blockAt q).code)
    (alone : ∀ a, ∀ i ∈ ids, i ∈ (st.procedure.blockAt a).code → a = p ∨ a = q)
    (liveA : st.procedure.liveOf bodyA = xs ++ (zsA ++ ys))
    (liveB : st.procedure.liveOf bodyB = xs ++ (zsB ++ ys))
    (reads : ∀ t ∈ c ++ c', t.reg = r)
    (opposite : ∀ {V : Type} (m : Machine V) (file : Reg → V), m.holds file c' = !m.holds file c)
    (calm : ∀ x ∈ bodyA.filterMap st.procedure.inst?, r ∉ d.sets st.procedure x)
    (h : Yields (moveArms d.target b p q c c' xs.length ys.length keep) st u st') :
    ∃ g names places, Follows g b near ids names places st'.procedure ∧ (∀ a, a ≠ b → places a = []) ∧
      Begins st.procedure g near ∧
      Folds d st.procedure p q c c' xs.length ys.length (places b) ((places b).filterMap g.inst?) ∧
      ∀ {V : Type} (m : Machine V) (label : BlockId → V) (s : Store V),
        d.performAll st.procedure m label ((places b).filterMap g.inst?) s =
          if m.holds s.file c then d.performAll st.procedure m label (st.procedure.bodyAt p) s
          else d.performAll st.procedure m label (st.procedure.bodyAt q) s := by
  rw [sideA.code, sideB.code] at single
  obtain ⟨mid, H, lead, midA, trailA, leadB, midB, trail, rfl, rfl, leads, trails, spliced, joins⟩ :=
    moveArms_spliced firstNe secondNe apart sideA sideB single liveA liveB h
  have merging : Merging d st.procedure mid.procedure b p q c c' r _ _ _ _ _ _ _ _ _ :=
    ⟨spliced, sideA, sideB, single⟩
  obtain ⟨names, places, follows, code, none⟩ := merging.follows rfl here around marked alone joins
  have begins : Begins st.procedure mid.procedure near :=
    ⟨fun i x found => (merging.inst i x found).imp fun _ => And.left, fun _ => merging.phiNear,
      merging.succs⟩
  refine ⟨mid.procedure, names, places, follows, none, begins,
    ⟨lead, midA, midB, trail, _, _, code, code ▸ merging.insts, forall₂_insts fun i => merging.inA,
      forall₂_insts fun i => merging.inB, leads, trails, ?_, ?_⟩, fun m label s => ?_⟩
  · rw [sideA.liveAt]
    simp only [liveOf_append, merging.trails]
  · rw [sideB.liveAt]
    simp only [liveOf_append, merging.leads]
  · rw [code, merging.runs reads (opposite m) calm, sideA.bodyAt, sideB.bodyAt]

end Merged

private theorem diamond?_shared {i j : Summary} {n m : Nat} (h : diamond? f i j = .ok (some (n, m))) :
    exitOf f i i.taken = exitOf f j j.taken ∧ (i.clobbers && j.clobbers) = false ∧
      sharedCode f i.block j.block = .ok (n, m) := by
  unfold diamond? at h
  split at h
  · cases h
  dsimp only at h
  split at h
  · cases h
  rename_i same
  split at h
  · cases h
  obtain ⟨preds, -, h⟩ := bind_ok_iff.mp h
  split at h
  · cases h
  obtain ⟨preds', -, h⟩ := bind_ok_iff.mp h
  split at h
  · cases h
  split at h
  · cases h
  rename_i apart
  obtain ⟨shared, found, h⟩ := bind_ok_iff.mp h
  cases h
  simp only [Bool.or_eq_true, not_or, Bool.not_eq_true] at apart
  exact ⟨not_not.mp same, apart.2, found⟩

private theorem convertDiamond_moves {t : Term} {T F tail : BlockId} {n m : Int} (cond : (st.at b).cond = [t])
    (taken : (st.at b).taken = some T) (other : (st.at b).other = some F)
    (tags : (st.at T).block = T ∧ (st.at F).block = F)
    (goes : exitOf st.procedure (st.at T) (st.at T).taken = some tail)
    (h : Yields (convertDiamond d.target b n m) st true st') :
    ∃ mid u, (inOrder (st.at T) (st.at F) = true ∧
          Yields (moveArms d.target b T F [t] [t.not] n m false) st u mid ∨
        inOrder (st.at T) (st.at F) = false ∧
          Yields (moveArms d.target b F T [t.not] [t] n m false) st u mid) ∧
      ∀ f near ids names places, near tail → (∀ s ∈ (f.blockAt tail).succs, near s) →
        Follows f b near ids names places mid.procedure → (tail ≠ b → places tail = []) →
          ∃ names', Follows f b near ids names' places st'.procedure := by
  unfold convertDiamond at h
  obtain ⟨i, mid, first, h⟩ := yields_bind.mp h
  obtain ⟨rfl, rfl⟩ := yields_info first
  rw [cond, taken, other] at h
  obtain ⟨i, mid, second, h⟩ := yields_bind.mp h
  obtain ⟨rfl, rfl⟩ := yields_info second
  obtain ⟨i, mid, third, h⟩ := yields_bind.mp h
  obtain ⟨rfl, rfl⟩ := yields_info third
  obtain ⟨f, mid, fourth, h⟩ := yields_bind.mp h
  obtain ⟨rfl, rfl⟩ := yields_procedure.mp fourth
  simp -zeta -zetaHave only [BlockId.ofOption, Option.getD_some, goes, tags.1, tags.2] at h
  extract_lets exit test finish follow choose at h
  obtain ⟨k, mid, fifth, h⟩ := yields_bind.mp h
  obtain ⟨-, -, rfl⟩ := yields_predCount fifth
  have refused : ¬ Yields (choose false) st true st' := by
    intro h
    obtain ⟨u₁, mid, -, h⟩ := yields_bind.mp h
    obtain ⟨u₂, mid, -, h⟩ := yields_bind.mp h
    obtain ⟨u₃, mid, -, h⟩ := yields_bind.mp h
    cases (yields_pure.mp h).1
  have after : ∀ mid u, Yields (follow u) mid true st' → ∀ f near ids names places, near tail →
      (∀ s ∈ (f.blockAt tail).succs, near s) → Follows f b near ids names places mid.procedure →
        (tail ≠ b → places tail = []) → ∃ names', Follows f b near ids names' places st'.procedure := by
    intro mid u h f near ids names places here around follows none
    obtain ⟨u₁, mid', reached, h⟩ := yields_bind.mp h
    have rests : Rests f b near ids (finish u₁) :=
      rests_bind (rests_dropExtraEdges d) fun _ => rests_bind (rests_of_reads (reads_setInfo b _)) fun _ =>
        rests_bind (rests_of_reads (reads_setInfo T _)) fun _ =>
          rests_bind (rests_of_reads (reads_setInfo F _)) fun _ => rests_bind rests_invalidatePreds fun _ =>
            rests_of_reads (reads_bind reads_procedure fun _ => reads_bind (reads_report _) fun _ =>
              reads_pure true)
    obtain ⟨names', follows⟩ := reachTail_follows d here around follows none reached
    exact rests names' places mid' true st' h follows
  have chosen : Yields (choose true) st true st' := by
    rcases yields_ite.mp h with ⟨-, h⟩ | ⟨-, h⟩
    · exact absurd h refused
    rcases yields_ite.mp h with ⟨-, h⟩ | ⟨-, h⟩
    · exact absurd h refused
    obtain ⟨k', mid, sixth, h⟩ := yields_bind.mp h
    obtain ⟨-, -, rfl⟩ := yields_predCount sixth
    by_cases few : k' ≤ 1
    · rwa [decide_eq_true few] at h
    · rw [decide_eq_false few] at h
      exact absurd h refused
  obtain ⟨c', mid, reversed, h⟩ := yields_bind.mp chosen
  obtain ⟨rfl, rfl⟩ := yields_pure.mp (show Yields (pure [t.not]) st c' mid from reversed)
  rcases yields_ite.mp h with ⟨order, h⟩ | ⟨order, h⟩
  · obtain ⟨u, mid, moved, h⟩ := yields_bind.mp h
    exact ⟨mid, u, .inl ⟨order, moved⟩, after mid u h⟩
  · obtain ⟨u, mid, moved, h⟩ := yields_bind.mp h
    exact ⟨mid, u, .inr ⟨by simpa using order, moved⟩, after mid u h⟩

/-- An arm has no phis and leaves nothing undefined, no debug marker stands behind a branch of it, and what
sets the register `r` is known to set a predicate. -/
structure IsArm (d : Datapath) (f : Procedure) (r : Reg) (a : BlockId) : Prop where
  plain : ∀ x ∈ f.instsAt a, x.op ≠ .undef ∧ x.op ≠ .phi
  order : (f.instsAt a).Pairwise fun x y => x.op.isBranch = true → y.op.isDebug = false
  sets : ∀ x ∈ f.instsAt a, r ∈ d.sets f x → d.target.setsPredicate x = true

/-- The code ends with the registers of the arm that control would go to, and after the same
operations. -/
def RunsArm (d : Datapath) (f : Procedure) (t : Term) (T F : BlockId) (code : List Inst) : Prop :=
  ∀ (V : Type) (m : Machine V) (label : BlockId → V) (s : Store V),
    ∃ s', d.performAll f m label code s = .on s' ∧
      d.performAll f m label (f.bodyAt (if m.holds s.file [t] then T else F)) s = .on s'

/-- The analysis takes `T` and `F` for the arms of a diamond at `b`: control goes to `T` where `t` holds,
to `F` elsewhere, and from both to `tail`. -/
structure IsDiamond (d : Datapath) (st : State) (b : BlockId) (t : Term) (T F tail : BlockId)
    (n m : Nat) : Prop where
  isHead : (st.at b).isHead = true
  block : (st.at b).block = b
  cond : (st.at b).cond = [t]
  taken : (st.at b).taken = some T
  other : (st.at b).other = some F
  scanned : ∀ a ∈ [T, F], ∃ i : Summary, i.block = a ∧ i.scan d.target st.procedure = .ok (st.at a)
  valid : diamond? st.procedure (st.at T) (st.at F) = .ok (some (n, m))
  feasible : feasible d.target (st.at T) [t] = true ∧ feasible d.target (st.at F) [t.not] = true
  tail : exitOf st.procedure (st.at T) (st.at T).taken = some tail

private theorem IsDiamond.apart {t : Term} {T F tail : BlockId} {n m : Nat}
    (h : IsDiamond d st b t T F tail n m) :
    T ≠ b ∧ F ≠ b ∧ T ≠ F := by
  have isHead := h.isHead
  simp only [Summary.isHead, Bool.and_eq_true, decide_eq_true_eq, h.block, h.taken, h.other, ne_eq,
    Option.some.injEq] at isHead
  exact ⟨isHead.1.1.1.2, isHead.1.1.2, isHead.2⟩

private theorem IsDiamond.tags {t : Term} {T F tail : BlockId} {n m : Nat}
    (h : IsDiamond d st b t T F tail n m) :
    (st.at T).block = T ∧ (st.at F).block = F := by
  obtain ⟨i, tag, scanned⟩ := h.scanned T (by simp)
  obtain ⟨j, tag', scanned'⟩ := h.scanned F (by simp)
  exact ⟨(Summary.scan_tags scanned).1.trans tag, (Summary.scan_tags scanned').1.trans tag'⟩

private theorem feasible_free {i : Summary} (h : feasible d.target i c = true) :
    i.done = false ∧ i.unguardable = false := by
  simp only [feasible, canGuard, Bool.and_eq_true, Bool.not_eq_true'] at h
  exact h.1.1

private theorem inOrder_clobbers {i j : Summary} (apart : (i.clobbers && j.clobbers) = false) :
    (inOrder i j = true → i.clobbers = false) ∧ (inOrder i j = false → j.clobbers = false) := by
  revert apart
  unfold inOrder
  cases i.clobbers <;> cases j.clobbers <;> simp

/-- What the scans and the comparison of the arms tell: each is a body with branches behind it, the
bodies have `n` and `m` instructions in common, and the arm that comes first in order leaves the register
of the condition alone. -/
private theorem IsDiamond.bodies {t : Term} {T F tail : BlockId} {n m : Nat}
    (h : IsDiamond d st b t T F tail n m)
    (arms : ∀ a ∈ [T, F], IsArm d st.procedure t.reg a) :
    ∃ bodyT exitsT bodyF exitsF, ∃ xs ys zsT zsF : List Inst,
      Side d st.procedure t.reg T bodyT exitsT ∧ Side d st.procedure t.reg F bodyF exitsF ∧
      xs.length = n ∧ ys.length = m ∧
      st.procedure.liveOf bodyT = xs ++ (zsT ++ ys) ∧ st.procedure.liveOf bodyF = xs ++ (zsF ++ ys) ∧
      (inOrder (st.at T) (st.at F) = true →
        ∀ x ∈ bodyT.filterMap st.procedure.inst?, t.reg ∉ d.sets st.procedure x) ∧
      (inOrder (st.at T) (st.at F) = false →
        ∀ x ∈ bodyF.filterMap st.procedure.inst?, t.reg ∉ d.sets st.procedure x) := by
  obtain ⟨goes, apart, shared⟩ := diamond?_shared h.valid
  have sides : ∀ a ∈ [T, F], (st.at a).done = false ∧ (st.at a).unguardable = false →
      exitOf st.procedure (st.at a) (st.at a).taken = some tail →
      ∃ body exits, Side d st.procedure t.reg a body exits ∧ ((st.at a).clobbers = false →
        ∀ x ∈ body.filterMap st.procedure.inst?, t.reg ∉ d.sets st.procedure x) := by
    intro a mem free goes
    obtain ⟨i, tag, scanned⟩ := h.scanned a mem
    have arm := arms a mem
    exact side_of_scan scanned tag free.1 free.2 goes arm.order arm.plain arm.sets
  obtain ⟨bodyT, exitsT, sideT, calmT⟩ := sides T (by simp) (feasible_free h.feasible.1) h.tail
  obtain ⟨bodyF, exitsF, sideF, calmF⟩ :=
    sides F (by simp) (feasible_free h.feasible.2) (goes ▸ h.tail)
  rw [h.tags.1, h.tags.2] at shared
  obtain ⟨xs, ys, zsT, zsF, first, last, liveT, liveF⟩ :=
    sharedCode_ok sideT.toEnds sideT.code sideF.toEnds sideF.code shared
  rw [List.append_assoc] at liveT liveF
  obtain ⟨calm, calm'⟩ := inOrder_clobbers apart
  exact ⟨bodyT, exitsT, bodyF, exitsF, xs, ys, zsT, zsF, sideT, sideF, first, last, liveT, liveF,
    fun order => calmT (calm order), fun order => calmF (calm' order)⟩

private theorem holds_not {V : Type} (m : Machine V) (t : Term) (file : Reg → V) :
    m.holds file [t.not] = !m.holds file [t] := by
  cases t with
  | mk reg neg => cases neg <;> simp [Machine.holds, Term.not]

/-- Where a diamond was converted, the instructions of its arms stand in the head: once what they share
at their start and end, and between them what each has of its own, under its condition. They run as the arm
that control would have gone to, with the same registers and the same operations executed. Behind that, a
phi of the tail, or of a block that the arms or the tail lead to, may be resolved. What read its register
then reads one of its inputs, or the register of a select in the head that chooses from them. -/
theorem runs_arm_of_convertDiamond {t : Term} {T F tail : BlockId} {n m : Nat}
    (diamond : IsDiamond d st b t T F tail n m)
    (arms : ∀ a ∈ [T, F], IsArm d st.procedure t.reg a)
    (single : ((st.procedure.blockAt T).code ++ (st.procedure.blockAt F).code).Nodup)
    (alone : ∀ a, ∀ i ∈ (st.procedure.blockAt T).code ++ (st.procedure.blockAt F).code,
      i ∈ (st.procedure.blockAt a).code → a = T ∨ a = F)
    (converts : Yields (convertDiamond d.target b n m) st true st') :
    ∃ ids code names,
      (st'.procedure.blockAt b).code.filter
        (· ∈ (st.procedure.blockAt T).code ++ (st.procedure.blockAt F).code) = ids ∧
      (if inOrder (st.at T) (st.at F) then Folds d st.procedure T F [t] [t.not] n m ids code
        else Folds d st.procedure F T [t.not] [t] n m ids code) ∧
      RunsArm d st.procedure t T F code ∧
      ids.filterMap st'.procedure.inst? = code.map (Inst.reread (readAs names)) ∧
      Sourced st.procedure st'.procedure b (st.procedure.Around [T, F, tail]) names := by
  obtain ⟨bodyT, exitsT, bodyF, exitsF, xs, ys, zsT, zsF, sideT, sideF, rfl, rfl, liveT, liveF, calmT,
    calmF⟩ := diamond.bodies arms
  obtain ⟨mid, u, moves, after⟩ :=
    convertDiamond_moves diamond.cond diamond.taken diamond.other diamond.tags diamond.tail converts
  obtain ⟨neT, neF, ne⟩ := diamond.apart
  have reads : ∀ t' ∈ [t] ++ [t.not], t'.reg = t.reg := by simp [Term.not]
  have runs : ∀ {V : Type} (m : Machine V) (label : BlockId → V) (s : Store V), ∃ s',
      d.performAll st.procedure m label
        (st.procedure.bodyAt (if m.holds s.file [t] then T else F)) s = .on s' := by
    intro V m label s
    split
    · exact sideT.bodyAt ▸ Datapath.performAll_inner sideT.inner
    · exact sideF.bodyAt ▸ Datapath.performAll_inner sideF.inner
  -- Either way round, the head has the merged code, and what comes behind does not move it.
  set near := st.procedure.Around [T, F, tail] with nearby
  have here : near T ∧ near F ∧ near tail := by simp [nearby, Procedure.Around]
  have around : ∀ a ∈ [T, F, tail], ∀ s ∈ (st.procedure.blockAt a).succs, near s := fun a mem s leads =>
    .inr ⟨a, mem, leads⟩
  suffices merged : ∃ g names places,
      Follows g b near ((st.procedure.blockAt T).code ++ (st.procedure.blockAt F).code) names places
        mid.procedure ∧ (∀ a, a ≠ b → places a = []) ∧ Begins st.procedure g near ∧
      (if inOrder (st.at T) (st.at F) then
          Folds d st.procedure T F [t] [t.not] xs.length ys.length (places b) ((places b).filterMap g.inst?)
        else Folds d st.procedure F T [t.not] [t] xs.length ys.length (places b)
          ((places b).filterMap g.inst?)) ∧
      ∀ {V : Type} (m : Machine V) (label : BlockId → V) (s : Store V),
        d.performAll st.procedure m label ((places b).filterMap g.inst?) s =
          d.performAll st.procedure m label
            (st.procedure.bodyAt (if m.holds s.file [t] then T else F)) s by
    obtain ⟨g, names, places, follows, none, begins, folds, same⟩ := merged
    obtain ⟨names, follows⟩ := after _ _ _ _ places here.2.2
      (fun s mem => around tail (by simp) s (begins.succs tail ▸ mem)) follows (none tail)
    refine ⟨places b, _, names, follows.places b, folds, fun V m label s => ?_, follows.insts_places b,
      follows.sourced.of_start begins.old begins.phis⟩
    obtain ⟨s', run⟩ := runs m label s
    exact ⟨s', (same m label s).trans run, run⟩
  rcases moves with ⟨first, moves⟩ | ⟨second, moves⟩
  · obtain ⟨g, names, places, follows, none, begins, folds, same⟩ := moveArms_runs ⟨here.1, here.2.1⟩
      (fun a arm => around a (by rcases arm with rfl | rfl <;> simp)) neT neF ne sideT sideF single
      (fun i => List.mem_append) alone liveT liveF reads (fun m => holds_not m t)
      (calmT first) moves
    refine ⟨g, names, places, follows, none, begins, by rwa [if_pos first], fun m label s => ?_⟩
    rw [same]
    split <;> rfl
  · obtain ⟨g, names, places, follows, none, begins, folds, same⟩ := moveArms_runs ⟨here.2.1, here.1⟩
      (fun a arm => around a (by rcases arm with rfl | rfl <;> simp)) neF neT ne.symm sideF sideT
      (List.nodup_append_comm.mp single) (fun i => List.mem_append.trans or_comm)
      (fun a i mem here => (alone a i mem here).symm) liveF liveT
      (fun t' mem => reads t' (by simpa [or_comm] using mem))
      (fun m file => by rw [holds_not, Bool.not_not]) (calmF second) moves
    refine ⟨g, names, places, follows, none, begins, by rwa [if_neg (by simp [second])], fun m label s => ?_⟩
    rw [same, holds_not]
    cases m.holds s.file [t] <;> rfl

/-- The state in which every block was looked at. -/
def lookedAt (f : Procedure) : State where
  procedure := f
  infos := f.blocks.map fun x =>
    match Summary.scan Datapath.standard.target f { block := x.id } with
    | .ok i => i
    | .error _ => { block := x.id }
  stats := {}
  log := #[]

/-- Both arms set `x` and `y`, and the one that is taken sets the register of the condition. It also reads
the register `w` of a phi that is `a` from either arm. -/
def crossing : Procedure :=
  { name := "crossing"
    regs := #["p", "a", "b", "x", "y", "w"]
    insts := #[.branch [⟨0, false⟩] 1,
      { op := .other "add", defs := [3], uses := [.reg 1, .imm 1] },
      { op := .other "mul", defs := [4], uses := [.reg 2, .reg 5] },
      { op := .other "cmp", defs := [0], uses := [.reg 4, .imm 3] },
      { op := .other "add", defs := [3], uses := [.reg 1, .imm 1] },
      { op := .dbg, uses := [.reg 3] },
      { op := .copy, defs := [4], uses := [.reg 2] }, .jump 3,
      { op := .phi, defs := [5], uses := [.reg 1, .block 1, .reg 1, .block 2] },
      { op := .ret, uses := [.reg 3, .reg 4, .reg 5] }]
    blocks := #[{ id := 0, name := "head", code := [0], succs := [1, 2] },
      { id := 1, name := "left", code := [1, 2, 3], preds := [0], succs := [3] },
      { id := 2, name := "right", code := [4, 5, 6, 7], preds := [0], succs := [3] },
      { id := 3, name := "tail", code := [8, 9], preds := [2, 1] }]
    layout := [0, 2, 1, 3] }

private theorem isArm_of_checks {arms : List BlockId}
    (h : ∀ a ∈ arms, (∀ x ∈ f.instsAt a, x.op ≠ .undef ∧ x.op ≠ .phi) ∧
      ((f.instsAt a).Pairwise fun x y => x.op.isBranch = true → y.op.isDebug = false) ∧
      ∀ x ∈ f.instsAt a, r ∈ d.sets f x → d.target.setsPredicate x = true) :
    ∀ a ∈ arms, IsArm d f r a :=
  fun a mem => ⟨(h a mem).1, (h a mem).2.1, (h a mem).2.2⟩

private theorem isDiamond_lookedAt {f : Procedure} {t : Term} {T F tail : BlockId} {n m : Nat}
    (head : ((lookedAt f).at b).isHead = true ∧ ((lookedAt f).at b).block = b ∧
      ((lookedAt f).at b).cond = [t] ∧ ((lookedAt f).at b).taken = some T ∧
      ((lookedAt f).at b).other = some F)
    (arms : ∀ a ∈ [T, F],
      Summary.scan Datapath.standard.target f { block := a } = .ok ((lookedAt f).at a))
    (both : diamond? f ((lookedAt f).at T) ((lookedAt f).at F) = .ok (some (n, m)) ∧
      (feasible Datapath.standard.target ((lookedAt f).at T) [t] = true ∧
        feasible Datapath.standard.target ((lookedAt f).at F) [t.not] = true) ∧
      exitOf f ((lookedAt f).at T) ((lookedAt f).at T).taken = some tail) :
    IsDiamond Datapath.standard (lookedAt f) b t T F tail n m where
  isHead := head.1
  block := head.2.1
  cond := head.2.2.1
  taken := head.2.2.2.1
  other := head.2.2.2.2
  scanned a mem := ⟨{ block := a }, rfl, arms a mem⟩
  valid := both.1
  feasible := both.2.1
  tail := both.2.2

private theorem readAs_crossing {g : Procedure} {near : BlockId → Prop} {names : List (Reg × Reg)}
    (code : (g.blockAt 0).code = [4, 5, 6, 2, 3, 9]) (h : Sourced crossing g 0 near names) (r : Reg) :
    readAs names r = r ∨ r = 5 ∧ readAs names r = 1 := by
  have phis : ∀ y, crossing.PhiNear near y → y.defs = [5] ∧ ∀ p ∈ y.phiInputs, p.value = .reg 1 := by
    rintro y ⟨-, i, -, -, found, phi⟩
    have all : ∀ x ∈ crossing.insts, x.op = .phi →
        x.defs = [5] ∧ ∀ p ∈ x.phiInputs, p.value = .reg 1 := by decide +kernel
    exact all y (Arena.get_ok_mem found) phi
  have known : ∀ i ∈ ([4, 5, 6, 2, 3, 9] : List InstId), (crossing.inst? i).isSome = true := by decide +kernel
  have kept : readAs names 1 = 1 := by
    rcases h.reads 1 with same | ⟨y, phi, sets, -⟩
    · exact same
    · rw [(phis y phi).1] at sets
      simp at sets
  refine (h.reads r).imp_right ?_
  rintro ⟨y, phi, sets, label, drawn⟩
  rw [(phis y phi).1] at sets
  refine ⟨List.mem_singleton.mp sets, ?_⟩
  generalize read : Operand.reg (readAs names r) label = v at drawn
  cases drawn with
  | input mem =>
    rw [(phis y phi).2 _ mem] at read
    exact (Operand.reg.inj read).1.trans kept
  | select added here =>
    obtain ⟨x, found⟩ := Option.isSome_iff_exists.mp (known _ (code ▸ here))
    exact absurd (inst?_eq_some.mp found) (added x)

theorem runs_arm_of_convertDiamond_crossing :
    IsDiamond Datapath.standard (lookedAt crossing) 0 ⟨0, false⟩ 1 2 3 1 0 ∧
      (∀ a ∈ [1, 2], IsArm Datapath.standard crossing 0 a) ∧
      ∃ st', Yields (convertDiamond Datapath.standard.target 0 1 0) (lookedAt crossing) true st' ∧
        (st'.procedure.blockAt 0).code = [4, 5, 6, 2, 3, 9] ∧
        ∃ code names, Folds Datapath.standard crossing 2 1 [⟨0, true⟩] [⟨0, false⟩] 1 0 [4, 5, 6, 2, 3] code ∧
          RunsArm Datapath.standard crossing ⟨0, false⟩ 1 2 code ∧
          ([4, 5, 6, 2, 3] : List InstId).filterMap st'.procedure.inst? =
            code.map (Inst.reread (readAs names)) ∧
          ∀ r, readAs names r = r ∨ r = 5 ∧ readAs names r = 1 := by
  have diamond : IsDiamond Datapath.standard (lookedAt crossing) 0 ⟨0, false⟩ 1 2 3 1 0 :=
    isDiamond_lookedAt (by decide +kernel) (by decide +kernel) (by decide +kernel)
  have arms : ∀ a ∈ [1, 2], IsArm Datapath.standard crossing 0 a := isArm_of_checks (by decide +kernel)
  obtain ⟨st', converts, head⟩ := yields_of_check
      (convertDiamond Datapath.standard.target 0 1 0) (lookedAt crossing)
    (fun st' => decide ((st'.procedure.blockAt 0).code = [4, 5, 6, 2, 3, 9])) (by decide +kernel)
  have head := of_decide_eq_true head
  have alone : ∀ a, ∀ i ∈ (crossing.blockAt 1).code ++ (crossing.blockAt 2).code,
      i ∈ (crossing.blockAt a).code → a = 1 ∨ a = 2 := by
    intro a i mem here
    by_cases range : 0 ≤ a ∧ a < crossing.blocks.size
    · have others : ∀ c ∈ [0, 3], ∀ i ∈ (crossing.blockAt 1).code ++ (crossing.blockAt 2).code,
          i ∉ (crossing.blockAt c).code := by decide +kernel
      have four : ∀ a : Int, 0 ≤ a ∧ a < 4 → a ∈ [0, 3] ∨ a = 1 ∨ a = 2 := by
        intro a range
        simp only [List.mem_cons, List.not_mem_nil, or_false]
        omega
      exact (four a range).resolve_left fun other => others a other i mem here
    · rw [blockAt_none range] at here
      cases here
  obtain ⟨ids, code, names, rfl, folds, runs, insts, sourced⟩ :=
    runs_arm_of_convertDiamond diamond arms (by decide +kernel) alone converts
  rw [if_neg (by decide +kernel)] at folds
  rw [head] at folds insts
  exact ⟨diamond, arms, st', converts, head, code, names, folds, runs, insts, readAs_crossing head sourced⟩

/-- The arms read a register that a phi of the tail sets. -/
def rereading : Procedure :=
  { name := "rereading"
    regs := #["a", "c", "d", "v", "x"]
    insts := #[.branch [⟨1, false⟩] 1,
      { op := .other "store", uses := [.reg 0, .reg 2] }, .jump 3,
      { op := .other "add", defs := [4], uses := [.reg 2, .imm 1] },
      { op := .phi, defs := [2], uses := [.reg 3, .block 1, .reg 3, .block 2] },
      { op := .ret, uses := [.reg 2] }]
    blocks := #[{ id := 0, name := "head", code := [0], succs := [1, 2], liveIn := [0, 1, 2, 3] },
      { id := 1, name := "left", code := [3], preds := [0], succs := [3] },
      { id := 2, name := "right", code := [1, 2], preds := [0], succs := [3] },
      { id := 3, name := "tail", code := [4, 5], preds := [2, 1] }]
    layout := [0, 2, 1, 3] }

/-- The arms have the same instructions, in another order. -/
def doubled : Procedure :=
  { name := "doubled"
    regs := #["a", "b", "c"]
    insts := #[.branch [⟨2, false⟩] 1,
      { op := .other "store", uses := [.reg 0, .reg 1] },
      { op := .other "store", uses := [.reg 1, .reg 0] }, .jump 3,
      { op := .ret, uses := [.reg 0] }]
    blocks := #[{ id := 0, name := "head", code := [0], succs := [1, 2], liveIn := [0, 1, 2] },
      { id := 1, name := "left", code := [2, 1], preds := [0], succs := [3] },
      { id := 2, name := "right", code := [1, 2, 3], preds := [0], succs := [3] },
      { id := 3, name := "tail", code := [4], preds := [2, 1] }]
    layout := [0, 2, 1, 3] }

/-- A machine whose operations give nothing. -/
def inert : Machine Int where
  constant := id
  isTrue v := decide (v ≠ 0)
  undefined := 0
  choose _ := 0
  result _ _ := 0

private theorem not_runsArm {t : Term} {T F : BlockId} {code : List Inst}
    (differ : ((d.performAll f inert id code ⟨id, []⟩).store.history.map Call.operands) ≠
      (d.performAll f inert id (f.bodyAt (if inert.holds id [t] then T else F)) ⟨id, []⟩).store.history.map
        Call.operands) : ¬ RunsArm d f t T F code := by
  intro runs
  obtain ⟨s', merged, arm⟩ := runs Int inert id ⟨id, []⟩
  exact differ (by rw [merged, arm])

/-- A phi that is replaced by its value takes the arms along that read it, and an instruction that stands
in both arms gets both conditions. -/
theorem not_runs_arm_as_read :
    (IsDiamond Datapath.standard (lookedAt rereading) 0 ⟨1, false⟩ 1 2 3 0 0 ∧
      (∀ a ∈ [1, 2], IsArm Datapath.standard rereading 1 a) ∧
      ∃ st', Yields (convertDiamond Datapath.standard.target 0 0 0) (lookedAt rereading) true st' ∧
        (st'.procedure.blockAt 0).code = [3, 1, 5] ∧
        ¬ RunsArm Datapath.standard rereading ⟨1, false⟩ 1 2
          (([3, 1] : List InstId).filterMap st'.procedure.inst?)) ∧
    IsDiamond Datapath.standard (lookedAt doubled) 0 ⟨2, false⟩ 1 2 3 0 0 ∧
      (∀ a ∈ [1, 2], IsArm Datapath.standard doubled 2 a) ∧
      ∃ st', Yields (convertDiamond Datapath.standard.target 0 0 0) (lookedAt doubled) true st' ∧
        (st'.procedure.blockAt 0).code = [2, 1, 1, 2, 4] ∧
        ¬ RunsArm Datapath.standard doubled ⟨2, false⟩ 1 2
          (([2, 1, 1, 2] : List InstId).filterMap st'.procedure.inst?) := by
  refine ⟨⟨isDiamond_lookedAt (by decide +kernel) (by decide +kernel) (by decide +kernel),
      isArm_of_checks (by decide +kernel), ?_⟩,
    isDiamond_lookedAt (by decide +kernel) (by decide +kernel) (by decide +kernel),
    isArm_of_checks (by decide +kernel), ?_⟩
  · obtain ⟨st', converts, after⟩ := yields_of_check
      (convertDiamond Datapath.standard.target 0 0 0) (lookedAt rereading)
      (fun st' => decide ((st'.procedure.blockAt 0).code = [3, 1, 5] ∧
        ([3, 1] : List InstId).filterMap st'.procedure.inst? =
          [{ op := .other "add", defs := [4], uses := [.reg 3, .imm 1], guard := [⟨1, false⟩] },
            { op := .other "store", uses := [.reg 0, .reg 3], guard := [⟨1, true⟩] }])) (by decide +kernel)
    obtain ⟨code, insts⟩ := of_decide_eq_true after
    exact ⟨st', converts, code, insts ▸ not_runsArm (by decide +kernel)⟩
  · obtain ⟨st', converts, after⟩ := yields_of_check
      (convertDiamond Datapath.standard.target 0 0 0) (lookedAt doubled)
      (fun st' => decide ((st'.procedure.blockAt 0).code = [2, 1, 1, 2, 4] ∧
        ([2, 1, 1, 2] : List InstId).filterMap st'.procedure.inst? =
          [1, 0, 0, 1].map fun r : Int =>
            { op := .other "store", uses := [.reg r, .reg (1 - r)], guard := [⟨2, false⟩, ⟨2, true⟩] }))
      (by decide +kernel)
    obtain ⟨code, insts⟩ := of_decide_eq_true after
    exact ⟨st', converts, code, insts ▸ not_runsArm (by decide +kernel)⟩

end Conversion

end Predication
