import Mathlib.Data.List.Induction
import Predication.Proofs.Meshes
import Predication.Proofs.Outcomes

/-!
Traits: what an instruction means for where control goes. The steps of a cleanup look at nothing
else, so what they find out about a block is said in terms of the traits of its code.
-/

set_option autoImplicit false
set_option relaxedAutoImplicit false

namespace Predication

open Cleanup

/-- What an instruction means for where control goes. -/
inductive Trait where
  | debug
  /-- Control goes on. -/
  | inert
  /-- Control goes to a block. -/
  | jump (target : BlockId)
  /-- Another way out. It may be the end, or control may get past it. -/
  | exit (ends : Bool)
  deriving Repr, DecidableEq

namespace Trait

def isDebug : Trait → Bool
  | debug => true
  | _ => false

def jump? : Trait → Option BlockId
  | jump t => some t
  | _ => none

def isExit : Trait → Bool
  | jump _ | exit _ => true
  | _ => false

/-- Control never goes on. -/
def ends : Trait → Bool
  | jump _ => true
  | exit ends => ends
  | _ => false

def lead (t x : BlockId) : Trait → Trait
  | jump u => jump (if u = t then x else u)
  | τ => τ

def firstJump? (l : List Trait) : Option BlockId := l.findSome? jump?

def soleJump? (l : List Trait) : Option BlockId :=
  match l.filter fun τ => !τ.isDebug with
  | [jump t] => some t
  | _ => none

def runsOn (l : List Trait) : Bool :=
  match (l.filter fun τ => !τ.isDebug).getLast? with
  | some τ => !τ.ends
  | none => true

def Plain (l : List Trait) : Prop := ∀ e, exit e ∉ l

variable {l l' : List Trait} {t x : BlockId}

private theorem mem_filter_isExit {τ : Trait} (h : τ.isExit = true) : τ ∈ l.filter isExit ↔ τ ∈ l := by
  simp [h]

theorem plain_filter : Plain (l.filter isExit) ↔ Plain l :=
  forall_congr' fun _ => not_congr (mem_filter_isExit rfl)

theorem firstJump?_filter : firstJump? (l.filter isExit) = firstJump? l := by
  unfold firstJump?
  induction l with
  | nil => rfl
  | cons τ l ih => cases τ <;> simp [isExit, jump?, List.findSome?_cons, List.filter_cons, ih]

theorem firstJump?_append : firstJump? (l ++ l') = (firstJump? l).or (firstJump? l') :=
  List.findSome?_append

theorem firstJump?_eq_none : firstJump? l = none ↔ ∀ t, jump t ∉ l := by
  unfold firstJump?
  rw [List.findSome?_eq_none_iff]
  constructor
  · intro h t mem
    cases h _ mem
  · intro h τ mem
    cases τ with
    | jump t => exact absurd mem (h t)
    | debug | inert | exit => rfl

theorem mem_of_firstJump? (h : firstJump? l = some t) : jump t ∈ l := by
  obtain ⟨τ, mem, found⟩ := List.exists_of_findSome?_eq_some h
  cases τ with
  | jump u =>
    cases found
    exact mem
  | debug | inert | exit => cases found

theorem firstJump?_map_lead : firstJump? (l.map (lead t x)) =
    (firstJump? l).map fun u => if u = t then x else u := by
  unfold firstJump?
  induction l with
  | nil => rfl
  | cons τ l ih => cases τ <;> simp [lead, jump?, List.findSome?_cons, ih]

theorem plain_map_lead : Plain (l.map (lead t x)) ↔ Plain l := by
  unfold Plain
  refine forall_congr' fun e => not_congr ?_
  rw [List.mem_map]
  constructor
  · rintro ⟨τ, mem, same⟩
    cases τ with
    | exit => exact same ▸ mem
    | debug | inert | jump => cases same
  · exact fun mem => ⟨_, mem, rfl⟩

theorem soleJump?_eq_some : soleJump? l = some t ↔ (l.filter fun τ => !τ.isDebug) = [jump t] := by
  unfold soleJump?
  split
  · rename_i u single
    rw [single]
    simp
  · rename_i other
    constructor
    · intro h
      cases h
    · intro single
      exact absurd single (other t)

theorem soleJump?_map_lead : soleJump? (l.map (lead t x)) =
    (soleJump? l).map fun u => if u = t then x else u := by
  have same : ((l.map (lead t x)).filter fun τ => !τ.isDebug) =
      (l.filter fun τ => !τ.isDebug).map (lead t x) := by
    rw [List.filter_map]
    congr 1
    refine List.filter_congr fun τ _ => ?_
    cases τ <;> rfl
  unfold soleJump?
  rw [same]
  generalize (l.filter fun τ => !τ.isDebug) = kept
  match kept with
  | [] | [.jump _] | [.debug] | [.inert] | [.exit _] => rfl
  | .jump _ :: _ :: _ | .debug :: _ :: _ | .inert :: _ :: _ | .exit _ :: _ :: _ => rfl

theorem mem_of_soleJump? (h : soleJump? l = some t) {τ : Trait} (mem : τ ∈ l) :
    τ = debug ∨ τ = jump t := by
  by_cases marker : τ.isDebug = true
  · cases τ with
    | debug => exact .inl rfl
    | inert | jump | exit => cases marker
  · have kept : τ ∈ (l.filter fun τ => !τ.isDebug) := by simp [mem, marker]
    rw [soleJump?_eq_some.mp h, List.mem_singleton] at kept
    exact .inr kept

theorem firstJump?_of_soleJump? (h : soleJump? l = some t) : firstJump? l = some t := by
  have mem : jump t ∈ l := by
    have kept : jump t ∈ (l.filter fun τ => !τ.isDebug) := by
      rw [soleJump?_eq_some.mp h]
      exact List.mem_singleton.mpr rfl
    exact List.mem_of_mem_filter kept
  obtain ⟨u, first⟩ := Option.ne_none_iff_exists'.mp
    (fun none : firstJump? l = none => firstJump?_eq_none.mp none t mem)
  rcases mem_of_soleJump? h (mem_of_firstJump? first) with marker | same
  · cases marker
  · cases same
    exact first

theorem plain_of_soleJump? (h : soleJump? l = some t) : Plain l := by
  intro e mem
  rcases mem_of_soleJump? h mem with marker | same
  · cases marker
  · cases same

theorem runsOn_of_soleJump? (h : soleJump? l = some t) : runsOn l = false := by
  unfold runsOn
  rw [soleJump?_eq_some.mp h]
  rfl

private theorem filter_of_debug (h : ∀ τ ∈ l, τ.isDebug = true) : (l.filter fun τ => !τ.isDebug) = [] := by
  rw [List.filter_eq_nil_iff]
  intro τ mem
  simp [h τ mem]

private theorem filter_last {τ : Trait} (real : τ.isDebug = false) (h : ∀ τ ∈ l', τ.isDebug = true) :
    ((l ++ τ :: l').filter fun τ => !τ.isDebug) = (l.filter fun τ => !τ.isDebug) ++ [τ] := by
  rw [List.filter_append, List.filter_cons_of_pos (by simp [real]), filter_of_debug h]

theorem runsOn_of_plain (plain : Plain l) (none : firstJump? l = none) : runsOn l = true := by
  unfold runsOn
  split
  · rename_i τ last
    have mem := List.mem_of_mem_filter (List.mem_of_getLast? last)
    cases τ with
    | jump t => exact absurd mem (firstJump?_eq_none.mp none t)
    | exit e => exact absurd mem (plain e)
    | debug | inert => rfl
  · rfl

end Trait

namespace Inst

variable {x : Inst} {t u : BlockId}

/-- What the instruction means for where control goes. -/
def trait (x : Inst) : Trait :=
  if x.op.isDebug then .debug
  else if isJump x then .jump ((x.uses.head?.map Operand.blockId).getD (-1))
  else if x.op.isTerminator then .exit x.endsFlow
  else .inert

/-- A phi has a definition, and an unconditional branch leads to a block. -/
structure Able (x : Inst) : Prop where
  defs : x.op = .phi → x.defs ≠ []
  leads : x.op = .br → ∃ t rest, x.uses = .block t :: rest ∧ t ≠ -1

theorem op_of_isJump (h : isJump x = true) : x.op = .br := by
  unfold isJump at h
  simp only [Bool.and_eq_true, decide_eq_true_eq] at h
  exact h.1

theorem isDebug_trait : x.trait.isDebug = x.op.isDebug := by
  unfold trait
  split
  · rename_i debug
    exact debug.symm
  · rename_i real
    rw [Bool.not_eq_true] at real
    rw [real]
    split
    · rfl
    · split <;> rfl

theorem isExit_trait : x.trait.isExit = x.op.isTerminator := by
  unfold trait
  split
  · rename_i debug
    cases op : x.op <;> simp_all [Op.isDebug, Op.isTerminator, Trait.isExit]
  · split
    · rename_i jump
      rw [op_of_isJump jump]
      rfl
    · split
      · rename_i ends
        exact ends.symm
      · rename_i inner
        rw [Bool.not_eq_true] at inner
        exact inner.symm

theorem trait_of_isJump (h : isJump x = true) (able : x.Able) :
    ∃ t rest, x.uses = .block t :: rest ∧ t ≠ -1 ∧ x.trait = .jump t ∧ firstTarget x = .ok t := by
  obtain ⟨t, rest, uses, named⟩ := able.leads (op_of_isJump h)
  have real : x.op.isDebug = false := by
    rw [op_of_isJump h]
    rfl
  refine ⟨t, rest, uses, named, ?_, ?_⟩
  · simp [trait, real, h, uses, Operand.blockId]
  · simp [firstTarget, uses, Operand.blockId]

theorem isJump_of_trait (h : x.trait = .jump t) : isJump x = true := by
  unfold trait at h
  split at h
  · cases h
  · split at h
    · assumption
    · split at h <;> cases h

theorem ends_trait : x.trait.ends = x.endsFlow := by
  unfold trait
  split
  · cases op : x.op <;> simp_all [endsFlow, Op.isDebug, Trait.ends]
  · split
    · rename_i jump
      simp only [isJump, Bool.and_eq_true, decide_eq_true_eq, Bool.not_eq_true'] at jump
      simp [endsFlow, jump.1, jump.2, Trait.ends]
    · split
      · rfl
      · cases op : x.op <;> simp_all [endsFlow, Op.isTerminator, Trait.ends]

theorem trait_retarget (able : x.Able) : (x.retarget t u).trait = x.trait.lead t u := by
  have op : (x.retarget t u).op = x.op := by
    unfold retarget
    split <;> rfl
  have guard : (x.retarget t u).isGuarded = x.isGuarded := by
    unfold retarget
    split <;> rfl
  have jumps : isJump (x.retarget t u) = isJump x := by rw [isJump, isJump, op, guard]
  have ends : (x.retarget t u).endsFlow = x.endsFlow := by rw [endsFlow, endsFlow, op, guard]
  unfold trait
  rw [op, jumps, ends]
  split
  · rfl
  · split
    · rename_i jump
      obtain ⟨v, rest, uses, -⟩ := able.leads (op_of_isJump jump)
      have led : (x.retarget t u).uses = (x.uses.map (Operand.renameBlock t u)) := by
        unfold retarget
        rw [op_of_isJump jump]
      rw [led, uses]
      simp only [List.map_cons, List.head?_cons, Option.map_some, Option.getD_some,
        Operand.renameBlock, Trait.lead, Operand.blockId]
      by_cases same : v = t <;> simp [same]
    · split <;> rfl

theorem Able.retarget (able : x.Able) (named : u ≠ -1) : (x.retarget t u).Able := by
  unfold Inst.retarget
  split
  · exact able
  · refine ⟨fun op => able.defs op, fun op => ?_⟩
    obtain ⟨v, rest, uses, known⟩ := able.leads op
    refine ⟨if v = t then u else v, rest.map (Operand.renameBlock t u), ?_, ?_⟩
    · simp only [uses, List.map_cons, Operand.renameBlock]
      split <;> rfl
    · split
      · exact named
      · exact known

end Inst

namespace Procedure

def AbleCode (f : Procedure) (code : List InstId) : Prop :=
  ∀ i ∈ code, ∃ x, f.inst i = .ok x ∧ x.Able

def traitsOf (f : Procedure) (code : List InstId) : List Trait :=
  code.filterMap fun i => (f.inst? i).map Inst.trait

def traits (f : Procedure) (b : BlockId) : List Trait := f.traitsOf (f.blockAt b).code

variable {f : Procedure} {code code' : List InstId} {b s t x n : BlockId} {i : InstId} {y : Inst}

theorem traitsOf_cons (found : f.inst i = .ok y) :
    f.traitsOf (i :: code) = y.trait :: f.traitsOf code := by
  simp [traitsOf, inst?_eq_some.mpr found]

theorem traitsOf_append : f.traitsOf (code ++ code') = f.traitsOf code ++ f.traitsOf code' :=
  List.filterMap_append

theorem mem_traitsOf {τ : Trait} :
    τ ∈ f.traitsOf code ↔ ∃ i ∈ code, ∃ y, f.inst i = .ok y ∧ y.trait = τ := by
  simp [traitsOf, List.mem_filterMap, inst?_eq_some]

theorem AbleCode.of_sub (able : f.AbleCode code) (sub : ∀ i ∈ code', i ∈ code) : f.AbleCode code' :=
  fun i hi => able i (sub i hi)

end Procedure

namespace Cleanup

open Procedure

variable {f : Procedure} {code : List InstId} {b s t p x n : BlockId}

/-- The last instruction that is no debug marker, if there is one, has only debug markers behind
it. -/
private theorem last?_cases (able : f.AbleCode code) :
    (last? f code = .ok none ∧ ∀ τ ∈ f.traitsOf code, τ.isDebug = true) ∨
      ∃ before i y after, code = before ++ i :: after ∧ f.inst i = .ok y ∧ y.op.isDebug = false ∧
        (∀ τ ∈ f.traitsOf after, τ.isDebug = true) ∧
        last? f code = .ok (some (before.length, y)) := by
  induction code using List.reverseRecOn with
  | nil => exact .inl ⟨rfl, fun τ mem => nomatch mem⟩
  | append_singleton code i ih =>
    obtain ⟨y, found, -⟩ := able i (by simp)
    have step : last? f (code ++ [i]) =
        if y.op.isDebug then last? f code else .ok (some (code.length, y)) := by
      unfold last?
      rw [List.reverse_append, List.reverse_singleton, List.singleton_append, lastOfReversed?, found]
      simp only [bind, Except.bind, List.length_reverse]
      rfl
    by_cases debug : y.op.isDebug = true
    · rw [step, if_pos debug]
      have marker : y.trait.isDebug = true := Inst.isDebug_trait.trans debug
      have one : f.traitsOf [i] = [y.trait] := traitsOf_cons found
      rcases ih (able.of_sub (by simp +contextual)) with ⟨none, all⟩ | ⟨pre, j, z, post, rfl, rest⟩
      · refine .inl ⟨none, fun τ mem => ?_⟩
        rw [traitsOf_append, one, List.mem_append, List.mem_singleton] at mem
        rcases mem with mem | rfl
        · exact all τ mem
        · exact marker
      · obtain ⟨there, real, all, last⟩ := rest
        refine .inr ⟨pre, j, z, post ++ [i], by simp, there, real, fun τ mem => ?_, last⟩
        rw [traitsOf_append, one, List.mem_append, List.mem_singleton] at mem
        rcases mem with mem | rfl
        · exact all τ mem
        · exact marker
    · rw [step, if_neg debug]
      exact .inr ⟨code, i, y, [], rfl, found, by simpa using debug, fun τ mem => (nomatch mem), rfl⟩

theorem code_eq (live : (f.blockAt b).dead = false) : f.code b = .ok (f.blockAt b).code :=
  code_ok.mpr ⟨block_of_live live, rfl⟩

theorem mayFallThrough_eq (live : (f.blockAt b).dead = false) (able : f.AbleCode (f.blockAt b).code) :
    mayFallThrough f b = .ok (Trait.runsOn (f.traits b)) := by
  unfold mayFallThrough Trait.runsOn
  rw [code_eq live]
  change (last? f (f.blockAt b).code >>= _) = _
  rcases last?_cases able with ⟨none, all⟩ | ⟨before, i, y, after, split, found, real, all, last⟩
  · rw [none, traits, Trait.filter_of_debug all]
    rfl
  · rw [last, traits, split, traitsOf_append, traitsOf_cons found,
      Trait.filter_last (Inst.isDebug_trait.trans real) all, List.getLast?_concat]
    simp only [Inst.ends_trait]
    rfl

private theorem onlyJumpFrom?_some (able : f.AbleCode code) : onlyJumpFrom? f (some t) code =
    .ok (if (f.traitsOf code).all Trait.isDebug then some t else none) := by
  induction code with
  | nil => rfl
  | cons i code ih =>
    obtain ⟨y, found, -⟩ := able i List.mem_cons_self
    rw [onlyJumpFrom?, found, traitsOf_cons found, List.all_cons, Inst.isDebug_trait]
    change (if y.op.isDebug = true then _ else _) = _
    split
    · rename_i debug
      rw [ih (able.of_sub fun j hj => List.mem_cons_of_mem i hj), debug, Bool.true_and]
    · rename_i real
      rw [Bool.eq_false_iff.mpr real]
      rfl

private theorem onlyJumpFrom?_none (able : f.AbleCode code) :
    onlyJumpFrom? f none code = .ok (Trait.soleJump? (f.traitsOf code)) := by
  induction code with
  | nil => rfl
  | cons i code ih =>
    obtain ⟨y, found, here⟩ := able i List.mem_cons_self
    have rest := able.of_sub (fun j hj => List.mem_cons_of_mem i hj)
    rw [onlyJumpFrom?, found, traitsOf_cons found]
    change (if y.op.isDebug = true then _ else _) = _
    by_cases debug : y.op.isDebug = true
    · rw [if_pos debug, ih rest, Trait.soleJump?, Trait.soleJump?,
        List.filter_cons_of_neg (by simp [Inst.isDebug_trait, debug])]
    · rw [if_neg debug, Trait.soleJump?,
        List.filter_cons_of_pos (by simp [Inst.isDebug_trait, debug])]
      by_cases jump : isJump y = true
      · obtain ⟨t, more, uses, named, trait, target⟩ := Inst.trait_of_isJump jump here
        rw [if_neg (by simp [jump]), target, trait]
        change onlyJumpFrom? f (BlockId.named? t) code = _
        rw [BlockId.named?, if_neg named, onlyJumpFrom?_some rest]
        congr 1
        cases kept : (f.traitsOf code).filter fun τ => !τ.isDebug with
        | nil =>
          rw [List.filter_eq_nil_iff] at kept
          have all : (f.traitsOf code).all Trait.isDebug = true := by simpa using kept
          rw [if_pos all]
        | cons τ more =>
          have mem : τ ∈ (f.traitsOf code).filter fun τ => !τ.isDebug := by simp [kept]
          rw [List.mem_filter] at mem
          rw [if_neg]
          intro all
          rw [List.all_eq_true] at all
          simp [all τ mem.1] at mem
      · rw [if_pos (by simp [jump])]
        have other : ∀ t, y.trait ≠ .jump t := fun t same => jump (Inst.isJump_of_trait same)
        split
        · rename_i t single
          exact absurd (List.cons_eq_cons.mp single).1 (other t)
        · rfl

theorem onlyJump?_eq (live : (f.blockAt b).dead = false) (able : f.AbleCode (f.blockAt b).code) :
    onlyJump? f b = .ok (Trait.soleJump? (f.traits b)) := by
  unfold onlyJump?
  rw [code_eq live]
  exact onlyJumpFrom?_none able

/-- The jump that is dropped is the last instruction and leads to the next block. -/
theorem idleJump?_gives (live : (f.blockAt b).dead = false) (able : f.AbleCode (f.blockAt b).code) :
    Gives (idleJump? f b) fun found => ∀ position ∈ found, ∃ before i y after n,
      (f.blockAt b).code = before ++ i :: after ∧ before.length = position ∧ f.inst i = .ok y ∧
        y.trait = .jump n ∧ (∀ τ ∈ f.traitsOf after, τ.isDebug = true) ∧ f.next? b = some n := by
  unfold idleJump?
  rw [code_eq live]
  change Gives (last? f (f.blockAt b).code >>= _) _
  rcases last?_cases able with ⟨none, -⟩ | ⟨before, i, y, after, split, found, -, all, last⟩
  · rw [none]
    exact .of_ok fun _ mem => nomatch mem
  · rw [last]
    change Gives (if isJump y = true then _ else _) _
    by_cases jump : isJump y = true
    · obtain ⟨z, there, here⟩ := able i (by simp [split])
      cases found.symm.trans there
      obtain ⟨t, more, uses, named, trait, target⟩ := Inst.trait_of_isJump jump here
      rw [if_pos jump, target]
      change Gives (.ok (if BlockId.named? t = f.next? b then some before.length else none)) _
      rw [BlockId.named?, if_neg named]
      refine .of_ok fun position mem => ?_
      split at mem
      · rename_i next
        cases mem
        exact ⟨before, i, y, after, t, split, rfl, found, trait, all, next.symm⟩
      · cases mem
    · rw [if_neg jump]
      exact .of_ok fun _ mem => nomatch mem

private theorem hasTerminator_gives (except : Option Nat) (index : Nat) (able : f.AbleCode code) :
    Gives (hasTerminator f except index code) fun found => found = false →
      ∀ k i y, code[k]? = some i → f.inst i = .ok y → except ≠ some (index + k) →
        y.op.isTerminator = false := by
  induction code generalizing index with
  | nil => exact .of_ok fun _ k i y here => by simp at here
  | cons j code ih =>
    obtain ⟨z, there, -⟩ := able j List.mem_cons_self
    rw [hasTerminator, there]
    change Gives (if (decide (except ≠ some index) && z.op.isTerminator) = true then _ else _) _
    by_cases ends : (decide (except ≠ some index) && z.op.isTerminator) = true
    · rw [if_pos ends]
      exact .of_ok fun found => nomatch found
    · rw [if_neg ends]
      refine (ih (index + 1) (able.of_sub fun j hj => List.mem_cons_of_mem _ hj)).imp ?_
      intro found rest none k i y here found other
      cases k with
      | zero =>
        simp only [List.getElem?_cons_zero, Option.some.injEq] at here
        subst here
        cases there.symm.trans found
        simpa [show except ≠ some index from other] using ends
      | succ k =>
        refine rest none k i y (by simpa using here) found ?_
        rwa [Nat.add_assoc, Nat.add_comm 1 k]

private theorem leadingPhis_gives (able : f.AbleCode code) : Gives (f.leadingPhis code) fun ids =>
    ids <+: code ∧ ∀ i ∈ ids, ∃ y, f.inst i = .ok y ∧ y.op = .phi ∧ y.Able := by
  induction code with
  | nil => exact .of_ok ⟨List.nil_prefix, fun _ mem => nomatch mem⟩
  | cons i code ih =>
    obtain ⟨y, found, here⟩ := able i List.mem_cons_self
    rw [Procedure.leadingPhis, found]
    change Gives (if y.op = .phi then _ else _) _
    split
    · rename_i phi
      refine (ih (able.of_sub fun j hj => List.mem_cons_of_mem _ hj)).bind fun ids ⟨front, phis⟩ => ?_
      refine .of_ok ⟨(List.prefix_cons_inj i).mpr front, fun j mem => ?_⟩
      rcases List.mem_cons.mp mem with rfl | mem
      · exact ⟨y, found, phi, here⟩
      · exact phis j mem
    · exact .of_ok ⟨List.nil_prefix, fun _ mem => nomatch mem⟩

theorem phis_gives (live : (f.blockAt b).dead = false) (able : f.AbleCode (f.blockAt b).code) :
    Gives (f.phis b) fun ids => ids <+: (f.blockAt b).code ∧
      ∀ i ∈ ids, ∃ y, f.inst i = .ok y ∧ y.op = .phi ∧ y.Able := by
  unfold Procedure.phis
  rw [code_eq live]
  exact leadingPhis_gives able

private theorem gives_allM {α : Type} {k : α → Except Fault Bool} {l : List α}
    (step : ∀ a ∈ l, Gives (k a) fun _ => True) :
    Gives (l.allM k) fun r => l = [] → r = true := by
  induction l with
  | nil => exact .of_ok fun _ => rfl
  | cons a l ih =>
    rw [List.allM]
    refine (step a List.mem_cons_self).bind fun here _ => ?_
    cases here with
    | false => exact .of_ok fun none => nomatch none
    | true =>
      refine (ih fun a mem => step a (List.mem_cons_of_mem _ mem)).imp fun r _ none => nomatch none

private theorem phisAgree_gives (live : (f.blockAt x).dead = false) (able : f.AbleCode (f.blockAt x).code) :
    Gives (phisAgree f x t p) fun r => (∀ τ ∈ f.traits x, τ ≠ .inert) → r = true := by
  unfold phisAgree
  refine (phis_gives live able).bind fun ids ⟨front, phis⟩ => ?_
  refine (gives_allM fun i mem => ?_).imp fun r none real => none ?_
  · obtain ⟨y, found, -⟩ := phis i mem
    rw [found]
    dsimp only [bind, Except.bind]
    split <;> exact .of_ok trivial
  -- a phi would be inert
  refine List.eq_nil_iff_forall_not_mem.mpr fun i mem => ?_
  obtain ⟨y, found, phi, -⟩ := phis i mem
  refine real y.trait (mem_traitsOf.mpr ⟨i, front.subset mem, y, found, rfl⟩) ?_
  simp [Inst.trait, isJump, phi, Op.isDebug, Op.isTerminator]

/-- A branch to `t` is not led on where control may run past the end of the block into `t`; it is
led on at all other places if it goes to a block without phis. -/
theorem canRedirect_gives (liveP : (f.blockAt p).dead = false)
    (ableP : f.AbleCode (f.blockAt p).code) (liveX : (f.blockAt x).dead = false)
    (ableX : f.AbleCode (f.blockAt x).code) : Gives (canRedirect f p t x) fun r =>
      (r = true → p ≠ t ∧ (f.next? p = some t → Trait.runsOn (f.traits p) = false)) ∧
      (p ≠ t → (f.next? p = some t → Trait.runsOn (f.traits p) = false) →
        (∀ τ ∈ f.traits x, τ ≠ .inert) → r = true) := by
  unfold canRedirect
  split
  · rename_i same
    exact .of_ok ⟨fun yes => (nomatch yes), fun other => absurd same other⟩
  · rename_i other
    have falls : Gives (fallsInto f p t) fun r =>
        r = false ↔ (f.next? p = some t → Trait.runsOn (f.traits p) = false) := by
      unfold fallsInto
      split
      · rename_i next
        rw [mayFallThrough_eq liveP ableP]
        exact .of_ok ⟨fun no _ => no, fun no => no next⟩
      · rename_i away
        exact .of_ok ⟨fun _ next => absurd next away, fun _ => rfl⟩
    refine falls.bind fun r into => ?_
    cases r with
    | true => exact .of_ok ⟨fun yes => (nomatch yes), fun _ none => nomatch into.mpr none⟩
    | false =>
      refine (phisAgree_gives liveX ableX).imp fun r agree => ?_
      exact ⟨fun _ => ⟨other, into.mp rfl⟩, fun _ _ real => agree real⟩

/-- How a block leads to `s`, and that it leads nowhere else. -/
def Straight.Leads (how : Straight) (f : Procedure) (b s : BlockId) : Prop :=
  match how with
  | .falls => (∀ τ ∈ f.traits b, τ.isExit = false) ∧ f.next? b = some s
  | .jumps position => ∃ before i y after, (f.blockAt b).code = before ++ i :: after ∧
      before.length = position ∧ f.inst i = .ok y ∧ y.trait = .jump s ∧
        (∀ τ ∈ f.traitsOf after, τ.isDebug = true) ∧
        ∀ τ ∈ f.traitsOf (before ++ after), τ.isExit = false

private theorem ending?_gives (live : (f.blockAt b).dead = false) (able : f.AbleCode (f.blockAt b).code) :
    Gives (ending? f b s) fun found => ∀ position, found = some (.jumps position) →
      ∃ before i y after, (f.blockAt b).code = before ++ i :: after ∧ before.length = position ∧
        f.inst i = .ok y ∧ y.trait = .jump s ∧ ∀ τ ∈ f.traitsOf after, τ.isDebug = true := by
  unfold ending?
  rw [code_eq live]
  change Gives (last? f (f.blockAt b).code >>= _) _
  rcases last?_cases able with ⟨none, -⟩ | ⟨before, i, y, after, split, found, -, markers, last⟩
  · rw [none]
    exact .of_ok fun _ same => nomatch same
  · rw [last]
    change Gives (if isJump y = true then _ else _) _
    by_cases jump : isJump y = true
    · obtain ⟨z, there, here⟩ := able i (by simp [split])
      cases found.symm.trans there
      obtain ⟨t, more, uses, named, trait, target⟩ := Inst.trait_of_isJump jump here
      rw [if_pos jump, target]
      change Gives (.ok (if t = s then some (Straight.jumps before.length) else none)) _
      refine .of_ok fun position same => ?_
      split at same
      · rename_i leads
        cases same
        exact ⟨before, i, y, after, split, rfl, found, leads ▸ trait, markers⟩
      · cases same
    · rw [if_neg jump]
      exact .of_ok fun _ same => nomatch same

private theorem notExit_of_positions {before after : List InstId} {i : InstId}
    (h : ∀ k j y, (before ++ i :: after)[k]? = some j → f.inst j = .ok y → before.length ≠ k →
      y.op.isTerminator = false) : ∀ τ ∈ f.traitsOf (before ++ after), τ.isExit = false := by
  intro τ mem
  obtain ⟨j, hj, y, found, rfl⟩ := mem_traitsOf.mp mem
  rw [Inst.isExit_trait]
  rcases List.mem_append.mp hj with hj | hj
  · obtain ⟨k, low, here⟩ := List.mem_iff_getElem.mp hj
    refine h k j y ?_ found (by omega)
    rw [List.getElem?_append_left low, List.getElem?_eq_getElem low, here]
  · obtain ⟨k, low, here⟩ := List.mem_iff_getElem.mp hj
    refine h (before.length + 1 + k) j y ?_ found (by omega)
    rw [List.getElem?_append_right (by omega)]
    simp only [show before.length + 1 + k - before.length = k + 1 by omega,
      List.getElem?_cons_succ, List.getElem?_eq_getElem low, here]

private theorem straightTo?_gives (live : (f.blockAt b).dead = false) (able : f.AbleCode (f.blockAt b).code) :
    Gives (straightTo? f b s) fun found => ∀ how ∈ found, how.Leads f b s := by
  unfold straightTo?
  refine (ending?_gives (s := s) live able).bind fun found ends => ?_
  cases found with
  | none => exact .of_ok fun _ mem => nomatch mem
  | some how =>
    change Gives (do
      let x ← hasTerminator f how.position? 0 (← f.code b)
      if x = true then return none else _) _
    rw [code_eq live]
    refine (hasTerminator_gives how.position? 0 able).bind fun more rest => ?_
    cases more with
    | true => exact .of_ok fun _ mem => nomatch mem
    | false =>
      cases how with
      | jumps position =>
        refine .of_ok fun how mem => ?_
        cases mem
        obtain ⟨before, i, y, after, split, here, found, trait, markers⟩ := ends position rfl
        refine ⟨before, i, y, after, split, here, found, trait, markers, ?_⟩
        refine notExit_of_positions (i := i) fun k j y at_k found other => ?_
        refine rest rfl k j y (by rw [split]; exact at_k) found ?_
        simpa [Straight.position?, ← here] using other
      | falls =>
        refine .of_ok fun how mem => ?_
        split at mem
        · rename_i next
          cases mem
          refine ⟨fun τ mem => ?_, next⟩
          obtain ⟨j, hj, y, found, rfl⟩ := mem_traitsOf.mp mem
          obtain ⟨k, low, here⟩ := List.mem_iff_getElem.mp hj
          rw [Inst.isExit_trait]
          refine rest rfl k j y ?_ found (by simp [Straight.position?])
          rw [List.getElem?_eq_getElem low, here]
        · cases mem

/-- A block takes in a successor that it alone leads to and that it always reaches. -/
structure Absorbable (isEntry : BlockId → Bool) (f : Procedure) (b s : BlockId) (how : Straight) :
    Prop where
  succs : (f.blockAt b).succs = [s]
  other : s ≠ b
  inner : isEntry s = false
  preds : (f.blockAt s).preds = [b]
  leads : how.Leads f b s

theorem absorbable?_gives (isEntry : BlockId → Bool) (linked : f.Linked) (mem : b ∈ f.layout)
    (able : f.AbleCode (f.blockAt b).code) :
    Gives (absorbable? isEntry f b) fun found => ∀ r ∈ found, Absorbable isEntry f b r.1 r.2 := by
  have live := (linked.laid b).mp mem
  unfold absorbable?
  rw [block_of_live live]
  dsimp only [bind, Except.bind]
  split
  · rename_i s succs
    have edge : s ∈ (f.blockAt b).succs := by simp [succs]
    have entered : b ∈ (f.blockAt s).preds := (linked.mutual_ends b s).mp edge
    have liveS : (f.blockAt s).dead = false := by
      by_contra dead
      rw [(linked.removed s (by simpa using dead)).2.1] at entered
      cases entered
    split
    · exact .of_ok fun _ mem => absurd mem (Option.not_mem_none _)
    · rename_i different
      simp only [Bool.or_eq_true, decide_eq_true_eq, not_or, Bool.not_eq_true] at different
      have preds : f.preds s = .ok (f.blockAt s).preds := by
        unfold Procedure.preds
        rw [block_of_live liveS]
        rfl
      rw [preds]
      change Gives (if (f.blockAt s).preds.length ≠ 1 then _ else _) _
      split
      · exact .of_ok fun _ mem => absurd mem (Option.not_mem_none _)
      · rename_i one
        obtain ⟨p, single⟩ := List.length_eq_one_iff.mp (not_not.mp one)
        have same : p = b := by simpa [single, eq_comm] using entered
        refine (straightTo?_gives (s := s) live able).bind fun found leads => .of_ok fun r mem => ?_
        obtain ⟨how, there, rfl⟩ := Option.map_eq_some_iff.mp mem
        exact ⟨succs, different.1, different.2, same ▸ single, leads how there⟩
  · exact .of_ok fun _ mem => absurd mem (Option.not_mem_none _)

end Cleanup

end Predication
