import Predication.Proofs.Roles

/-!
How blocks end. What the analysis of a branch looks at, what is left when branches are cut off, and
where control may go from the code of a block.
-/

set_option autoImplicit false
set_option relaxedAutoImplicit false

namespace Predication

namespace Datapath

variable {f g : Procedure} {b : BlockId}

theorem terminal_eq {code : List InstId} (found : ∀ i ∈ code, ∃ x, f.inst i = .ok x) :
    ∃ before rest, code = before ++ rest ∧ terminal f code = .ok rest ∧
      rest.filterMap f.inst? = (code.filterMap f.inst?).dropWhile fun x => !x.op.isTerminator := by
  induction code with
  | nil => exact ⟨[], [], rfl, rfl, rfl⟩
  | cons i code ih =>
    obtain ⟨x, hx⟩ := found i List.mem_cons_self
    have here := Procedure.inst?_eq_some.mpr hx
    have step : terminal f (i :: code) =
        if x.op.isTerminator then .ok (i :: code) else terminal f code := by
      rw [terminal, hx]
      rfl
    rw [List.filterMap_cons_some here, List.dropWhile_cons]
    cases op : x.op.isTerminator with
    | true =>
      rw [step, op]
      exact ⟨[], i :: code, rfl, rfl, by simp [List.filterMap_cons_some here]⟩
    | false =>
      obtain ⟨before, rest, rfl, done, insts⟩ := ih fun j hj => found j (List.mem_cons_of_mem i hj)
      rw [step, op]
      exact ⟨i :: before, rest, rfl, done, insts⟩

theorem terminators?_eq {ids : List InstId} (found : ∀ i ∈ ids, ∃ x, f.inst i = .ok x) :
    terminators? f ids = .ok
      (let ts := (ids.filterMap f.inst?).filter fun x => !x.op.isDebug
       if ts.all fun x => x.op.isTerminator && !x.isGuarded then some ts else none) := by
  induction ids with
  | nil => rfl
  | cons i ids ih =>
    obtain ⟨x, hx⟩ := found i List.mem_cons_self
    have rest := ih fun j hj => found j (List.mem_cons_of_mem i hj)
    have step : terminators? f (i :: ids) =
        if x.op.isDebug then terminators? f ids
        else if !x.op.isTerminator || x.isGuarded then .ok none
        else (terminators? f ids).map (·.map (x :: ·)) := by
      rw [terminators?, hx]
      change (if x.op.isDebug then terminators? f ids
        else if !x.op.isTerminator || x.isGuarded then .ok none
        else (terminators? f ids >>= fun r => .ok (r.map (x :: ·)))) = _
      rw [rest]
      rfl
    rw [step, rest, List.filterMap_cons_some (Procedure.inst?_eq_some.mpr hx)]
    by_cases debug : x.op.isDebug = true
    · simp [debug]
    · by_cases term : (!x.op.isTerminator || x.isGuarded) = true
      · rw [if_neg debug, if_pos term]
        have : (x.op.isTerminator && !x.isGuarded) = false := by
          revert term
          cases x.op.isTerminator <;> cases x.isGuarded <;> simp
        simp [debug, this]
      · rw [if_neg debug, if_neg term]
        have : (x.op.isTerminator && !x.isGuarded) = true := by
          revert term
          cases x.op.isTerminator <;> cases x.isGuarded <;> simp
        simp only [List.filter_cons, debug, Bool.not_false, if_true, List.all_cons, this,
          Bool.true_and]
        split <;> rfl

private theorem getLast?_roles {code : List InstId} (found : ∀ i ∈ code, ∃ r, f.roleAt i = some r) :
    (code.filterMap f.roleAt).getLast? = code.getLast?.bind f.roleAt ∧
      (code.filterMap f.roleAt).dropLast = code.dropLast.filterMap f.roleAt := by
  rcases List.eq_nil_or_concat code with rfl | ⟨l, i, rfl⟩
  · exact ⟨rfl, rfl⟩
  · obtain ⟨r, role⟩ := found i (by simp)
    simp [List.filterMap_append, role]

/-- The last instruction goes if `p` tells by its role that it is a plain one with one of the given
operations. -/
private theorem dropLast?_ok {ops : List Op} {r : Option Procedure} {p : Role → Bool}
    (wanted : ∀ x : Inst, p x.role = !(x.isGuarded || decide (x.op ∉ ops)))
    (found : ∀ i ∈ (f.blockAt b).code, ∃ r, f.roleAt i = some r) (h : dropLast? f b ops = .ok r) :
    f.block b = .ok (f.blockAt b) ∧
      ((r = none ∧ ∀ s ∈ (f.roles b).getLast?, p s = false) ∨
        (r = some (f.setCode b (f.blockAt b).code.dropLast) ∧
          ∃ s ∈ (f.roles b).getLast?, p s = true)) := by
  obtain ⟨code, asked, h⟩ := bind_ok_iff.mp h
  obtain ⟨block, rfl⟩ := Procedure.code_ok.mp asked
  refine ⟨block, ?_⟩
  have view := (getLast?_roles found).1
  rw [Procedure.roles, view]
  cases last : (f.blockAt b).code.getLast? with
  | none =>
    rw [last] at h
    cases h
    exact Or.inl ⟨rfl, fun s hs => by cases hs⟩
  | some i =>
    rw [last] at h
    obtain ⟨x, hx, h⟩ := bind_ok_iff.mp h
    rw [Option.bind_some, Procedure.roleAt_of_inst hx]
    by_cases plain : (x.isGuarded || decide (x.op ∉ ops)) = true
    · rw [if_pos plain] at h
      cases h
      refine Or.inl ⟨rfl, fun s hs => ?_⟩
      cases hs
      rw [wanted, plain]
      rfl
    · rw [if_neg plain] at h
      obtain ⟨g, erased, h⟩ := bind_ok_iff.mp h
      cases h
      obtain ⟨-, -, -, rfl⟩ := Procedure.eraseCode_ok erased
      refine Or.inr ⟨?_, x.role, rfl, ?_⟩
      · have length := List.length_pos_iff.mpr (List.ne_nil_of_mem (List.mem_of_getLast? last))
        have index : ((f.blockAt b).code.length - 1 : Int).toNat = (f.blockAt b).code.length - 1 := by
          omega
        rw [index, Int.toNat_natCast, List.drop_length, List.append_nil, List.dropLast_eq_take]
      · rw [wanted, Bool.eq_false_iff.mpr plain]
        rfl

/-- The branches at the end go, and what stays is the front of the code. -/
theorem removeBranch_ok {n : Nat} (found : ∀ i ∈ (f.blockAt b).code, ∃ r, f.roleAt i = some r)
    (h : removeBranch f b = .ok (g, n)) :
    f.block b = .ok (f.blockAt b) ∧ ∃ l, l <+: (f.blockAt b).code ∧ g = f.setCode b l ∧
      l.filterMap f.roleAt = cut (f.roles b) := by
  obtain ⟨first, dropped, h⟩ := bind_ok_iff.mp h
  obtain ⟨block, ⟨rfl, other⟩ | ⟨rfl, s, hs, free⟩⟩ := dropLast?_ok Inst.isFreeBranch_role found dropped
  · cases h
    refine ⟨block, _, List.prefix_rfl, (Procedure.setCode_self block).symm, ?_⟩
    exact (cut_of_last other).symm
  · have found' : ∀ i ∈ (f.blockAt b).code.dropLast, ∃ r, f.roleAt i = some r := fun i hi =>
      found i (List.dropLast_subset _ hi)
    have rest : cut (f.roles b) =
        dropLastIf Role.isFreeTest ((f.blockAt b).code.dropLast.filterMap f.roleAt) := by
      rw [cut, hs]
      simp only [free, if_true]
      rw [Procedure.roles, (getLast?_roles found).2]
    rw [rest]
    generalize hl : (f.blockAt b).code.dropLast = l at *
    have sub : l <+: (f.blockAt b).code := hl ▸ List.dropLast_prefix _
    have code : ((f.setCode b l).blockAt b).code = l := by
      rw [Procedure.code_setCode block, if_pos rfl]
    have roles : (f.setCode b l).roles b = l.filterMap f.roleAt := by
      rw [Procedure.roles_setCode block, if_pos rfl]
    obtain ⟨second, dropped', h⟩ := bind_ok_iff.mp h
    obtain ⟨-, last⟩ := dropLast?_ok Inst.isFreeTest_role (by simpa [code] using found') dropped'
    rw [roles] at last
    rcases last with ⟨rfl, other⟩ | ⟨rfl, s, hs', test⟩
    · cases h
      exact ⟨block, l, sub, rfl, (dropLastIf_of_last other).symm⟩
    · cases h
      refine ⟨block, l.dropLast, (List.dropLast_prefix l).trans sub, ?_, ?_⟩
      · rw [code, Procedure.setCode_setCode]
      · rw [dropLastIf, hs', ← (getLast?_roles found').2]
        simp only [test, if_true]

end Datapath

/-- Where the branches of some code lead up to the first instruction that ends the flow, and whether
control gets past its end. -/
def flowOf : List Inst → List BlockId × Bool
  | [] => ([], true)
  | x :: rest =>
    if x.endsFlow then (x.targets, false) else (x.targets ++ (flowOf rest).1, (flowOf rest).2)

theorem Inst.endsFlow_eq_false {x : Inst} (h : x.op.isTerminator = false) : x.endsFlow = false := by
  unfold Inst.endsFlow
  cases op : x.op <;> simp_all [Op.isTerminator]

namespace Procedure

variable {f : Procedure} {b : BlockId}

theorem flowTargets_eq {code : List InstId} (found : ∀ i ∈ code, ∃ x, f.inst i = .ok x) :
    f.flowTargets code = .ok (flowOf (code.filterMap f.inst?)) := by
  induction code with
  | nil => rfl
  | cons i code ih =>
    obtain ⟨x, hx⟩ := found i List.mem_cons_self
    rw [flowTargets, hx, List.filterMap_cons_some (inst?_eq_some.mpr hx), flowOf]
    change (if x.endsFlow = true then pure (x.targets, false) else
      f.flowTargets code >>= fun r => pure (x.targets ++ r.1, r.2)) = _
    rw [ih fun j hj => found j (List.mem_cons_of_mem i hj)]
    split <;> rfl

end Procedure

end Predication
