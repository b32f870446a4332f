import Predication.Proofs.WellFormed

/-!
The inputs of a phi as operands. They are read from pairs of operands and written back, and another
register in an operand leaves the blocks as they are.
-/

set_option autoImplicit false
set_option relaxedAutoImplicit false

namespace Predication

namespace PhiInput

theorem ofUses_toUses (l : List PhiInput) : ofUses (toUses l) = l := by
  induction l with
  | nil => rfl
  | cons x l ih =>
    change ofUses (x.value :: x.label :: toUses l) = _
    rw [ofUses, ih]

theorem length_toUses (l : List PhiInput) : (toUses l).length = 2 * l.length := by
  induction l with
  | nil => rfl
  | cons x l ih =>
    change (x.value :: x.label :: toUses l).length = _
    simp only [List.length_cons, ih]
    omega

theorem ofUses_append {uses : List Operand} (even : uses.length % 2 = 0) (v b : Operand) :
    ofUses (uses ++ [v, b]) = ofUses uses ++ [⟨v, b⟩] := by
  fun_induction ofUses uses with
  | case1 w c rest ih =>
    simp only [List.length_cons] at even
    rw [List.cons_append, List.cons_append, ofUses, ih (by omega), List.cons_append]
  | case2 => simp at even
  | case3 => rfl

private theorem ofUses_map (h : Operand → Operand) (uses : List Operand) :
    ofUses (uses.map h) = (ofUses uses).map fun y => ⟨h y.value, h y.label⟩ := by
  fun_induction ofUses uses with
  | case1 v b rest ih => simp [ofUses, ih]
  | case2 => rfl
  | case3 => rfl

end PhiInput

namespace Operand

/-- The instruction with `σ r` read in place of each register `r`. -/
def reread (σ : Reg → Reg) : Operand → Operand
  | .reg r label => .reg (σ r) label
  | u => u

theorem block?_reread (σ : Reg → Reg) (u : Operand) : (u.reread σ).block? = u.block? := by
  cases u <;> rfl

theorem blockId_reread (σ : Reg → Reg) (u : Operand) : (u.reread σ).blockId = u.blockId := by
  cases u <;> rfl

theorem reread_reread (σ τ : Reg → Reg) (u : Operand) :
    (u.reread σ).reread τ = u.reread (τ ∘ σ) := by
  cases u <;> rfl

theorem reread_id (u : Operand) : u.reread id = u := by cases u <;> rfl

theorem renameReg_eq (d r : Reg) : renameReg d r = reread fun q => if q = d then r else q := by
  funext u
  cases u with
  | reg q label =>
    simp only [renameReg, reread]
    split <;> rfl
  | imm | block => rfl

end Operand

namespace Inst

/-- The instruction with `σ r` read in place of each register `r`. -/
def reread (σ : Reg → Reg) (x : Inst) : Inst :=
  { x with
    uses := x.uses.map (Operand.reread σ)
    cond := x.cond.map fun t => { t with reg := σ t.reg }
    guard := x.guard.map fun t => { t with reg := σ t.reg }
    implicits := x.implicits.map σ }

theorem renameReads_eq (d r : Reg) (x : Inst) :
    x.renameReads d r = x.reread fun q => if q = d then r else q := by
  have term : Term.rename d r = fun t => { t with reg := if t.reg = d then r else t.reg } := by
    funext t
    unfold Term.rename
    split <;> rfl
  rw [renameReads, reread, term, Operand.renameReg_eq]

theorem reread_reread (σ τ : Reg → Reg) (x : Inst) :
    (x.reread σ).reread τ = x.reread (τ ∘ σ) := by
  simp only [reread, List.map_map, Function.comp_def, Operand.reread_reread]

theorem reread_id (x : Inst) : x.reread id = x := by
  have uses : Operand.reread id = id := funext Operand.reread_id
  simp [reread, uses]

theorem phiInputs_reread (σ : Reg → Reg) (x : Inst) : (x.reread σ).phiInputs =
    x.phiInputs.map fun p => ⟨p.value.reread σ, p.label.reread σ⟩ :=
  PhiInput.ofUses_map _ _

theorem sources_reread (σ : Reg → Reg) (x : Inst) : (x.reread σ).sources = x.sources := by
  simp [sources, phiInputs_reread, PhiInput.source, Operand.blockId_reread]

theorem phiValue?_reread (σ : Reg → Reg) (x : Inst) (b : BlockId) :
    (x.reread σ).phiValue? b = (x.phiValue? b).map (Operand.reread σ) := by
  unfold phiValue?
  rw [phiInputs_reread, List.find?_map, Option.map_map, Option.map_map]
  simp only [Function.comp_def, PhiInput.source, Operand.blockId_reread]
  rfl

theorem phiValue?_isSome {x : Inst} {b : BlockId} : (x.phiValue? b).isSome = true ↔ b ∈ x.sources := by
  simp [phiValue?, sources]

end Inst

end Predication
