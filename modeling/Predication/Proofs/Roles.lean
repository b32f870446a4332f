import Mathlib.Data.List.TakeWhile
import Predication.Machine.Datapath
import Predication.Proofs.Meshes

/-!
Roles: what an instruction means for the edges of its block. Registers and conditions are left out,
so that reading one register in place of another changes no role. How a block ends, and what is left of
it when its branches are cut off, is said in terms of roles.
-/

set_option autoImplicit false
set_option relaxedAutoImplicit false

namespace Predication

/-- What an instruction means for the edges of its block. -/
inductive Role where
  /-- A phi takes values from `sources`. Its operands may come in pairs. -/
  | phi (sources : List BlockId) (defs : Nat) (paired : Bool)
  | debug
  | plain
  /-- Control may leave the block. Of a condition the signs of its terms are kept. -/
  | exit (op : Op) (guarded : Bool) (signs : List Bool) (targets : List BlockId)
  deriving Repr, DecidableEq

namespace Role

def isExit : Role → Bool
  | exit _ _ _ _ => true
  | _ => false

def isFreeBranch : Role → Bool
  | exit op guarded _ _ => op.isBranch && !guarded
  | _ => false

def isFreeTest : Role → Bool
  | exit .brc false _ _ => true
  | _ => false

end Role

/-- The role of an instruction. -/
def Inst.role (x : Inst) : Role :=
  if x.op = .phi then .phi x.sources x.defs.length (decide (x.uses.length % 2 = 0))
  else if x.op.isDebug then .debug
  else if x.op.isTerminator then .exit x.op x.isGuarded (x.cond.map Term.negated) x.targets
  else .plain

namespace Inst

variable {x : Inst}

theorem role_exit (exit : x.op.isTerminator = true) :
    x.role = .exit x.op x.isGuarded (x.cond.map Term.negated) x.targets := by
  have phi : x.op ≠ .phi := by
    intro op
    rw [op] at exit
    cases exit
  have debug : x.op.isDebug = false := by
    revert exit
    cases x.op <;> simp [Op.isTerminator, Op.isDebug]
  simp [role, phi, debug, exit]

theorem isExit_role : x.role.isExit = x.op.isTerminator := by
  unfold role
  cases x.op <;> simp [Role.isExit, Op.isDebug, Op.isTerminator]

theorem isFreeBranch_role (x : Inst) :
    x.role.isFreeBranch = !(x.isGuarded || decide (x.op ∉ [.br, .brc])) := by
  unfold role
  cases x.op <;> cases x.isGuarded <;>
    simp [Role.isFreeBranch, Op.isDebug, Op.isTerminator, Op.isBranch]

theorem isFreeTest_role (x : Inst) :
    x.role.isFreeTest = !(x.isGuarded || decide (x.op ∉ [.brc])) := by
  unfold role
  cases x.op <;> cases x.isGuarded <;> simp [Role.isFreeTest, Op.isDebug, Op.isTerminator]

end Inst

def dropLastIf (p : Role → Bool) (l : List Role) : List Role :=
  match l.getLast? with
  | some r => if p r then l.dropLast else l
  | none => l

def cut (l : List Role) : List Role :=
  match l.getLast? with
  | some r =>
    if r.isFreeBranch then dropLastIf Role.isFreeTest l.dropLast else l
  | none => l

theorem dropLastIf_of_last {p : Role → Bool} {l : List Role} (h : ∀ r ∈ l.getLast?, p r = false) :
    dropLastIf p l = l := by
  unfold dropLastIf
  split
  · rename_i r last
    rw [h r last, if_neg Bool.false_ne_true]
  · rfl

theorem cut_of_last {l : List Role} (h : ∀ r ∈ l.getLast?, r.isFreeBranch = false) : cut l = l := by
  unfold cut
  split
  · rename_i r last
    rw [h r last, if_neg Bool.false_ne_true]
  · rfl

namespace Procedure

def roleAt (f : Procedure) (i : InstId) : Option Role := (f.inst? i).map Inst.role

def roles (f : Procedure) (b : BlockId) : List Role := (f.blockAt b).code.filterMap f.roleAt

variable {f g : Procedure} {b : BlockId} {i : InstId} {r : Role} {x : Inst}

theorem roleAt_eq_some : f.roleAt i = some r ↔ ∃ x, f.inst i = .ok x ∧ x.role = r := by
  simp only [roleAt, Option.map_eq_some_iff, inst?_eq_some]

theorem roleAt_of_inst (h : f.inst i = .ok x) : f.roleAt i = some x.role :=
  roleAt_eq_some.mpr ⟨x, h, rfl⟩

theorem roleAt_congr (h : g.inst i = f.inst i) : g.roleAt i = f.roleAt i := by
  unfold roleAt inst?
  rw [h]

@[simp] theorem roleAt_setCode (f : Procedure) (b : BlockId) (code : List InstId) (i : InstId) :
    (f.setCode b code).roleAt i = f.roleAt i :=
  roleAt_congr (inst_setCode f b code i)

theorem roles_setCode {blk : Block} (found : f.block b = .ok blk) (code : List InstId) (c : BlockId) :
    (f.setCode b code).roles c = if c = b then code.filterMap f.roleAt else f.roles c := by
  unfold roles
  rw [code_setCode found, List.filterMap_congr fun i _ => roleAt_setCode f b code i]
  split <;> rfl

end Procedure

end Predication
