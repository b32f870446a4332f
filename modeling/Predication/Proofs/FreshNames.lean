import Mathlib.Data.List.Perm.Subperm
import Predication.Conversion.Phis
import Predication.Proofs.Spelling
import Predication.Proofs.Yields

/-!
Names of registers that the converter adds. The numbers that are tried for a name go up without an end,
and a table has no more names than registers, so a name that is free comes up before the table could
have taken them all. Registers that had different names keep them beside any number of new ones.
-/

set_option autoImplicit false
set_option relaxedAutoImplicit false

namespace Predication.Procedure

/-- The search for a name that is not taken, from the number `n` on and without a bound. It ends with a
name after so many tries. -/
inductive Search (taken : Array String) : (n tries : Nat) → String → Prop
  | free {n : Nat} (new : "tmp." ++ toString n ∉ taken) : Search taken n 1 ("tmp." ++ toString n)
  | next {n tries : Nat} {name : String} (old : "tmp." ++ toString n ∈ taken)
      (later : Search taken (n + 1) tries name) : Search taken n (tries + 1) name

variable {taken : Array String}

private theorem Search.not_mem {n tries : Nat} {name : String} (h : Search taken n tries name) :
    name ∉ taken := by
  induction h with
  | free new => exact new
  | next old later ih => exact ih

private theorem exists_free_name (taken : Array String) (n : Nat) :
    ∃ m, n ≤ m ∧ m ≤ n + taken.size ∧ "tmp." ++ toString m ∉ taken := by
  by_contra none
  simp only [not_exists, not_and, not_not] at none
  have different : ((List.range' n (taken.size + 1)).map fun m => "tmp." ++ toString m).Nodup := by
    refine List.Nodup.map (fun m k same => ?_) List.nodup_range'
    have printed : m.repr = k.repr := (String.append_right_inj "tmp.").mp same
    rw [← (Cursor.bytesOf_repr m).2.2, printed, (Cursor.bytesOf_repr k).2.2]
  have all : ((List.range' n (taken.size + 1)).map fun m => "tmp." ++ toString m) ⊆ taken.toList := by
    intro name mem
    obtain ⟨m, range, rfl⟩ := List.mem_map.mp mem
    obtain ⟨low, high⟩ := List.mem_range'_1.mp range
    exact Array.mem_toList_iff.mpr (none m low (by omega))
  have many := (List.subperm_of_subset different all).length_le
  rw [List.length_map, List.length_range', Array.length_toList] at many
  omega

private theorem search_freshName {n tries : Nat}
    (free : ∃ m, n ≤ m ∧ m ≤ n + tries ∧ "tmp." ++ toString m ∉ taken) :
    ∃ k ≤ tries + 1, Search taken n k (freshName taken n tries) := by
  induction tries generalizing n with
  | zero =>
    obtain ⟨m, low, high, new⟩ := free
    obtain rfl : m = n := by omega
    exact ⟨1, le_rfl, .free new⟩
  | succ tries ih =>
    rw [freshName]
    by_cases old : "tmp." ++ toString n ∈ taken
    · obtain ⟨m, low, high, new⟩ := free
      have other : m ≠ n := fun same => new (same ▸ old)
      obtain ⟨k, bound, later⟩ := ih (n := n + 1) ⟨m, by omega, by omega, new⟩
      rw [if_pos old]
      exact ⟨k + 1, by omega, .next old later⟩
    · rw [if_neg old]
      exact ⟨1, by omega, .free old⟩

variable {f g h : Procedure}

/-- What becomes of a procedure to which registers without a name of their own are added, one at a
time and with any other changes in between that leave the table of registers alone. -/
inductive Enrolls : Procedure → Procedure → Prop
  | start (f : Procedure) : Enrolls f f
  | edit {f g h : Procedure} (before : Enrolls f g) (regs : h.regs = g.regs) : Enrolls f h
  | reg {f g : Procedure} (before : Enrolls f g) : Enrolls f (g.newReg "").1

theorem newReg_search (f : Procedure) : ∃ tries ≤ f.regs.size + 1, ∃ name,
    Search f.regs f.regs.size tries name ∧
      f.newReg "" = ({ f with regs := f.regs.push name }, (f.regs.size : Int)) := by
  obtain ⟨tries, bound, found⟩ := search_freshName (exists_free_name f.regs f.regs.size)
  exact ⟨tries, bound, _, found, rfl⟩

private theorem nodup_newReg (distinct : f.regs.toList.Nodup) : (f.newReg "").1.regs.toList.Nodup := by
  obtain ⟨tries, -, name, found, added⟩ := newReg_search f
  rw [added, Array.toList_push, List.nodup_append]
  refine ⟨distinct, List.nodup_singleton name, fun s old t new same => found.not_mem ?_⟩
  rw [← List.mem_singleton.mp new, ← same]
  exact Array.mem_toList_iff.mp old

private theorem Enrolls.nodup (added : Enrolls f g) (distinct : f.regs.toList.Nodup) :
    g.regs.toList.Nodup := by
  induction added with
  | start => exact distinct
  | edit before regs ih => rwa [regs]
  | reg before ih => exact nodup_newReg ih

end Predication.Procedure

namespace Predication.Conversion

open Predication.Conversion.Convert

private theorem enrolls_addSelect {st st' : State} {b : BlockId} {c : Condition} {x y : Operand} {r : Reg}
    (h : Yields (addSelect b c x y) st r st') :
    st.procedure.Enrolls st'.procedure ∧ r = st.procedure.regs.size := by
  obtain ⟨r', mid, first, h⟩ := yields_bind.mp h
  obtain ⟨f, added, rfl⟩ := yields_editWith.mp first
  obtain ⟨pos, mid, second, h⟩ := yields_bind.mp h
  obtain ⟨-, rfl⟩ := yields_query.mp second
  obtain ⟨done, mid, third, h⟩ := yields_bind.mp h
  obtain ⟨g, placed, rfl⟩ := yields_edit.mp third
  obtain ⟨rfl, rfl⟩ := yields_pure.mp h
  cases added
  obtain ⟨⟨g, i⟩, inserted, same⟩ := bind_ok_iff.mp placed
  cases same
  obtain ⟨k, standing, same⟩ := bind_ok_iff.mp inserted
  cases same
  obtain ⟨-, -, rfl⟩ := Procedure.placeAt_ok standing
  exact ⟨(Procedure.Enrolls.start st.procedure).reg.edit (Procedure.regs_mapBlock _ _ _), rfl⟩

/-- A register without a name of its own is numbered by the size of the table, and the search for its
name ends within one try more than there are registers, at a name that no other register has. However
many such registers are added, by selects or otherwise, distinct names stay distinct. -/
theorem newReg_distinct (f : Procedure) :
    (∃ tries ≤ f.regs.size + 1, ∃ name, Procedure.Search f.regs f.regs.size tries name ∧
      name ∉ f.regs ∧ f.newReg "" = ({ f with regs := f.regs.push name }, (f.regs.size : Int))) ∧
    (∀ (b : BlockId) (c : Condition) (x y : Operand) (r : Reg) (st st' : State), st.procedure = f →
      Yields (addSelect b c x y) st r st' → f.Enrolls st'.procedure ∧ r = f.regs.size) ∧
    (f.regs.toList.Nodup → ∀ g, f.Enrolls g → g.regs.toList.Nodup) := by
  refine ⟨?_, ?_, fun distinct g added => added.nodup distinct⟩
  · obtain ⟨tries, bound, name, found, added⟩ := Procedure.newReg_search f
    exact ⟨tries, bound, name, found, found.not_mem, added⟩
  · rintro b c x y r st st' rfl h
    exact enrolls_addSelect h

def crowded : Procedure where
  name := "crowded"
  regs := #["tmp.4", "tmp.2", "a", "tmp.5"]

theorem newReg_distinct_crowded :
    crowded.regs.toList.Nodup ∧
      (((crowded.newReg "").1.newReg "").1.regs = #["tmp.4", "tmp.2", "a", "tmp.5", "tmp.6", "tmp.7"]) ∧
      ((crowded.newReg "").1.newReg "").1.regs.toList.Nodup :=
  ⟨by decide, by decide +kernel, (newReg_distinct crowded).2.2 (by decide) _ (.reg (.reg (.start crowded)))⟩

end Predication.Conversion
