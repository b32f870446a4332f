import Predication.Proofs.SharedEnds

/-!
How much two blocks have in common. The count of what they start with goes on as long as it can, and
so does the count of what they end with, between the former and the branches at the end. A later walk
that counts instructions from either end comes to positions that do not cross.
-/

set_option autoImplicit false
set_option relaxedAutoImplicit false

namespace Predication.Procedure

variable (f : Procedure)

/-- The instructions that some code is made of are all there. -/
def Found (code : List InstId) : Prop := ∀ i ∈ code, ∃ x, f.inst i = .ok x

/-- Two pieces of code start with so many instructions in common, none of them a branch. -/
structure StartAlike (a b : List InstId) (n : Nat) : Prop where
  left : n ≤ (f.liveOf a).length
  right : n ≤ (f.liveOf b).length
  same : (f.liveOf a).take n = (f.liveOf b).take n
  plain : ∀ x ∈ (f.liveOf a).take n, x.op.isBranch = false

/-- Two pieces of code end with so many instructions in common, behind the first `n`. -/
structure EndAlike (n : Nat) (a b : List InstId) (m : Nat) : Prop where
  left : n + m ≤ (f.liveOf a).length
  right : n + m ≤ (f.liveOf b).length
  same : (f.liveOf a).drop ((f.liveOf a).length - m) = (f.liveOf b).drop ((f.liveOf b).length - m)

/-- The code is `body` and behind it branches only, all of them behind the first `n` instructions. -/
structure Strips (n : Nat) (code body exits : List InstId) : Prop where
  code : code = body ++ exits
  branches : ∀ i ∈ exits, ∃ x, f.inst i = .ok x ∧ x.op.isBranch = true
  behind : n ≤ (f.liveOf body).length

def Stripped (n : Nat) (code body : List InstId) : Prop :=
  ∃ exits, f.Strips n code body exits ∧
    ∀ body' exits', f.Strips n code body' exits' → exits' <:+ exits

/-- The positions behind the first `n` instructions and before the last `m` are found, lie within the
code and do not cross. -/
def Marked (code : List InstId) (n m : Nat) : Prop :=
  ∃ i j : Nat, Conversion.leading f code n 0 = .ok i ∧
    Conversion.trailing f code m code.length = .ok (j : Int) ∧ i ≤ j ∧ j ≤ code.length ∧
    (f.liveOf (code.take i)).length = n ∧ (f.liveOf (code.drop j)).length = m

/-- Two pieces of code have the first `n` instructions in common, up to a branch, and no more. Without
the branches that they end with they have the last `m` in common, beside the first `n`, and no more, and
the positions behind the first and before the last ones are found in them. -/
structure Counted (a b : List InstId) (n m : Nat) : Prop where
  starts : f.StartAlike a b n
  startsMost : ∀ k, f.StartAlike a b k → k ≤ n
  ends : ∃ bodyA bodyB, f.Stripped n a bodyA ∧ f.Stripped n b bodyB ∧
    f.EndAlike n bodyA bodyB m ∧ (∀ k, f.EndAlike n bodyA bodyB k → k ≤ m) ∧
    f.Marked bodyA n m ∧ f.Marked bodyB n m

def Diverging (stops : Inst → Bool) (xs ys : List Inst) : Prop :=
  ∀ x ∈ xs.head?, ∀ y ∈ ys.head?, stops x = true ∨ x ≠ y

variable {f}

private theorem Found.append {a b : List InstId} : f.Found (a ++ b) ↔ f.Found a ∧ f.Found b :=
  List.forall_mem_append

private theorem Found.suffix {a b : List InstId} (h : f.Found a) (sub : b <:+ a) : f.Found b :=
  fun i mem => h i (sub.subset mem)

private theorem Diverging.bound {stops : Inst → Bool} {xs la lb : List Inst} {m : Nat}
    (h : Diverging stops la lb) (left : m ≤ (xs ++ la).length) (right : m ≤ (xs ++ lb).length)
    (same : (xs ++ la).take m = (xs ++ lb).take m)
    (free : ∀ x ∈ (xs ++ la).take m, stops x = false) : m ≤ xs.length := by
  by_contra beyond
  obtain ⟨k, rfl⟩ : ∃ k, m = xs.length + (k + 1) := ⟨m - xs.length - 1, by omega⟩
  rw [List.take_length_add_append] at same free
  rw [List.take_length_add_append, List.append_cancel_left_eq] at same
  rw [List.length_append] at left right
  cases la with
  | nil => exact absurd left (by simp)
  | cons x la =>
    cases lb with
    | nil => exact absurd right (by simp)
    | cons y lb =>
      rw [List.take_succ_cons, List.take_succ_cons] at same
      have plain := free x (by simp)
      rcases h x rfl y rfl with stop | differ
      · exact absurd (stop.symm.trans plain) (by simp)
      · exact differ (List.cons.inj same).1

end Predication.Procedure

namespace Predication.Conversion

open Procedure

variable {f : Procedure} {a b code : List InstId}

private theorem dropDebug_gives (found : f.Found code) : ∃ rest, dropDebug f code = .ok rest := by
  induction code with
  | nil => exact ⟨[], rfl⟩
  | cons i code ih =>
    obtain ⟨⟨x, here⟩, later⟩ := List.forall_mem_cons.mp found
    obtain ⟨rest, dropped⟩ := ih later
    by_cases debug : x.op.isDebug
    · exact ⟨rest, bind_ok_iff.mpr ⟨x, here, by rw [if_pos debug]; exact dropped⟩⟩
    · exact ⟨i :: code, bind_ok_iff.mpr ⟨x, here, by rw [if_neg debug]; rfl⟩⟩

private theorem dropBranches_gives (found : f.Found code) :
    ∃ exits rest, dropBranches f code = .ok rest ∧ code = exits ++ rest ∧
      (∀ i ∈ exits, ∃ x, f.inst i = .ok x ∧ x.op.isBranch = true) ∧
      ∀ i ∈ rest.head?, ∃ x, f.inst i = .ok x ∧ x.op.isBranch = false := by
  induction code with
  | nil => exact ⟨[], [], rfl, rfl, by simp, by simp⟩
  | cons i code ih =>
    obtain ⟨⟨x, here⟩, later⟩ := List.forall_mem_cons.mp found
    by_cases branch : x.op.isBranch
    · obtain ⟨exits, rest, dropped, rfl, branches, stop⟩ := ih later
      refine ⟨i :: exits, rest, bind_ok_iff.mpr ⟨x, here, by rw [if_pos branch]; exact dropped⟩, rfl,
        List.forall_mem_cons.mpr ⟨⟨x, here, branch⟩, branches⟩, stop⟩
    · refine ⟨[], i :: code, bind_ok_iff.mpr ⟨x, here, by rw [if_neg branch]; rfl⟩, rfl, by simp, ?_⟩
      intro j mem
      cases mem
      exact ⟨x, here, by simpa using branch⟩

private theorem commonRun_gives (stops : Inst → Bool) (foundA : f.Found a) (foundB : f.Found b) :
    ∃ n restA restB, commonRun f stops a b = .ok (n, restA, restB) ∧
      Diverging stops (f.liveOf restA) (f.liveOf restB) := by
  induction a, b using commonRun.induct with
  | case1 b =>
    obtain ⟨rest, dropped⟩ := dropDebug_gives foundB
    exact ⟨0, [], rest, by rw [commonRun]; exact bind_ok_iff.mpr ⟨rest, dropped, rfl⟩,
      by simp [Diverging]⟩
  | case2 i a =>
    obtain ⟨rest, dropped⟩ := dropDebug_gives foundA
    exact ⟨0, rest, [], by rw [commonRun]; exact bind_ok_iff.mpr ⟨rest, dropped, rfl⟩,
      by simp [Diverging]⟩
  | case3 i a j b skipA skipB both =>
    obtain ⟨⟨x, hereA⟩, laterA⟩ := List.forall_mem_cons.mp foundA
    obtain ⟨⟨y, hereB⟩, laterB⟩ := List.forall_mem_cons.mp foundB
    rw [commonRun, hereA, hereB]
    simp only [bind, Except.bind]
    split
    · exact skipA laterA foundB
    · rename_i realA
      split
      · exact skipB foundA laterB
      · rename_i realB
        split
        · rename_i stop
          refine ⟨0, _, _, rfl, ?_⟩
          rw [liveOf_real hereA (by simpa using realA), liveOf_real hereB (by simpa using realB)]
          simpa [Diverging] using stop
        · obtain ⟨n, restA, restB, counted, parted⟩ := both laterA laterB
          exact ⟨n + 1, restA, restB, by rw [counted]; rfl, parted⟩

private theorem leading_gives (found : f.Found code) (n i : Nat) : ∃ j, leading f code n i = .ok j := by
  induction n generalizing i with
  | zero => exact ⟨i, rfl⟩
  | succ n ih =>
    obtain ⟨rest, dropped⟩ := dropDebug_gives (found.suffix (List.drop_suffix i code))
    obtain ⟨j, led⟩ := ih (i + ((code.drop i).length - rest.length) + 1)
    exact ⟨j, bind_ok_iff.mpr ⟨rest, dropped, led⟩⟩

private theorem trailing_gives (found : f.Found code) (n : Nat) (stop : Int) :
    ∃ j, trailing f code n stop = .ok j := by
  induction n generalizing stop with
  | zero => exact ⟨stop, rfl⟩
  | succ n ih =>
    have found' : f.Found (code.take stop.toNat).reverse :=
      fun i mem => found i (List.mem_of_mem_take (List.mem_reverse.mp mem))
    obtain ⟨rest, dropped⟩ := dropDebug_gives found'
    obtain ⟨j, trailed⟩ := ih (stop - (((code.take stop.toNat).reverse.length : Int) - rest.length) - 1)
    exact ⟨j, bind_ok_iff.mpr ⟨rest, dropped, trailed⟩⟩

/-- Positions that are counted from both ends do not cross where there are enough instructions. -/
private theorem marked {n m : Nat} (found : f.Found code) (enough : n + m ≤ (f.liveOf code).length) :
    f.Marked code n m := by
  obtain ⟨i, led⟩ := leading_gives found n 0
  obtain ⟨j, trailed⟩ := trailing_gives found m code.length
  obtain ⟨front, back, split, rfl, count, last⟩ := leading_ok led (by rw [List.drop_zero]; omega)
  obtain ⟨front', back', split', rfl, count'⟩ := trailing_ok trailed (by omega) (by
    rw [Int.toNat_natCast, List.take_length]
    omega)
  rw [List.drop_zero] at split
  rw [Int.toNat_natCast, List.take_length] at split'
  have whole := congrArg (fun l => (f.liveOf l).length) split'
  simp only [liveOf_append, List.length_append] at whole
  refine ⟨0 + front.length, front'.length, led, trailed, ?_, ?_, ?_, ?_⟩
  · rcases List.prefix_or_prefix_of_prefix (⟨back, split.symm⟩ : front <+: code)
      (⟨back', split'.symm⟩ : front' <+: code) with inside | ⟨more, rfl⟩
    · rw [Nat.zero_add]
      exact inside.length_le
    · -- the first part ends in an instruction that counts, so it cannot be the longer one
      rcases List.eq_nil_or_concat more with rfl | ⟨more, k, rfl⟩
      · simp
      · obtain ⟨x, here, real⟩ := last k (by simp)
        rw [List.concat_eq_append, liveOf_append, liveOf_append, liveOf_real here real] at count
        simp only [List.length_append, List.length_cons] at count
        omega
  · rw [split', List.length_append]
    omega
  · rw [Nat.zero_add, split, List.take_left, count]
  · rw [split', List.drop_left, count']

/-- What is left of a piece of code when the branches at its end are dropped. No branch stands among
the instructions `xs` before `rest`, so these branches are all that the code ends with. -/
private theorem stripped_dropBranches {rest : List InstId} {xs : List Inst} (found : f.Found code)
    (sub : rest <:+ code) (live : f.liveOf code = xs ++ f.liveOf rest)
    (plain : ∀ x ∈ xs, x.op.isBranch = false) :
    ∃ mid body, dropBranches f rest.reverse = .ok mid.reverse ∧ f.Found mid ∧ f.Found body ∧
      f.liveOf body = xs ++ f.liveOf mid ∧ f.Stripped xs.length code body := by
  obtain ⟨pre, rfl⟩ := sub
  have before : f.liveOf pre = xs := by
    rw [liveOf_append] at live
    exact List.append_cancel_right live
  have found' : f.Found rest.reverse :=
    fun i mem => found i (List.mem_append_right pre (List.mem_reverse.mp mem))
  obtain ⟨exits, mid, dropped, split, branches, stop⟩ := dropBranches_gives found'
  have split : rest = mid.reverse ++ exits.reverse := by
    rw [← List.reverse_append, ← split, List.reverse_reverse]
  subst split
  rw [← List.append_assoc] at found ⊢
  have inside := (Found.append.mp found).1
  refine ⟨mid.reverse, pre ++ mid.reverse, by rwa [List.reverse_reverse], (Found.append.mp inside).2,
    inside, by rw [liveOf_append, before], exits.reverse, ⟨rfl, ?_, ?_⟩, ?_⟩
  · exact fun i mem => branches i (List.mem_reverse.mp mem)
  · rw [liveOf_append, before, List.length_append]
    omega
  · intro body' exits' other
    rcases List.suffix_or_suffix_of_suffix (⟨body', other.code.symm⟩ : exits' <:+ _)
      (⟨pre ++ mid.reverse, by simp⟩ : exits.reverse <:+ _) with inside | ⟨more, same⟩
    · exact inside
    · -- one more branch would stand where the dropping stopped, or among the first instructions
      rcases List.eq_nil_or_concat more with rfl | ⟨more, k, rfl⟩
      · exact same ▸ List.suffix_rfl
      obtain ⟨x, here, branch⟩ := other.branches k (by rw [← same]; simp)
      have code := other.code
      rw [← same, List.concat_eq_append, ← List.append_assoc, ← List.append_assoc] at code
      have ends := List.append_cancel_right code
      cases mid with
      | nil =>
        rw [List.reverse_nil, List.append_nil] at ends
        rw [ends, liveOf_append, liveOf_real here (isDebug_of_isBranch branch)] at before
        have plain := plain x (by rw [← before]; simp)
        exact absurd (branch.symm.trans plain) (by simp)
      | cons l mid =>
        rw [List.reverse_cons, ← List.append_assoc] at ends
        obtain ⟨-, last⟩ := List.append_inj' ends rfl
        cases last
        obtain ⟨y, there, none⟩ := stop k rfl
        cases here.symm.trans there
        exact absurd (branch.symm.trans none) (by simp)

private theorem take_back {xs body mid ws : List Inst} {k : Nat} (split : body = xs ++ mid)
    (back : mid.reverse = ws) (few : xs.length + k ≤ body.length) :
    ws.length + xs.length = body.length ∧
      ws.take k = (body.drop (body.length - k)).reverse := by
  subst split back
  rw [List.length_append] at few
  refine ⟨by simp [Nat.add_comm], ?_⟩
  rw [← List.take_reverse, List.reverse_append, List.take_append_of_le_length (by simp; omega)]

/-- What two blocks have in common at their ends is counted exactly. -/
theorem sharedCode_exact {a b : BlockId} {codeA codeB : List InstId}
    (hasA : f.code a = .ok codeA) (hasB : f.code b = .ok codeB)
    (foundA : f.Found codeA) (foundB : f.Found codeB) :
    ∃ n m, sharedCode f a b = .ok (n, m) ∧ f.Counted codeA codeB n m := by
  obtain ⟨n, restA, restB, counted, parted⟩ := commonRun_gives (fun i => i.op.isBranch) foundA foundB
  obtain ⟨xs, rfl, plain, liveA, liveB, subA, subB⟩ := commonRun_ok counted
  obtain ⟨midA, bodyA, droppedA, foundA, insideA, bodyLiveA, strippedA⟩ :=
    stripped_dropBranches foundA subA liveA plain
  obtain ⟨midB, bodyB, droppedB, foundB, insideB, bodyLiveB, strippedB⟩ :=
    stripped_dropBranches foundB subB liveB plain
  obtain ⟨m, backA, backB, counted', parted'⟩ := commonRun_gives (f := f) (fun _ => false)
    (fun i mem => foundA i (List.mem_reverse.mp mem)) (fun i mem => foundB i (List.mem_reverse.mp mem))
  obtain ⟨ys, rfl, -, lastA, lastB, -, -⟩ := commonRun_ok counted'
  rw [liveOf_reverse] at lastA lastB
  have endAlike : ∀ k, f.EndAlike xs.length bodyA bodyB k ↔
      k ≤ (ys ++ f.liveOf backA).length ∧ k ≤ (ys ++ f.liveOf backB).length ∧
        (ys ++ f.liveOf backA).take k = (ys ++ f.liveOf backB).take k := by
    intro k
    constructor
    · rintro ⟨left, right, same⟩
      obtain ⟨lengthA, takeA⟩ := take_back bodyLiveA lastA left
      obtain ⟨lengthB, takeB⟩ := take_back bodyLiveB lastB right
      exact ⟨by omega, by omega, by rw [takeA, takeB, same]⟩
    · rintro ⟨left, right, same⟩
      have sizeA := (take_back (k := 0) bodyLiveA lastA (by rw [bodyLiveA]; simp)).1
      have sizeB := (take_back (k := 0) bodyLiveB lastB (by rw [bodyLiveB]; simp)).1
      obtain ⟨-, takeA⟩ := take_back (k := k) bodyLiveA lastA (by omega)
      obtain ⟨-, takeB⟩ := take_back (k := k) bodyLiveB lastB (by omega)
      exact ⟨by omega, by omega, List.reverse_injective (by rw [← takeA, ← takeB, same])⟩
  have alike : f.EndAlike xs.length bodyA bodyB ys.length := (endAlike _).mpr (by simp)
  refine ⟨xs.length, ys.length, ?_, ?_, fun k start => ?_, bodyA, bodyB, strippedA, strippedB, alike,
    fun k ends => ?_, marked insideA alike.left, marked insideB alike.right⟩
  · refine bind_ok_iff.mpr ⟨_, hasA, bind_ok_iff.mpr ⟨_, hasB, bind_ok_iff.mpr ⟨_, counted, ?_⟩⟩⟩
    exact bind_ok_iff.mpr ⟨_, droppedA, bind_ok_iff.mpr ⟨_, droppedB, bind_ok_iff.mpr ⟨_, counted', rfl⟩⟩⟩
  · refine ⟨by rw [liveA]; simp, by rw [liveB]; simp, ?_, ?_⟩
    · rw [liveA, liveB, List.take_left, List.take_left]
    · rw [liveA, List.take_left]
      exact plain
  · obtain ⟨left, right, same, free⟩ := start
    rw [liveA] at left same free
    rw [liveB] at right same
    exact parted.bound left right same free
  · obtain ⟨left, right, same⟩ := (endAlike k).mp ends
    exact parted'.bound left right same fun _ _ => rfl

/-- Two blocks that start and end alike, with debug markers at different places. -/
def siblings : Procedure where
  name := "siblings"
  blocks := #[{ id := 0, name := "A", code := [0, 1, 2, 3, 4] }, { id := 1, name := "B", code := [2, 0, 5, 3, 4] }]
  insts := #[{ op := .other "add", defs := [2], uses := [.reg 0, .reg 1] },
    { op := .other "mul", defs := [3], uses := [.reg 2, .imm 3] }, { op := .dbg },
    { op := .other "or", defs := [4], uses := [.reg 3, .imm 1] }, .jump 2,
    { op := .other "mul", defs := [3], uses := [.reg 2, .imm 5] }]
  regs := #["a", "b", "t", "x", "s"]

theorem sharedCode_exact_siblings :
    sharedCode siblings 0 1 = .ok (1, 1) ∧ siblings.Counted [0, 1, 2, 3, 4] [2, 0, 5, 3, 4] 1 1 := by
  have counts : sharedCode siblings 0 1 = .ok (1, 1) := by decide +kernel
  obtain ⟨n, m, counted, exact⟩ := sharedCode_exact (f := siblings) (a := 0) (b := 1) rfl rfl
    (fun i mem => Arena.get_range.mpr (by revert i; decide))
    (fun i mem => Arena.get_range.mpr (by revert i; decide))
  cases counts.symm.trans counted
  exact ⟨counts, exact⟩

end Predication.Conversion
