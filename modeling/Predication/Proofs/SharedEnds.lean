import Predication.Conversion.Arms
import Predication.Proofs.Endings
import Predication.Proofs.Scanning

/-!
What two blocks start and end with in common. Debug markers do not count, so all that is said here is
about the code apart from them: the shared instructions are the same at both places, and a position
found later by counting them is where they end or start.
-/

set_option autoImplicit false
set_option relaxedAutoImplicit false

namespace Predication

/-- Branches that are cut off together: a jump, a conditional branch, or the one behind the other. -/
inductive Severable : List Role → Prop
  | none : Severable []
  | one {r : Role} (free : r.isFreeBranch = true) : Severable [r]
  | two {r s : Role} (test : r.isFreeTest = true) (free : s.isFreeBranch = true) : Severable [r, s]

private theorem Severable.isFreeBranch {l : List Role} (h : Severable l) :
    ∀ r ∈ l, r.isFreeBranch = true := by
  cases h with
  | none => simp
  | one free => simpa using free
  | @two r s test free =>
    have branch : r.isFreeBranch = true := by
      revert test
      unfold Role.isFreeTest
      split <;> simp [Role.isFreeBranch, Op.isBranch]
    simp [branch, free]

private theorem cut_severable {l l' : List Role} (inner : ∀ r ∈ l, r.isExit = false) (h : Severable l') :
    cut (l ++ l') = l := by
  have inside : ∀ r ∈ l.getLast?, r.isFreeBranch = false ∧ r.isFreeTest = false := by
    intro r last
    have inside := inner r (List.mem_of_getLast? last)
    cases r <;> simp_all [Role.isFreeBranch, Role.isFreeTest, Role.isExit]
  cases h with
  | none =>
    rw [List.append_nil]
    exact cut_of_last fun r last => (inside r last).1
  | one free =>
    simp only [cut, List.getLast?_concat, free, if_true, List.dropLast_concat]
    exact dropLastIf_of_last fun r last => (inside r last).2
  | @two r s test free =>
    have split : l ++ [r, s] = (l ++ [r]) ++ [s] := by simp
    simp only [cut, split, List.getLast?_concat, free, if_true, List.dropLast_concat]
    simp only [dropLastIf, List.getLast?_concat, test, if_true, List.dropLast_concat]

namespace Procedure

variable {f g : Procedure} {code code' : List InstId} {i : InstId} {x : Inst}

def liveOf (f : Procedure) (code : List InstId) : List Inst :=
  (code.filterMap f.inst?).filter fun x => !x.op.isDebug

@[simp] theorem liveOf_nil : f.liveOf [] = [] := rfl

theorem liveOf_append : f.liveOf (code ++ code') = f.liveOf code ++ f.liveOf code' := by
  rw [liveOf, List.filterMap_append, List.filter_append]
  rfl

theorem liveOf_reverse : f.liveOf code.reverse = (f.liveOf code).reverse := by
  rw [liveOf, List.filterMap_reverse, List.filter_reverse]
  rfl

private theorem liveOf_debug (found : f.inst i = .ok x) (debug : x.op.isDebug = true) :
    f.liveOf (i :: code) = f.liveOf code := by
  rw [liveOf, List.filterMap_cons_some (inst?_eq_some.mpr found), List.filter_cons_of_neg (by simp [debug])]
  rfl

theorem liveOf_real (found : f.inst i = .ok x) (real : x.op.isDebug = false) :
    f.liveOf (i :: code) = x :: f.liveOf code := by
  rw [liveOf, List.filterMap_cons_some (inst?_eq_some.mpr found), List.filter_cons_of_pos (by simp [real])]
  rfl

theorem liveOf_congr (same : ∀ i ∈ code, g.inst i = f.inst i) : g.liveOf code = f.liveOf code := by
  have insts : code.filterMap g.inst? = code.filterMap f.inst? :=
    List.filterMap_congr fun i mem => by rw [inst?, inst?, same i mem]
  rw [liveOf, insts]
  rfl

private theorem length_roles (found : ∀ i ∈ code, ∃ r, f.roleAt i = some r) :
    (code.filterMap f.roleAt).length = code.length := by
  induction code with
  | nil => rfl
  | cons i code ih =>
    obtain ⟨⟨r, here⟩, later⟩ := List.forall_mem_cons.mp found
    rw [List.filterMap_cons_some here, List.length_cons, List.length_cons, ih later]

private theorem length_insts (found : ∀ i ∈ code, ∃ x, f.inst i = .ok x) :
    (code.filterMap f.inst?).length = code.length := by
  induction code with
  | nil => rfl
  | cons i code ih =>
    obtain ⟨⟨x, here⟩, later⟩ := List.forall_mem_cons.mp found
    rw [List.filterMap_cons_some (inst?_eq_some.mpr here), List.length_cons, List.length_cons, ih later]

end Procedure

namespace Conversion

open Procedure

variable {f : Procedure} {a b code rest : List InstId} {x : Inst}

private theorem dropDebug_ok (h : dropDebug f code = .ok rest) :
    rest <:+ code ∧ f.liveOf rest = f.liveOf code ∧
      ∀ i ∈ rest.head?, ∃ x, f.inst i = .ok x ∧ x.op.isDebug = false := by
  induction code with
  | nil =>
    cases h
    exact ⟨List.suffix_rfl, rfl, by simp⟩
  | cons i code ih =>
    obtain ⟨x, found, h⟩ := bind_ok_iff.mp h
    split at h
    · rename_i debug
      obtain ⟨sub, live, first⟩ := ih h
      exact ⟨sub.trans (List.suffix_cons i code), live.trans (liveOf_debug found debug).symm, first⟩
    · rename_i real
      cases h
      refine ⟨List.suffix_rfl, rfl, fun j mem => ?_⟩
      cases mem
      exact ⟨x, found, by simpa using real⟩

theorem commonRun_ok {stops : Inst → Bool} {n : Nat} {restA restB : List InstId}
    (h : commonRun f stops a b = .ok (n, restA, restB)) :
    ∃ xs : List Inst, xs.length = n ∧ (∀ x ∈ xs, stops x = false) ∧
      f.liveOf a = xs ++ f.liveOf restA ∧ f.liveOf b = xs ++ f.liveOf restB ∧
      restA <:+ a ∧ restB <:+ b := by
  induction a, b using commonRun.induct generalizing n restA restB with
  | case1 b =>
    rw [commonRun] at h
    obtain ⟨rest, dropped, same⟩ := bind_ok_iff.mp h
    cases same
    obtain ⟨sub, live, -⟩ := dropDebug_ok dropped
    exact ⟨[], rfl, by simp, rfl, live.symm, List.suffix_rfl, sub⟩
  | case2 i a =>
    rw [commonRun] at h
    obtain ⟨rest, dropped, same⟩ := bind_ok_iff.mp h
    cases same
    obtain ⟨sub, live, -⟩ := dropDebug_ok dropped
    exact ⟨[], rfl, by simp, live.symm, rfl, sub, List.suffix_rfl⟩
  | case3 i a j b skipA skipB both =>
    rw [commonRun] at h
    obtain ⟨x, foundA, h⟩ := bind_ok_iff.mp h
    obtain ⟨y, foundB, h⟩ := bind_ok_iff.mp h
    split at h
    · rename_i debug
      obtain ⟨xs, count, free, liveA, liveB, subA, subB⟩ := skipA h
      rw [liveOf_debug foundA debug]
      exact ⟨xs, count, free, liveA, liveB, subA.trans (List.suffix_cons i a), subB⟩
    rename_i realA
    split at h
    · rename_i debug
      obtain ⟨xs, count, free, liveA, liveB, subA, subB⟩ := skipB h
      rw [liveOf_debug foundB debug]
      exact ⟨xs, count, free, liveA, liveB, subA, subB.trans (List.suffix_cons j b)⟩
    rename_i realB
    split at h
    · cases h
      exact ⟨[], rfl, by simp, rfl, rfl, List.suffix_rfl, List.suffix_rfl⟩
    · rename_i goes
      obtain ⟨⟨k, rest⟩, counted, same⟩ := bind_ok_iff.mp h
      cases same
      obtain ⟨xs, rfl, free, liveA, liveB, subA, subB⟩ := both counted
      simp only [Bool.or_eq_true, decide_eq_true_eq, not_or, Bool.not_eq_true, not_not] at goes
      obtain ⟨here, rfl⟩ := goes
      refine ⟨x :: xs, rfl, List.forall_mem_cons.mpr ⟨here, free⟩, ?_, ?_,
        subA.trans (List.suffix_cons i a), subB.trans (List.suffix_cons j b)⟩
      · rw [liveOf_real foundA (by simpa using realA), liveA]
        rfl
      · rw [liveOf_real foundB (by simpa using realB), liveB]
        rfl

end Conversion

namespace Procedure

theorem isDebug_of_isBranch {op : Op} (branch : op.isBranch = true) : op.isDebug = false := by
  cases op <;> first | rfl | cases branch

private theorem isBranch_of_isFreeBranch {x : Inst} (free : x.role.isFreeBranch = true) :
    x.op.isBranch = true := by
  have exit : x.op.isTerminator = true := by
    rw [← Inst.isExit_role]
    cases role : x.role <;> rw [role] at free <;> first | rfl | cases free
  rw [Inst.role_exit exit] at free
  exact (Bool.and_eq_true _ _ ▸ free).1

/-- Code that ends in branches: what stands before them is no terminator, and nothing stands among
them. -/
structure Ends (f : Procedure) (body exits : List InstId) : Prop where
  found : ∀ i ∈ body ++ exits, ∃ x, f.inst i = .ok x
  inner : ∀ x ∈ body.filterMap f.inst?, x.op.isTerminator = false
  severable : Severable (exits.filterMap f.roleAt)

namespace Ends

variable {f : Procedure} {body exits front back : List InstId}

theorem isBranch (h : f.Ends body exits) : ∀ x ∈ exits.filterMap f.inst?, x.op.isBranch = true := by
  intro x mem
  obtain ⟨i, here, found⟩ := List.mem_filterMap.mp mem
  refine isBranch_of_isFreeBranch (h.severable.isFreeBranch x.role ?_)
  exact List.mem_filterMap.mpr ⟨i, here, roleAt_of_inst (inst?_eq_some.mp found)⟩

theorem mono {g : Procedure} {mid : List InstId} (h : f.Ends body exits) (sub : mid ⊆ body)
    (same : ∀ i ∈ mid ++ exits, g.inst i = f.inst i) : g.Ends mid exits where
  found i mem := by
    rw [same i mem]
    refine h.found i (List.mem_append.mpr ?_)
    exact (List.mem_append.mp mem).imp_left fun mem => sub mem
  inner x mem := by
    obtain ⟨i, here, found⟩ := List.mem_filterMap.mp mem
    rw [inst?, same i (List.mem_append_left exits here)] at found
    exact h.inner x (List.mem_filterMap.mpr ⟨i, sub here, found⟩)
  severable := by
    have roles : exits.filterMap g.roleAt = exits.filterMap f.roleAt :=
      List.filterMap_congr fun i mem => roleAt_congr (same i (List.mem_append_right mid mem))
    rw [roles]
    exact h.severable

private theorem liveOf_exits (h : f.Ends body exits) : f.liveOf exits = exits.filterMap f.inst? :=
  List.filter_eq_self.mpr fun x mem => by simp [isDebug_of_isBranch (h.isBranch x mem)]

private theorem liveOf_eq_nil (h : f.Ends body exits) (sub : back <+: exits) (none : f.liveOf back = []) :
    back = [] := by
  cases back with
  | nil => rfl
  | cons i back =>
    have mem : i ∈ exits := sub.subset List.mem_cons_self
    obtain ⟨x, found⟩ := h.found i (List.mem_append_right body mem)
    have branch := h.isBranch x (List.mem_filterMap.mpr ⟨i, mem, inst?_eq_some.mpr found⟩)
    rw [liveOf_real found (isDebug_of_isBranch branch)] at none
    cases none

private theorem front_within (h : f.Ends body exits) (code : body ++ exits = front ++ back)
    (few : (f.liveOf front).length ≤ (f.liveOf body).length) : front <+: body := by
  have sub : front <+: body ++ exits := ⟨back, code.symm⟩
  rcases List.prefix_or_prefix_of_prefix sub (List.prefix_append body exits) with inside | beyond
  · exact inside
  · obtain ⟨more, rfl⟩ := beyond
    have more' : more <+: exits := (List.prefix_append_right_inj body).mp sub
    rw [liveOf_append, List.length_append] at few
    have none : f.liveOf more = [] := List.length_eq_zero_iff.mp (by omega)
    obtain rfl := h.liveOf_eq_nil more' none
    simp

private theorem rest_whole (h : f.Ends body exits) {xs : List Inst} {rest : List InstId}
    (sub : rest <:+ body ++ exits) (free : ∀ x ∈ xs, x.op.isBranch = false)
    (live : f.liveOf (body ++ exits) = xs ++ f.liveOf rest) :
    ∃ mid, rest = mid ++ exits ∧ mid <:+ body ∧ f.liveOf body = xs ++ f.liveOf mid := by
  have within : exits <:+ rest := by
    rcases List.suffix_or_suffix_of_suffix sub (List.suffix_append body exits) with short | long
    · -- the branches that are left are as many as those that there were
      have branches := congrArg (List.countP fun x : Inst => x.op.isBranch) live
      have none : xs.countP (fun x => x.op.isBranch) = 0 :=
        List.countP_eq_zero.mpr fun x mem => by simp [free x mem]
      have all : (f.liveOf exits).countP (fun x => x.op.isBranch) = exits.length := by
        rw [h.liveOf_exits, List.countP_eq_length.mpr h.isBranch]
        exact length_insts fun i mem => h.found i (List.mem_append_right body mem)
      have most : (f.liveOf rest).countP (fun x => x.op.isBranch) ≤ rest.length :=
        (List.countP_le_length).trans ((List.length_filter_le _ _).trans (List.length_filterMap_le _ _))
      rw [liveOf_append, List.countP_append, List.countP_append, none, all] at branches
      exact (short.eq_of_length_le (by omega)).symm ▸ List.suffix_rfl
    · exact long
  obtain ⟨mid, rfl⟩ := within
  rw [liveOf_append, liveOf_append, ← List.append_assoc] at live
  obtain ⟨before, code⟩ := sub
  rw [← List.append_assoc] at code
  exact ⟨mid, rfl, ⟨before, List.append_cancel_right code⟩, List.append_cancel_right live⟩

theorem removeBranch {g : Procedure} {b : BlockId} {n : Nat} (h : f.Ends body exits)
    (code : (f.blockAt b).code = body ++ exits) (removed : Datapath.removeBranch f b = .ok (g, n)) :
    f.block b = .ok (f.blockAt b) ∧ g = f.setCode b body := by
  have roles : ∀ i ∈ body ++ exits, ∃ r, f.roleAt i = some r := fun i mem => by
    obtain ⟨x, found⟩ := h.found i mem
    exact ⟨x.role, roleAt_of_inst found⟩
  obtain ⟨block, front, sub, rfl, left⟩ := Datapath.removeBranch_ok (by rwa [code]) removed
  have inner : ∀ r ∈ body.filterMap f.roleAt, r.isExit = false := by
    intro r mem
    obtain ⟨i, here, role⟩ := List.mem_filterMap.mp mem
    obtain ⟨x, found, rfl⟩ := roleAt_eq_some.mp role
    rw [Inst.isExit_role]
    exact h.inner x (List.mem_filterMap.mpr ⟨i, here, inst?_eq_some.mpr found⟩)
  rw [Procedure.roles, code, List.filterMap_append, cut_severable inner h.severable] at left
  rw [code] at sub
  refine ⟨block, congrArg (f.setCode b) ?_⟩
  have length := congrArg List.length left
  rw [length_roles fun i mem => roles i (sub.subset mem),
    length_roles fun i mem => roles i (List.mem_append_left exits mem)] at length
  exact (List.prefix_of_prefix_length_le sub (List.prefix_append body exits) length.le).eq_of_length length

end Ends

private theorem severable_of_branchOf {ts : List Inst} {br : Branch} (free : ∀ x ∈ ts, x.isGuarded = false)
    (h : Datapath.branchOf? ts = some br) : Severable (ts.map Inst.role) := by
  have branch : ∀ x ∈ ts, x.op = .br ∨ x.op = .brc → x.role.isFreeBranch = true := by
    intro x mem op
    have exit : x.op.isTerminator = true := by rcases op with op | op <;> rw [op] <;> rfl
    rw [Inst.role_exit exit, free x mem]
    rcases op with op | op <;> rw [op] <;> rfl
  unfold Datapath.branchOf? at h
  split at h
  · exact .none
  · rename_i x
    refine .one (branch x (by simp) ?_)
    split at h
    · exact .inl ‹_›
    · exact .inr ‹_›
    · cases h
  · rename_i x y
    split at h
    · rename_i ops
      refine .two ?_ (branch y (by simp) (.inl ops.2))
      rw [Inst.role_exit (by rw [ops.1]; rfl), free x (by simp), ops.1]
      rfl
    · cases h
  · cases h

theorem ends_of_analyzeBranch {f : Procedure} {b : BlockId} {br : Branch}
    (found : ∀ i ∈ (f.blockAt b).code, ∃ x, f.inst i = .ok x)
    (order : (f.instsAt b).Pairwise fun x y => x.op.isBranch = true → y.op.isDebug = false)
    (analyzed : Datapath.analyzeBranch f b = .ok (some br)) :
    ∃ body exits, (f.blockAt b).code = body ++ exits ∧ f.Ends body exits := by
  obtain ⟨code, asked, h⟩ := bind_ok_iff.mp analyzed
  obtain ⟨-, rfl⟩ := code_ok.mp asked
  obtain ⟨body, exits, code, done, insts⟩ := Datapath.terminal_eq found
  change _ = (f.instsAt b).dropWhile _ at insts
  obtain ⟨rest, terminal, h⟩ := bind_ok_iff.mp h
  cases done.symm.trans terminal
  obtain ⟨ts, collected, h⟩ := bind_ok_iff.mp h
  rw [Datapath.terminators?_eq fun i mem => found i (code ▸ List.mem_append_right body mem)] at collected
  have all : f.instsAt b = body.filterMap f.inst? ++ exits.filterMap f.inst? := by
    rw [Procedure.instsAt, code, List.filterMap_append]
  have before : body.filterMap f.inst? = (f.instsAt b).takeWhile fun x => !x.op.isTerminator := by
    have whole := List.takeWhile_append_dropWhile (p := fun x : Inst => !x.op.isTerminator) (l := f.instsAt b)
    nth_rewrite 3 [all] at whole
    rw [insts] at whole
    exact (List.append_cancel_right whole).symm
  refine ⟨body, exits, code, fun i mem => found i (code ▸ mem), fun x mem => ?_, ?_⟩
  · rw [before] at mem
    simpa using List.mem_takeWhile_imp mem
  dsimp only at collected
  split at collected
  · rename_i plain
    cases collected
    have free : ∀ x ∈ (exits.filterMap f.inst?).filter (fun x => !x.op.isDebug), x.isGuarded = false := by
      intro x mem
      have plain := List.all_eq_true.mp plain x mem
      simp only [Bool.and_eq_true, Bool.not_eq_true'] at plain
      exact plain.2
    have severable := severable_of_branchOf free (Except.ok.inj h)
    -- the first of the terminators is a branch, so no debug marker stands behind it
    have none : (exits.filterMap f.inst?).filter (fun x => !x.op.isDebug) = exits.filterMap f.inst? := by
      rw [all] at order
      have order := (List.pairwise_append.mp order).2.1
      have first : ∀ x ∈ (exits.filterMap f.inst?).head?, x.op.isTerminator = true := by
        intro x mem
        rw [insts] at mem
        have stops := List.head?_dropWhile_not (fun x : Inst => !x.op.isTerminator) (f.instsAt b)
        rw [Option.mem_def.mp mem] at stops
        simpa using stops
      cases rest : exits.filterMap f.inst? with
      | nil => rfl
      | cons x l =>
        rw [rest] at first order severable
        have real : x.op.isDebug = false := by
          have exit := first x rfl
          revert exit
          cases x.op <;> simp [Op.isTerminator, Op.isDebug]
        rw [List.filter_cons_of_pos (by simp [real])] at severable ⊢
        have branch := isBranch_of_isFreeBranch (severable.isFreeBranch x.role (by simp))
        rw [List.filter_eq_self.mpr fun y mem => by simp [(List.pairwise_cons.mp order).1 y mem branch]]
    rw [none, List.map_filterMap] at severable
    exact severable
  · cases collected
    cases h

end Procedure

namespace Conversion

open Procedure

variable {f : Procedure} {code rest body exits : List InstId}

private theorem dropBranches_eq (branches : ∀ i ∈ exits, ∃ x, f.inst i = .ok x ∧ x.op.isBranch = true)
    (other : ∀ i ∈ code.head?, ∃ x, f.inst i = .ok x ∧ x.op.isBranch = false) :
    dropBranches f (exits ++ code) = .ok code := by
  induction exits with
  | nil =>
    cases code with
    | nil => rfl
    | cons i code =>
      obtain ⟨x, found, plain⟩ := other i rfl
      rw [List.nil_append, dropBranches, found]
      simp only [bind, Except.bind, plain]
      rfl
  | cons i exits ih =>
    obtain ⟨⟨x, found, branch⟩, branches⟩ := List.forall_mem_cons.mp branches
    rw [List.cons_append, dropBranches, found]
    simp only [bind, Except.bind, branch]
    exact ih branches

private theorem dropBranches_ends {mid : List InstId} (h : f.Ends body exits)
    (sub : mid <:+ body) : dropBranches f (mid ++ exits).reverse = .ok mid.reverse := by
  rw [List.reverse_append]
  refine dropBranches_eq (fun i mem => ?_) fun i mem => ?_
  · have mem := List.mem_reverse.mp mem
    obtain ⟨x, found⟩ := h.found i (List.mem_append_right body mem)
    exact ⟨x, found, h.isBranch x (List.mem_filterMap.mpr ⟨i, mem, inst?_eq_some.mpr found⟩)⟩
  · have mem := sub.subset (List.mem_reverse.mp (List.mem_of_head? mem))
    obtain ⟨x, found⟩ := h.found i (List.mem_append_left exits mem)
    have inner := h.inner x (List.mem_filterMap.mpr ⟨i, mem, inst?_eq_some.mpr found⟩)
    refine ⟨x, found, ?_⟩
    revert inner
    cases x.op <;> simp [Op.isTerminator, Op.isBranch]

/-- The instructions that two pieces of code share before their branches: the first and the last ones,
and between them each has its own. -/
theorem sharedCode_ok {a b : BlockId} {n m : Nat} {bodyA exitsA bodyB exitsB : List InstId}
    (endsA : f.Ends bodyA exitsA) (codeA : (f.blockAt a).code = bodyA ++ exitsA)
    (endsB : f.Ends bodyB exitsB) (codeB : (f.blockAt b).code = bodyB ++ exitsB)
    (h : sharedCode f a b = .ok (n, m)) :
    ∃ xs ys zsA zsB : List Inst, xs.length = n ∧ ys.length = m ∧
      f.liveOf bodyA = xs ++ zsA ++ ys ∧ f.liveOf bodyB = xs ++ zsB ++ ys := by
  obtain ⟨code, asked, h⟩ := bind_ok_iff.mp h
  obtain ⟨-, rfl⟩ := code_ok.mp asked
  obtain ⟨code, asked, h⟩ := bind_ok_iff.mp h
  obtain ⟨-, rfl⟩ := code_ok.mp asked
  rw [codeA, codeB] at h
  obtain ⟨⟨n', restA, restB⟩, counted, h⟩ := bind_ok_iff.mp h
  obtain ⟨xs, rfl, free, liveA, liveB, subA, subB⟩ := commonRun_ok counted
  obtain ⟨midA, rfl, subA, liveA⟩ := endsA.rest_whole subA free liveA
  obtain ⟨midB, rfl, subB, liveB⟩ := endsB.rest_whole subB free liveB
  obtain ⟨backA, dropped, h⟩ := bind_ok_iff.mp h
  rw [dropBranches_ends endsA subA] at dropped
  cases dropped
  obtain ⟨backB, dropped, h⟩ := bind_ok_iff.mp h
  rw [dropBranches_ends endsB subB] at dropped
  cases dropped
  obtain ⟨⟨m', restA, restB⟩, counted, h⟩ := bind_ok_iff.mp h
  obtain ⟨ys, rfl, -, backA, backB, -, -⟩ := commonRun_ok counted
  cases h
  rw [liveOf_reverse] at backA backB
  refine ⟨xs, ys.reverse, (f.liveOf restA).reverse, (f.liveOf restB).reverse, rfl, by simp, ?_, ?_⟩
  · rw [liveA, List.append_assoc, ← List.reverse_append, ← backA, List.reverse_reverse]
  · rw [liveB, List.append_assoc, ← List.reverse_append, ← backB, List.reverse_reverse]

theorem leading_ok {n i j : Nat} (h : leading f code n i = .ok j)
    (enough : n ≤ (f.liveOf (code.drop i)).length) :
    ∃ front back, code.drop i = front ++ back ∧ j = i + front.length ∧ (f.liveOf front).length = n ∧
      ∀ k ∈ front.getLast?, ∃ x, f.inst k = .ok x ∧ x.op.isDebug = false := by
  induction n generalizing i with
  | zero =>
    obtain rfl : i = j := Except.ok.inj h
    exact ⟨[], code.drop i, rfl, rfl, rfl, by simp⟩
  | succ n ih =>
    obtain ⟨rest, dropped, h⟩ := bind_ok_iff.mp h
    obtain ⟨⟨marks, split⟩, live, first⟩ := dropDebug_ok dropped
    rw [← live] at enough
    cases rest with
    | nil => exact absurd enough (by simp)
    | cons k rest =>
      obtain ⟨x, found, real⟩ := first k rfl
      rw [liveOf_real found real, List.length_cons] at enough
      have next : code.drop (i + marks.length + 1) = rest := by
        rw [Nat.add_assoc, ← List.drop_drop, ← split, ← List.drop_drop, List.drop_left]
        rfl
      have none : f.liveOf marks = [] := by
        rw [← split, liveOf_append] at live
        exact List.self_eq_append_left.mp live
      rw [← split, List.length_append, Nat.add_sub_cancel] at h
      obtain ⟨front, back, more, rfl, count, last⟩ := ih h (by rw [next]; omega)
      refine ⟨marks ++ k :: front, back, ?_, by simp; omega, ?_, fun l mem => ?_⟩
      · rw [← split, ← next, more]
        simp
      · rw [liveOf_append, none, liveOf_real found real, List.nil_append, List.length_cons, count]
      · rw [List.getLast?_append_of_ne_nil marks (List.cons_ne_nil k front)] at mem
        cases front with
        | nil =>
          cases mem
          exact ⟨x, found, real⟩
        | cons k' front => exact last l (by rwa [List.getLast?_cons_cons] at mem)

theorem trailing_ok {n : Nat} {stop j : Int} (h : trailing f code n stop = .ok j)
    (inside : 0 ≤ stop ∧ stop ≤ code.length)
    (enough : n ≤ (f.liveOf (code.take stop.toNat)).length) :
    ∃ front back, code.take stop.toNat = front ++ back ∧ j = front.length ∧
      (f.liveOf back).length = n := by
  induction n generalizing stop with
  | zero =>
    obtain rfl : stop = j := Except.ok.inj h
    refine ⟨code.take stop.toNat, [], by simp, ?_, rfl⟩
    rw [List.length_take]
    omega
  | succ n ih =>
    obtain ⟨rest, dropped, h⟩ := bind_ok_iff.mp h
    obtain ⟨⟨marks, split⟩, live, first⟩ := dropDebug_ok dropped
    rw [← List.length_reverse, ← liveOf_reverse, ← live] at enough
    cases rest with
    | nil => exact absurd enough (by simp)
    | cons k rest =>
      obtain ⟨x, found, real⟩ := first k rfl
      rw [liveOf_real found real, List.length_cons] at enough
      have whole : code.take stop.toNat = rest.reverse ++ k :: marks.reverse := by
        rw [← List.reverse_reverse (code.take stop.toNat), ← split]
        simp
      have length : stop = rest.length + 1 + marks.length := by
        have length := congrArg List.length whole
        rw [List.length_take] at length
        simp only [List.length_append, List.length_reverse, List.length_cons] at length
        omega
      have none : f.liveOf marks = [] := by
        rw [← split, liveOf_append] at live
        exact List.self_eq_append_left.mp live
      rw [← split, List.length_append] at h
      have next : stop - (((marks.length + (k :: rest).length : Nat) : Int) - (k :: rest).length) - 1 =
          rest.length := by
        simp only [List.length_cons]
        omega
      rw [next] at h
      have shorter : code.take (rest.length : Int).toNat = rest.reverse := by
        have taken : (code.take stop.toNat).take rest.length = rest.reverse := by
          rw [whole, List.take_left' (by simp)]
        rw [List.take_take] at taken
        rw [← taken]
        congr 1
        omega
      obtain ⟨front, back, more, rfl, count⟩ := ih h (by omega) (by
        rw [shorter, liveOf_reverse, List.length_reverse]
        omega)
      refine ⟨front, back ++ k :: marks.reverse, ?_, rfl, ?_⟩
      · rw [whole, ← shorter, more, List.append_assoc]
      · rw [liveOf_append, liveOf_real found real, liveOf_reverse, none]
        simp [count]

theorem leading_ends {xs zs : List Inst} {stop : Nat} (ends : f.Ends body exits)
    (live : f.liveOf body = xs ++ zs) (h : leading f (body ++ exits) xs.length 0 = .ok stop) :
    ∃ lead rest, body = lead ++ rest ∧ stop = lead.length ∧ f.liveOf lead = xs ∧ f.liveOf rest = zs := by
  obtain ⟨lead, back, code, stop, count, -⟩ := leading_ok h (by
    rw [List.drop_zero, liveOf_append, live]
    simp)
  rw [List.drop_zero] at code
  obtain ⟨rest, rfl⟩ := ends.front_within code (by rw [count, live]; simp)
  rw [liveOf_append] at live
  obtain ⟨first, second⟩ := List.append_inj live count
  exact ⟨lead, rest, rfl, by omega, first, second⟩

theorem trailing_split {zs ys : List Inst} {stop : Int} (live : f.liveOf code = zs ++ ys)
    (h : trailing f code ys.length code.length = .ok stop) :
    ∃ mid trail, code = mid ++ trail ∧ stop = mid.length ∧ f.liveOf mid = zs ∧ f.liveOf trail = ys := by
  obtain ⟨mid, trail, split, stop, count⟩ := trailing_ok h (by omega) (by
    rw [Int.toNat_natCast, List.take_length, live]
    simp)
  rw [Int.toNat_natCast, List.take_length] at split
  rw [split, liveOf_append] at live
  obtain ⟨first, second⟩ := List.append_inj' live count
  exact ⟨mid, trail, split, stop, first, second⟩

end Conversion

end Predication
