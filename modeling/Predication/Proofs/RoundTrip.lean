import Predication.Pipeline
import Predication.Proofs.Readings

/-!
Reading and writing are inverse to each other. The text that is written for a program is spelled by
the lines of its outline, and those lines lead the reader to a program with the same outline, which
is the same program up to numbers.
-/

set_option autoImplicit false
set_option relaxedAutoImplicit false

namespace Predication.Listing

def NamedBlock.lines (n : NamedBlock) : List Line :=
  .label n.name :: ((if n.liveIn = [] then [] else [.liveIn n.liveIn]) ++ n.code.map .inst)

def NamedProcedure.lines (v : NamedProcedure) : List Line :=
  .header v.name :: v.blocks.flatMap NamedBlock.lines

def programLines : List NamedProcedure → List Line
  | [] => []
  | v :: vs => v.lines ++ vs.flatMap fun w => .blank :: w.lines

theorem NamedBlock.Valid.lines {n : NamedBlock} (h : n.Valid) : ∀ l ∈ n.lines, l.Valid := by
  intro l hl
  simp only [NamedBlock.lines, List.mem_cons, List.mem_append, List.mem_map] at hl
  rcases hl with rfl | hl | ⟨i, hi, rfl⟩
  · exact ⟨h.name, h.label⟩
  · split at hl
    · cases hl
    · rw [List.mem_singleton.mp hl]
      exact h.liveIn
  · exact h.code i hi

theorem NamedProcedure.Valid.lines {v : NamedProcedure} (h : v.Valid) : ∀ l ∈ v.lines, l.Valid := by
  intro l hl
  rcases List.mem_cons.mp hl with rfl | hl
  · exact h.name
  · obtain ⟨n, hn, hl⟩ := List.mem_flatMap.mp hl
    exact (h.blocks n hn).lines l hl

private theorem programLines_valid {vs : List NamedProcedure} (h : ∀ v ∈ vs, v.Valid) :
    ∀ l ∈ programLines vs, l.Valid := by
  cases vs with
  | nil => simp [programLines]
  | cons v vs =>
    intro l hl
    rcases List.mem_append.mp hl with hl | hl
    · exact (h v List.mem_cons_self).lines l hl
    · obtain ⟨w, hw, hl⟩ := List.mem_flatMap.mp hl
      rcases List.mem_cons.mp hl with rfl | hl
      · trivial
      · exact (h w (List.mem_cons_of_mem v hw)).lines l hl

private theorem Line.Valid.exists_spells {l : Line} (h : l.Valid) : ∃ text, Spells l text := by
  cases l with
  | blank => exact ⟨_, .blank⟩
  | header name => exact ⟨_, .header name⟩
  | label name => exact ⟨_, .label name⟩
  | liveIn names => exact ⟨_, .liveIn names⟩
  | inst i =>
    obtain ⟨text, line⟩ := exists_argumentsLine h.arguments
    exact ⟨_, .inst i _ (i.text_eq line.written)⟩

private theorem exists_spells {ls : List Line} (h : ∀ l ∈ ls, l.Valid) :
    ∃ texts, List.Forall₂ Spells ls texts := by
  induction ls with
  | nil => exact ⟨[], .nil⟩
  | cons l ls ih =>
    obtain ⟨text, first⟩ := (h l List.mem_cons_self).exists_spells
    obtain ⟨texts, rest⟩ := ih fun l hl => h l (List.mem_cons_of_mem _ hl)
    exact ⟨text :: texts, .cons first rest⟩

section Writing

def unlines (texts : List String) : String := String.join (texts.map (· ++ "\n"))

private theorem unlines_cons (text : String) (texts : List String) :
    unlines (text :: texts) = text ++ "\n" ++ unlines texts := by
  simp [unlines]

private theorem unlines_append (texts more : List String) :
    unlines (texts ++ more) = unlines texts ++ unlines more := by
  simp [unlines]

private theorem bytesOf_unlines (texts : List String) :
    bytesOf (unlines texts) = texts.flatMap fun s => bytesOf (s ++ "\n") := by
  rw [unlines, bytesOf_join, List.flatMap_map]

variable {f : Procedure}

private theorem RegNamed.regName {r : Reg} {s : String} (h : RegNamed f r s) : f.regName r = s := by
  simp only [Procedure.regName, show Arena.get f.regs r = .ok s from h]

private theorem regNames {rs : List Reg} {ss : List String} (h : List.Forall₂ (RegNamed f) rs ss) :
    rs.map f.regName = ss := by
  rw [← List.forall₂_eq_eq_eq, List.forall₂_map_left_iff]
  exact h.imp fun _ _ => RegNamed.regName

private theorem nameTerms {ts : List Term} {us : List NamedTerm} (h : List.Forall₂ (TermNamed f) ts us) :
    ts.map (nameTerm f) = us := by
  rw [← List.forall₂_eq_eq_eq, List.forall₂_map_left_iff]
  refine h.imp fun t u ⟨named, negated⟩ => ?_
  rw [nameTerm, RegNamed.regName named, negated]

private theorem OperandNamed.nameOperand {o : Operand} {u : NamedOperand} (h : OperandNamed f o u) :
    nameOperand f o = u := by
  cases h with
  | reg r s named => rw [Listing.nameOperand, RegNamed.regName named]
  | imm v => rfl
  | block b s named =>
    obtain ⟨blk, found, rfl⟩ := named
    simp only [Listing.nameOperand, Procedure.blockName, found]

private theorem InstNamed.nameInst {x : Inst} {i : NamedInst} (h : InstNamed f x i) : nameInst f x = i := by
  have uses : x.uses.map (nameOperand f) = i.uses := by
    rw [← List.forall₂_eq_eq_eq, List.forall₂_map_left_iff]
    exact h.uses.imp fun _ _ => OperandNamed.nameOperand
  rw [Listing.nameInst, nameTerms h.guard, regNames h.defs, h.op, nameTerms h.cond, uses,
    regNames h.implicits]

private theorem writeInst_eq {block : String} {id : InstId} {i : NamedInst} (h : CodeNamed f id i)
    {text : String} (spells : Spells (.inst i) text) : writeInst f block id = pure (text ++ "\n") := by
  obtain ⟨x, found, named⟩ := h
  cases spells with
  | inst i text written =>
    have reads : ∀ k : Inst → Writing String, (liftM (Except.ok x : Except Fault Inst) >>= k) = k x :=
      fun _ => rfl
    rw [writeInst, found, reads, named.nameInst, written]

private theorem writeCode_eq {block : String} {ids : List InstId} {is : List NamedInst}
    (h : List.Forall₂ (CodeNamed f) ids is) : ∀ {texts : List String},
      List.Forall₂ Spells (is.map .inst) texts →
        ids.mapM (writeInst f block) = pure (texts.map (· ++ "\n")) := by
  induction h with
  | nil =>
    intro texts spells
    cases spells
    rfl
  | cons first rest ih =>
    intro texts spells
    cases spells with
    | cons spelled spells =>
      rw [List.mapM_cons, writeInst_eq first spelled, ih spells, pure_bind, pure_bind]
      rfl

private theorem writeBlock_eq {b : BlockId} {n : NamedBlock} {blk : Block} (h : BlockOutlined f b n blk)
    (alive : blk.dead = false) {texts : List String} (spells : List.Forall₂ Spells n.lines texts) :
    writeBlock f b = pure (unlines texts) := by
  have names : blk.liveIn.map (fun r => " " ++ registerText (f.regName r)) =
      n.liveIn.map fun r => " " ++ registerText r := by
    rw [← regNames h.liveIn, List.map_map]
    rfl
  have step : ∀ code, blk.code.mapM (writeInst f n.name) = pure code → writeBlock f b =
      pure (n.name ++ ":\n" ++ (if n.liveIn = [] then "" else
        "\tlivein" ++ String.join (n.liveIn.map fun r => " " ++ registerText r) ++ "\n") ++
        String.join code) := by
    intro code written
    have found : (liftM (f.block b) : Writing Block) = pure blk := by
      rw [h.found]
      rfl
    rw [writeBlock, found, pure_bind]
    simp only [alive, Bool.false_eq_true, if_false, names, h.name, List.isEmpty_iff,
      List.map_eq_nil_iff]
    rw [written, pure_bind]
  cases spells with
  | cons first rest =>
    cases first
    obtain ⟨front, back, hfront, hback, rfl⟩ := exists_append_of_forall₂ rest
    have list : (if n.liveIn = [] then "" else
        "\tlivein" ++ String.join (n.liveIn.map fun r => " " ++ registerText r) ++ "\n") =
        unlines front := by
      split at hfront
      · cases hfront
        rename_i empty
        rw [if_pos empty]
        rfl
      · rename_i some
        rw [if_neg some]
        cases hfront with
        | cons spelled none =>
          cases none
          cases spelled
          simp [unlines]
    rw [step _ (writeCode_eq h.code hback), list, unlines_cons, unlines_append,
      show ":\n" = ":" ++ "\n" from rfl]
    simp only [String.append_assoc]
    rfl

private theorem writeBlocks_eq {v : NamedProcedure} (h : Settled f v) {bs : List BlockId}
    {ns : List NamedBlock}
    (outlined : List.Forall₂ (fun b n => ∃ blk, BlockOutlined f b n blk) bs ns) :
    ∀ {texts : List String}, List.Forall₂ Spells (ns.flatMap NamedBlock.lines) texts →
      ∃ parts, bs.mapM (writeBlock f) = pure parts ∧ String.join parts = unlines texts := by
  induction outlined with
  | nil =>
    intro texts spells
    cases spells
    exact ⟨[], rfl, rfl⟩
  | cons first rest ih =>
    intro texts spells
    obtain ⟨front, back, hfront, hback, rfl⟩ := exists_append_of_forall₂ spells
    obtain ⟨blk, outlined⟩ := first
    obtain ⟨parts, done, joined⟩ := ih hback
    have alive := (h.blocks _ blk outlined.found).2.2.1
    refine ⟨unlines front :: parts, ?_, ?_⟩
    · rw [List.mapM_cons, writeBlock_eq outlined alive hfront, done, pure_bind, pure_bind]
    · rw [String.join_cons, joined, unlines_append]

private theorem writeProcedure_eq {v : NamedProcedure} (h : Settled f v) {texts : List String}
    (spells : List.Forall₂ Spells v.lines texts) : writeProcedure f = pure (unlines texts) := by
  cases spells with
  | cons first rest =>
    cases first
    obtain ⟨parts, done, joined⟩ := writeBlocks_eq h h.layout rest
    rw [writeProcedure, done, pure_bind, joined, unlines_cons, h.name]

private theorem writeMembers_eq {p : Program} {vs : List NamedProcedure} (h : List.Forall₂ Settled p vs) :
    ∀ {texts : List String}, List.Forall₂ Spells (vs.flatMap fun w => .blank :: w.lines) texts →
      ∃ parts, p.mapM writeMember = pure parts ∧
        String.join (parts.map fun t => "\n" ++ t) = unlines texts := by
  induction h with
  | nil =>
    intro texts spells
    cases spells
    exact ⟨[], rfl, rfl⟩
  | cons first rest ih =>
    intro texts spells
    obtain ⟨front, back, hfront, hback, rfl⟩ := exists_append_of_forall₂ spells
    obtain ⟨parts, done, joined⟩ := ih hback
    cases hfront with
    | @cons _ _ _ lines empty spelled =>
      cases empty
      refine ⟨unlines lines :: parts, ?_, ?_⟩
      · rw [List.mapM_cons, writeMember, writeProcedure_eq first spelled, done]
        rfl
      · rw [List.map_cons, String.join_cons, joined, unlines_append, unlines_cons]
        rfl

private theorem intercalate_eq_join (sep s : String) (l : List String) :
    sep.intercalate (s :: l) = s ++ String.join (l.map fun t => sep ++ t) := by
  induction l generalizing s with
  | nil => simp
  | cons t l ih => simp [ih, String.append_assoc]

private theorem writeProgram_eq {p : Program} {vs : List NamedProcedure} (h : List.Forall₂ Settled p vs)
    {texts : List String} (spells : List.Forall₂ Spells (programLines vs) texts) :
    writeProgram p = pure (unlines texts) := by
  cases h with
  | nil =>
    cases spells
    rfl
  | cons first rest =>
    obtain ⟨front, back, hfront, hback, rfl⟩ := exists_append_of_forall₂ spells
    obtain ⟨parts, done, joined⟩ := writeMembers_eq rest hback
    rw [writeProgram, List.mapM_cons, writeMember, writeProcedure_eq first hfront, done,
      unlines_append, ← joined, ← intercalate_eq_join]
    rfl

end Writing

section ReadingBack

private theorem Draft.Sound.fresh {d : Draft} {v : NamedProcedure} (h : d.Sound v) {name : String}
    (hn : IsName name) (new : name ∉ v.labels) (line : Nat) :
    (Draft.block line name d).2.defined.getD (Draft.block line name d).1 false = false := by
  obtain ⟨grown, blk, found, named⟩ := numbered_block line d hn.ne_empty
  have held := grown.holds v h.holds
  by_contra seen
  rw [Bool.not_eq_false, held.defined] at seen
  obtain ⟨n, hn, blk', outlined⟩ := exists_right_of_forall₂ held.layout seen
  rw [outlined.found] at found
  cases found
  exact new (List.mem_map.mpr ⟨n, hn, outlined.name.symm.trans named⟩)

private theorem Draft.Sound.opened {d : Draft} {v : NamedProcedure} (h : d.Sound v) {front : List NamedBlock}
    {last : NamedBlock} (blocks : v.blocks = front ++ [last]) : ∃ b, d.current = some b := by
  have laid : d.procedure.layout ≠ [] := by
    intro none
    have outlined := h.holds.layout
    rw [none, blocks] at outlined
    exact List.append_ne_nil_of_right_ne_nil front (by simp) (List.forall₂_nil_left_iff.mp outlined)
  have current := h.holds.current
  rw [List.getLast?_eq_some_getLast laid] at current
  obtain ⟨b, current, -⟩ := Option.map_eq_some_iff.mp current
  exact ⟨b, current⟩

private theorem Draft.Sound.undefined? {d : Draft} {v : NamedProcedure} (h : d.Sound v)
    (targets : ∀ s ∈ v.targets, s ∈ v.labels) : d.undefined? = none := by
  refine Draft.undefined?_eq_none.mpr fun n bound _ unseen => ?_
  have found : d.procedure.block n = .ok d.procedure.blocks[n] :=
    (Arena.get_natCast _ n _).mpr (Array.getElem?_eq_getElem bound)
  have label : d.procedure.blocks[n].name ∈ v.labels :=
    (h.blocks n _ ⟨_, found, rfl⟩).elim id (targets _)
  obtain ⟨m, hm, same⟩ := List.mem_map.mp label
  obtain ⟨c, hc, blk, outlined⟩ := exists_left_of_forall₂ h.holds.layout hm
  have laid : (n : BlockId) ∈ d.procedure.layout := by
    rwa [BlockNamed.unique h.holds.names ⟨_, found, rfl⟩
      ⟨blk, outlined.found, outlined.name.trans same⟩]
  rw [← h.holds.defined, Array.getD_eq_getD_getElem?, unseen, Option.getD_some] at laid
  cases laid

private theorem NamedProcedure.updateLast_eq {v : NamedProcedure} {front : List NamedBlock}
    {last : NamedBlock} (blocks : v.blocks = front ++ [last]) (g : NamedBlock → NamedBlock) :
    v.updateLast g = { v with blocks := front ++ [g last] } := by
  simp [NamedProcedure.updateLast, blocks]

private theorem runs_code (finished : Program) {is : List NamedInst} (valid : ∀ i ∈ is, i.Valid) :
    ∀ (number : Nat) {d : Draft} {v : NamedProcedure} {front : List NamedBlock} {last : NamedBlock},
      d.Sound v → v.blocks = front ++ [last] → ∃ e : Draft,
        Reading.Runs number (is.map .inst) ⟨finished, some d⟩ ⟨finished, some e⟩ ∧
          e.Sound { v with blocks := front ++ [{ last with code := last.code ++ is }] } := by
  induction is with
  | nil =>
    intro number d v front last sound blocks
    refine ⟨d, .nil _ _, ?_⟩
    rw [List.append_nil, ← blocks]
    exact sound
  | cons i is ih =>
    intro number d v front last sound blocks
    obtain ⟨b, current⟩ := sound.opened blocks
    have numbered : Draft.inst number i d = (_, _) := rfl
    have taken := sound.inst current (valid i List.mem_cons_self) numbered
    rw [NamedProcedure.updateLast_eq blocks] at taken
    obtain ⟨e, runs, done⟩ :=
      ih (fun j hj => valid j (List.mem_cons_of_mem _ hj)) (number + 1) taken rfl
    refine ⟨e, .cons _ _ _ _ _ _ (.inst i _ d rfl b current _ _ rfl) runs, ?_⟩
    simpa using done

private theorem runs_liveIn (finished : Program) {names : List String}
    (valid : ∀ s ∈ names, IsRegisterName s) (number : Nat) {d : Draft} {v : NamedProcedure}
    {front : List NamedBlock} {last : NamedBlock} (sound : d.Sound v)
    (blocks : v.blocks = front ++ [last]) : ∃ e : Draft,
      Reading.Runs number (if names = [] then [] else [.liveIn names]) ⟨finished, some d⟩
          ⟨finished, some e⟩ ∧
        e.Sound { v with blocks := front ++ [{ last with liveIn := last.liveIn ++ names }] } := by
  split
  case isTrue empty =>
    refine ⟨d, .nil _ _, ?_⟩
    rw [empty, List.append_nil, ← blocks]
    exact sound
  case isFalse =>
    obtain ⟨b, current⟩ := sound.opened blocks
    have numbered : names.mapM Draft.register d = (_, _) := rfl
    have taken := sound.liveIn current valid numbered
    rw [NamedProcedure.updateLast_eq blocks] at taken
    exact ⟨_, .cons _ _ _ _ _ _ (.liveIn names _ d rfl b current _ _ rfl) (.nil _ _), taken⟩

private theorem runs_block (finished : Program) {n : NamedBlock} (valid : n.Valid) (number : Nat) {d : Draft}
    {v : NamedProcedure} (sound : d.Sound v) (new : n.name ∉ v.labels) : ∃ e : Draft,
      Reading.Runs number n.lines ⟨finished, some d⟩ ⟨finished, some e⟩ ∧
        e.Sound { v with blocks := v.blocks ++ [n] } := by
  have fresh := sound.fresh valid.name new number
  have opened := sound.label valid.name valid.label rfl fresh
  obtain ⟨e₁, list, listed⟩ := runs_liveIn finished valid.liveIn (number + 1) opened rfl
  obtain ⟨e₂, code, done⟩ := runs_code finished valid.code _ listed rfl
  exact ⟨e₂, .cons _ _ _ _ _ _ (.label n.name _ d rfl _ _ rfl fresh) (list.append code), done⟩

private theorem runs_blocks (finished : Program) {ns : List NamedBlock} (valid : ∀ n ∈ ns, n.Valid) :
    ∀ (number : Nat) {d : Draft} {v : NamedProcedure}, d.Sound v →
      (v.labels ++ ns.map NamedBlock.name).Nodup → ∃ e : Draft,
        Reading.Runs number (ns.flatMap NamedBlock.lines) ⟨finished, some d⟩ ⟨finished, some e⟩ ∧
          e.Sound { v with blocks := v.blocks ++ ns } := by
  induction ns with
  | nil =>
    intro number d v sound nodup
    refine ⟨d, .nil _ _, ?_⟩
    rw [List.append_nil]
    exact sound
  | cons n ns ih =>
    intro number d v sound nodup
    have new : n.name ∉ v.labels := fun old => by
      simpa [old] using (List.nodup_append.mp nodup).2.2 _ old n.name
    obtain ⟨e₁, first, opened⟩ :=
      runs_block finished (valid n List.mem_cons_self) number sound new
    have nodup' : (({ v with blocks := v.blocks ++ [n] } : NamedProcedure).labels ++
        ns.map NamedBlock.name).Nodup := by
      simpa [NamedProcedure.labels] using nodup
    obtain ⟨e₂, rest, done⟩ := ih (fun m hm => valid m (List.mem_cons_of_mem _ hm)) _ opened nodup'
    refine ⟨e₂, first.append rest, ?_⟩
    simpa using done

private theorem Reading.Outlined.exists_closes {r : Reading} {vs : List NamedProcedure}
    {cur : Option NamedProcedure} (h : r.Outlined vs cur) (complete : ∀ v ∈ cur, v.Complete) :
    ∃ s, Reading.Closes r s := by
  cases draft : r.draft with
  | none => exact ⟨r, .idle r draft⟩
  | some d =>
    obtain ⟨v, rfl, sound⟩ := h.current draft
    exact ⟨_, .done r d draft (sound.undefined? (complete v rfl).targets)⟩

private theorem runs_procedure {r : Reading} {vs : List NamedProcedure} {cur : Option NamedProcedure}
    (h : r.Outlined vs cur) (closed : ∀ w ∈ cur, w.Complete) {v : NamedProcedure}
    (complete : v.Complete) (new : v.name ∉ (vs ++ cur.toList).map NamedProcedure.name)
    (number : Nat) :
    ∃ s, Reading.Runs number v.lines r s ∧ s.Outlined (vs ++ cur.toList) (some v) := by
  obtain ⟨t, closes⟩ := h.exists_closes closed
  have fresh := ((h.closes closes).procedure? v.name).mpr new
  have header := h.header closes complete.valid.name fresh
  obtain ⟨e, blocks, sound⟩ := runs_blocks t.finished complete.valid.blocks (number + 1)
    (sound_header complete.valid.name) complete.labels
  exact ⟨_, .cons _ _ _ _ _ _ (.header v.name r t closes fresh) blocks, header.redraft sound rfl⟩

private theorem runs_procedures {ws : List NamedProcedure} (complete : ∀ w ∈ ws, w.Complete) :
    ∀ (number : Nat) {r : Reading} {vs : List NamedProcedure} {v : NamedProcedure},
      r.Outlined vs (some v) → v.Complete →
      ((vs ++ v :: ws).map NamedProcedure.name).Nodup →
      ∃ s us u, Reading.Runs number (ws.flatMap fun w => .blank :: w.lines) r s ∧
        s.Outlined us (some u) ∧ u.Complete ∧ us ++ [u] = vs ++ v :: ws := by
  induction ws with
  | nil => exact fun number r vs v h closed _ => ⟨r, vs, v, .nil _ _, h, closed, rfl⟩
  | cons w ws ih =>
    intro number r vs v h closed nodup
    have parts : ((vs ++ [v]).map NamedProcedure.name ++
        (w :: ws).map NamedProcedure.name).Nodup := by
      simpa using nodup
    have new : w.name ∉ (vs ++ [v]).map NamedProcedure.name := fun old => by
      simpa using (List.nodup_append.mp parts).2.2 _ old w.name
    obtain ⟨s, first, outlined⟩ := runs_procedure h (by simpa using closed)
      (complete w List.mem_cons_self) new (number + 1)
    obtain ⟨t, us, u, rest, done, last, same⟩ := ih
      (fun x hx => complete x (List.mem_cons_of_mem _ hx)) _ outlined
      (complete w List.mem_cons_self) (by simpa using nodup)
    refine ⟨t, us, u, .cons _ _ _ _ _ _ (.blank r) (first.append rest), done, last, ?_⟩
    simpa using same

private theorem runs_program {vs : List NamedProcedure} (complete : ∀ v ∈ vs, v.Complete)
    (nodup : (vs.map NamedProcedure.name).Nodup) :
    ∃ s t, Reading.Runs 1 (programLines vs) {} s ∧ Reading.Closes s t ∧
      List.Forall₂ Settled t.finished vs := by
  cases vs with
  | nil => exact ⟨{}, {}, .nil _ _, .idle _ rfl, .nil⟩
  | cons v vs =>
    have first := complete v List.mem_cons_self
    obtain ⟨s, runs, outlined⟩ := runs_procedure Reading.outlined_start (by simp) first (by simp) 1
    obtain ⟨t, us, u, rest, done, last, same⟩ := runs_procedures
      (fun w hw => complete w (List.mem_cons_of_mem _ hw)) (1 + v.lines.length) outlined first nodup
    obtain ⟨closed, closes⟩ := done.exists_closes (by simpa using last)
    refine ⟨t, closed, runs.append rest, closes, ?_⟩
    rw [show v :: vs = us ++ [u] from same.symm]
    exact (done.closes closes).finished

end ReadingBack

private theorem read_unlines {vs : List NamedProcedure} (complete : ∀ v ∈ vs, v.Complete)
    (nodup : (vs.map NamedProcedure.name).Nodup) {texts : List String}
    (spells : List.Forall₂ Spells (programLines vs) texts) :
    ∃ q, read [{ bytes := bytesOf (unlines texts) }] = .ok q ∧ List.Forall₂ Settled q vs := by
  obtain ⟨s, t, runs, closes, settled⟩ := runs_program complete nodup
  have valid := programLines_valid fun v hv => (complete v hv).valid
  rw [bytesOf_unlines]
  exact ⟨t.finished, read_of_runs spells valid runs closes, settled⟩

private theorem renumbered_of_settled {p q : Program} {vs : List NamedProcedure}
    (hp : List.Forall₂ Settled p vs) : List.Forall₂ Settled q vs → Program.Renumbered p q := by
  induction hp generalizing q with
  | nil =>
    intro hq
    cases hq
    exact .nil
  | cons first rest ih =>
    intro hq
    cases hq with
    | cons first' rest' => exact .cons (first.renumbers first') (ih rest')

/-- A program that was read is written to a text that reads back as the same program up to numbers,
and that is written as it stands. -/
theorem read_write_read (bytes : List UInt8) (p : Program) (h : read [{ bytes := bytes }] = .ok p) :
    ∃ text, write "" (.program p) = .ok (.ok text) ∧
      (∃ q, read [{ bytes := bytesOf text }] = .ok q ∧ Program.Renumbered p q) ∧
      ∀ name, Pipeline.reformat { name := name, bytes := bytesOf text } = .ok (.ok text) := by
  obtain ⟨vs, settled, nodup⟩ := settled_of_read h
  have complete : ∀ v ∈ vs, v.Complete := by
    intro v hv
    obtain ⟨f, -, settled⟩ := exists_left_of_forall₂ settled hv
    exact settled.complete
  obtain ⟨texts, spells⟩ := exists_spells (programLines_valid fun v hv => (complete v hv).valid)
  obtain ⟨q, back, settled'⟩ := read_unlines complete nodup spells
  have written : ∀ {p : Program}, List.Forall₂ Settled p vs →
      write "" (.program p) = .ok (.ok (unlines texts)) := by
    intro p settled
    rw [write, writeProgram_eq settled spells, pure_bind, String.empty_append]
    rfl
  refine ⟨unlines texts, written settled, ⟨q, back, renumbered_of_settled settled settled'⟩, ?_⟩
  intro name
  rw [Pipeline.reformat]
  simp only [back, written settled']
  rfl

def lateLiveIn : Program :=
  [{ name := "f"
     blocks := #[{ id := 0, name := "A", code := [0], liveIn := [1] }]
     insts := #[{ op := .ret, uses := [.reg 0] }]
     layout := [0]
     regs := #["x", "y"] }]

theorem read_write_read_lateLiveIn :
    read [{ bytes := bytesOf "func f\nA:\n ret %x\n livein %y" }] = .ok lateLiveIn ∧
    ∃ text, write "" (.program lateLiveIn) = .ok (.ok text) ∧
      (∃ q, read [{ bytes := bytesOf text }] = .ok q ∧ Program.Renumbered lateLiveIn q) ∧
      ∀ name, Pipeline.reformat { name := name, bytes := bytesOf text } = .ok (.ok text) := by
  have source : read [{ bytes := bytesOf "func f\nA:\n ret %x\n livein %y" }] = .ok lateLiveIn := by
    decide +kernel
  exact ⟨source, read_write_read _ _ source⟩

end Predication.Listing
