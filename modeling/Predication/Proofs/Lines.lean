import Mathlib.Data.List.Forall2
import Predication.Proofs.BlockViews
import Predication.Proofs.Sentences

/-!
The reader as a machine that takes a line at a time. A line that is read is one of five kinds, and
its effect does not depend on how it was spelled. The lines of a procedure that was read can be
spelled, and have the same effect again.
-/

set_option autoImplicit false
set_option relaxedAutoImplicit false

namespace Predication.Listing

/-- What a line of a listing says. -/
inductive Line where
  | blank
  | header (name : String)
  | label (name : String)
  | liveIn (names : List String)
  | inst (i : NamedInst)
  deriving Repr, DecidableEq

def Line.Valid : Line → Prop
  | blank => True
  | header name => IsName name
  | label name => IsName name ∧ name ≠ "func"
  | liveIn names => ∀ r ∈ names, IsRegisterName r
  | inst i => i.Valid

private theorem name_of_label {c c' : Cursor} {name : String} (h : c.label? = some (name, c')) :
    ∃ d, c.name? = some (name, d) ∧ d.eat? ':' = some c' := by
  simp only [Cursor.label?, Option.bind_eq_bind, Option.bind_eq_some_iff] at h
  obtain ⟨⟨s, d⟩, named, e, colon, h⟩ := h
  cases h
  exact ⟨d, named, colon⟩

private theorem label?_none {c d : Cursor} {name : String} (named : c.name? = some (name, d))
    (other : peek d.rest ≠ some ':'.toUInt8) : c.label? = none := by
  simp [Cursor.label?, named, Cursor.eat?_of_peek other]

/-- How a line is written. A live-in list is written only if it has registers. -/
inductive Spells : Line → String → Prop where
  | blank : Spells .blank ""
  | header (name : String) : Spells (.header name) ("func " ++ name)
  | label (name : String) : Spells (.label name) (name ++ ":")
  | liveIn (names : List String) : Spells (.liveIn names)
      ("\tlivein" ++ String.join (names.map fun r => " " ++ registerText r))
  | inst (i : NamedInst) (text : String) (written : i.text = .ok text) :
      Spells (.inst i) ("\t" ++ text)

structure InstructionLine (i : NamedInst) (text : List UInt8) : Prop where
  some_text : (Cursor.start text).atEnd = false
  no_header : (Cursor.start text).keyword? "func" = none
  no_label : (Cursor.start text).label? = none
  no_list : (Cursor.start text).keyword? "livein" = none
  reads : ∃ c, Scan.instruction (Cursor.start text) = .ok (i, c) ∧ c.atEnd = true

private theorem instructionLine_of_peek {text : List UInt8} {i : NamedInst}
    (reads : Reads Scan.instruction text i []) {d : UInt8} (first : peek text = some d)
    (mark : d = 40 ∨ d = 37) : InstructionLine i text := by
  have solid : d ≠ '/'.toUInt8 ∧ d ≠ 102 ∧ d ≠ 108 ∧ Cursor.isNameStart d = false := by
    rcases mark with rfl | rfl <;> decide
  refine ⟨Cursor.atEnd_of_peek first solid.1, ?_, ?_, ?_, ?_⟩
  · exact Cursor.keyword?_of_peek (d := 102) (v := bytesOf "unc") (by decide)
      (by simpa [Cursor.start, first] using solid.2.1)
  · have none : (Cursor.start text).name? = none := Cursor.name?_of_peek first solid.2.2.2
    simp [Cursor.label?, none]
  · exact Cursor.keyword?_of_peek (d := 108) (v := bytesOf "ivein") (by decide)
      (by simpa [Cursor.start, first] using solid.2.2.1)
  · have := reads 0
    rw [List.append_nil] at this
    exact ⟨_, this, rfl⟩

private theorem instructionLine_of_name {i : NamedInst} (hi : i.Valid) {tail : List UInt8}
    (follows : Follows tail) (guard : i.guard = []) (defs : i.defs = [])
    (reads : Reads Scan.instruction ([9] ++ bytesOf i.op.mnemonic ++ tail) i []) :
    InstructionLine i ([9] ++ bytesOf i.op.mnemonic ++ tail) := by
  obtain ⟨header, list⟩ := hi.bare guard defs
  obtain ⟨d, first, start⟩ := hi.mnemonic.peek tail
  refine ⟨?_, ?_, ?_, ?_, ?_⟩
  · refine Cursor.atEnd_of_peek (d := d) ?_ (by rintro rfl; cases start)
    rw [Cursor.start, List.append_assoc, peek_blank blank_tab, first]
  · exact Cursor.keyword?_blank_ne blank_tab hi.mnemonic follows.stops 0 isName_func rfl header
  · exact label?_none (Cursor.name?_blank blank_tab hi.mnemonic follows.stops 0) follows.peek_ne
  · exact Cursor.keyword?_blank_ne blank_tab hi.mnemonic follows.stops 0 isName_livein rfl list
  · have := reads 0
    rw [List.append_nil] at this
    exact ⟨_, this, rfl⟩

private theorem instructionLine {i : NamedInst} (hi : i.Valid) {text : String} (written : i.text = .ok text) :
    InstructionLine i (bytesOf ("\t" ++ text)) := by
  obtain ⟨args, line⟩ := exists_argumentsLine hi.arguments
  rw [NamedInst.text_eq i line.written] at written
  cases written
  have reads := Reads.instruction blank_tab hi line
  have follows := line.follows.append (follows_implicitsText i.implicits)
  have bytes : bytesOf ("\t" ++ (guardText i.guard ++ definitionsText i.defs ++ i.op.mnemonic ++ args ++
      implicitsText i.implicits)) = [9] ++ (bytesOf (guardText i.guard) ++
        (bytesOf (definitionsText i.defs) ++ (bytesOf i.op.mnemonic ++
          (bytesOf args ++ bytesOf (implicitsText i.implicits))))) := by
    simp only [bytesOf_append, List.append_assoc]
    rfl
  rw [bytes]
  cases guard : i.guard with
  | cons t ts =>
    refine instructionLine_of_peek (guard ▸ reads) (d := 40) ?_ (Or.inl rfl)
    rw [peek_blank blank_tab, bytesOf_guardText_cons]
    exact peek_cons (by decide) _
  | nil =>
    rw [guard] at reads
    cases defs : i.defs with
    | cons r rs =>
      rw [defs] at reads
      refine instructionLine_of_peek reads (d := 37) ?_ (Or.inr rfl)
      rw [peek_blank blank_tab, show bytesOf (guardText []) = [] from rfl, List.nil_append,
        bytesOf_definitionsText_cons, List.append_assoc, peek_registerText]
    | nil =>
      rw [defs] at reads
      have same : ∀ t : List UInt8, [9] ++ (bytesOf (guardText []) ++ (bytesOf (definitionsText []) ++
          (bytesOf i.op.mnemonic ++ t))) = [9] ++ bytesOf i.op.mnemonic ++ t := fun t => by
        rw [List.append_assoc]
        rfl
      rw [same] at reads ⊢
      exact instructionLine_of_name hi follows guard defs reads

private theorem Spells.unbroken {l : Line} {s : String} (spells : Spells l s) (hl : l.Valid) :
    Unbroken (bytesOf s) := by
  cases spells with
  | blank => decide
  | header name =>
    rw [bytesOf_append]
    exact Unbroken.append (by decide) (IsName.toIsRegisterName hl).unbroken
  | label name =>
    rw [bytesOf_append]
    exact hl.1.unbroken.append (by decide)
  | liveIn names =>
    rw [bytesOf_append, bytesOf_join, List.flatMap_map]
    refine Unbroken.append (by decide) (unbroken_flatMap fun r hr => ?_)
    rw [bytesOf_append]
    exact Unbroken.append (by decide) (hl r hr).unbroken_text
  | inst i text written =>
    rw [bytesOf_append]
    exact Unbroken.append (by decide) (hl.unbroken written)

theorem Draft.undefined?_eq_none {d : Draft} :
    d.undefined? = none ↔ ∀ n < d.procedure.blocks.size, n < d.mentioned.size →
      d.defined[n]? ≠ some false := by
  simp only [Draft.undefined?, Option.map_eq_none_iff, List.find?_eq_none]
  constructor
  · intro h n block mentioned seen
    refine h (false, d.procedure.blocks[n], d.mentioned[n]) (List.mem_iff_getElem?.mpr ⟨n, ?_⟩) rfl
    simp only [List.getElem?_zip_eq_some, Array.getElem?_toList]
    exact ⟨seen, Array.getElem?_eq_getElem block, Array.getElem?_eq_getElem mentioned⟩
  · intro h x hx
    obtain ⟨n, hn⟩ := List.mem_iff_getElem?.mp hx
    simp only [List.getElem?_zip_eq_some, Array.getElem?_toList] at hn
    obtain ⟨seen, block, mentioned⟩ := hn
    have := h n (Array.getElem?_eq_some_iff.mp block).1 (Array.getElem?_eq_some_iff.mp mentioned).1
    rw [seen] at this
    simpa using this

namespace Reading

inductive Closes : Reading → Reading → Prop where
  | idle (r : Reading) (none : r.draft = none) : Closes r r
  | done (r : Reading) (d : Draft) (draft : r.draft = some d) (complete : d.undefined? = none) :
      Closes r { finished := r.finished ++ [d.toProcedure], draft := none }

/-- The effect of a line that is read without complaint. -/
inductive Takes (number : Nat) : Line → Reading → Reading → Prop where
  | blank (r : Reading) : Takes number .blank r r
  | header (name : String) (r s : Reading) (closes : Closes r s)
      (fresh : s.finished.procedure? name = none) :
      Takes number (.header name) r { s with draft := some { procedure := { name := name } } }
  | label (name : String) (r : Reading) (d : Draft) (draft : r.draft = some d) (b : Nat) (e : Draft)
      (numbered : Draft.block number name d = (b, e)) (fresh : e.defined.getD b false = false) :
      Takes number (.label name) r { r with draft := some (e.openBlock b) }
  | liveIn (names : List String) (r : Reading) (d : Draft) (draft : r.draft = some d) (b : Nat)
      (current : d.current = some b) (regs : List Reg) (e : Draft)
      (numbered : names.mapM Draft.register d = (regs, e)) :
      Takes number (.liveIn names) r
        { r with draft := some (e.updateBlock b fun x => { x with liveIn := x.liveIn ++ regs }) }
  | inst (i : NamedInst) (r : Reading) (d : Draft) (draft : r.draft = some d) (b : Nat)
      (current : d.current = some b) (x : Inst) (e : Draft)
      (numbered : Draft.inst number i d = (x, e)) :
      Takes number (.inst i) r { r with draft := some (e.addInst b x) }

section Steps

variable {α β ε : Type}

theorem bind_ok {p : ExceptT ε (StateM Reading) α} {k : α → ExceptT ε (StateM Reading) β} {y : β}
    {r s : Reading} :
    (p >>= k) r = (.ok y, s) ↔ ∃ x t, p r = (.ok x, t) ∧ k x t = (.ok y, s) :=
  run_bind_ok

private theorem get_bind_ok {k : Reading → Step β} {y : β} {r s : Reading} :
    (get >>= k) r = (.ok y, s) ↔ k r r = (.ok y, s) := Iff.rfl

private theorem modify_ok {g : Reading → Reading} {u : Unit} {r s : Reading} :
    (modify g : Step Unit) r = (.ok u, s) ↔ s = g r := by
  change (Except.ok (), g r) = (Except.ok u, s) ↔ _
  simp [eq_comm]

private theorem pure_ok {x y : α} {r s : Reading} :
    (pure x : Step α) r = (.ok y, s) ↔ x = y ∧ s = r := by
  change (Except.ok x, r) = (Except.ok y, s) ↔ _
  simp [eq_comm]

private theorem throw_ok {e : Complaint} {y : α} {r s : Reading} :
    ¬ (throw e : Step α) r = (.ok y, s) := by
  intro h
  cases h

private theorem scan_ok {part : Scan α} {c : Cursor} {x : α × Cursor} {r s : Reading} :
    scan part c r = (.ok x, s) ↔ part c = .ok x ∧ s = r := by
  unfold scan
  cases part c with
  | ok y => simp [pure_ok]
  | error e => simp [throw_ok]

private theorem lineEnd_ok {c : Cursor} {r s : Reading} :
    discard (scan Scan.lineEnd c) r = (.ok (), s) ↔ c.atEnd = true ∧ s = r := by
  have ended : Scan.lineEnd c =
      (if c.atEnd then pure () else Scan.fail (.leftover c.skip.pos) : Scan Unit) c := rfl
  unfold scan
  cases spent : c.atEnd with
  | true =>
    have : Scan.lineEnd c = .ok ((), c) := by
      rw [ended, spent]
      rfl
    rw [this]
    exact pure_ok.trans (by simp)
  | false =>
    have : Scan.lineEnd c = .error { cause := .leftover c.skip.pos } := by
      rw [ended, spent]
      rfl
    rw [this]
    constructor
    · intro h
      cases h
    · rintro ⟨h, -⟩
      cases h

end Steps

private theorem finish_eq (r : Reading) :
    finish r = match r.draft with
      | none => (.ok (), r)
      | some d => match d.undefined? with
        | some (label, line) =>
          (.error { cause := .undefinedLabel d.procedure.name label line }, { r with draft := none })
        | none => (.ok (), { finished := r.finished ++ [d.toProcedure], draft := none }) := by
  obtain ⟨finished, draft⟩ := r
  cases draft with
  | none => rfl
  | some d =>
    change (match d.undefined? with
      | some (label, line) => throw { cause := .undefinedLabel d.procedure.name label line }
      | none => modify fun r => { r with finished := r.finished ++ [d.toProcedure] } : Step Unit)
      { finished := finished, draft := none } = _
    cases label : d.undefined? with
    | none =>
      simp only [label]
      rfl
    | some x =>
      simp only [label]
      rfl

private theorem finish_iff {r s : Reading} : finish r = (.ok (), s) ↔ Closes r s := by
  rw [finish_eq]
  constructor
  · intro h
    cases draft : r.draft with
    | none =>
      rw [draft] at h
      cases h
      exact .idle r draft
    | some d =>
      rw [draft] at h
      cases complete : d.undefined? with
      | none =>
        simp only [complete] at h
        cases h
        exact .done r d draft complete
      | some x =>
        simp only [complete] at h
        cases h
  · rintro (none | ⟨d, draft, complete⟩)
    · rw [none]
    · rw [draft]
      simp only [complete]

private theorem header_iff {c : Cursor} {r s : Reading} :
    header c r = (.ok (), s) ↔ ∃ t name d, Closes r t ∧ c.name? = some (name, d) ∧
      t.finished.procedure? name = none ∧ d.atEnd = true ∧
      s = { t with draft := some { procedure := { name := name } } } := by
  unfold header
  rw [bind_ok]
  constructor
  · rintro ⟨u, t, closes, h⟩
    cases named : c.name? with
    | none =>
      rw [named] at h
      exact absurd h throw_ok
    | some x =>
      rw [named] at h
      obtain ⟨name, d⟩ := x
      simp only [get_bind_ok] at h
      split at h
      · exact absurd h throw_ok
      · rename_i fresh
        obtain ⟨u, v, opened, ended⟩ := bind_ok.mp h
        obtain ⟨spent, rfl⟩ := lineEnd_ok.mp ended
        exact ⟨t, name, d, finish_iff.mp closes, rfl, by simpa using fresh, spent,
          modify_ok.mp opened⟩
  · rintro ⟨t, name, d, closes, named, fresh, spent, rfl⟩
    refine ⟨(), t, finish_iff.mpr closes, ?_⟩
    rw [named]
    simp only [get_bind_ok, fresh, Option.isSome_none, Bool.false_eq_true, if_false]
    exact bind_ok.mpr ⟨(), _, modify_ok.mpr rfl, lineEnd_ok.mpr ⟨spent, rfl⟩⟩

private theorem labelled_iff {number : Nat} {d : Draft} {name : String} {b : Nat} {e : Draft}
    (numbered : Draft.block number name d = (b, e)) {c : Cursor} {r s : Reading} :
    labelled number d name c r = (.ok (), s) ↔
      e.defined.getD b false = false ∧ c.atEnd = true ∧
        s = { r with draft := some (e.openBlock b) } := by
  have run : (Draft.block number name).run d = (b, e) := numbered
  simp only [labelled, run]
  cases e.defined.getD b false with
  | true => exact ⟨fun h => absurd h throw_ok, fun h => Bool.noConfusion h.1⟩
  | false =>
    refine bind_ok.trans ⟨?_, ?_⟩
    · rintro ⟨u, t, opened, ended⟩
      obtain ⟨spent, rfl⟩ := lineEnd_ok.mp ended
      exact ⟨rfl, spent, modify_ok.mp opened⟩
    · rintro ⟨-, spent, rfl⟩
      exact ⟨(), _, modify_ok.mpr rfl, lineEnd_ok.mpr ⟨spent, rfl⟩⟩

private theorem inBlock_liveIn_iff {number : Nat} {d : Draft} {b : Nat} {c c' : Cursor}
    (word : c.keyword? "livein" = some c') {r s : Reading} :
    inBlock number d b c r = (.ok (), s) ↔
      ∃ names c'' regs e, Scan.liveIn c' = .ok (names, c'') ∧
        names.mapM Draft.register d = (regs, e) ∧
        s = { r with draft := some (e.updateBlock b fun x => { x with liveIn := x.liveIn ++ regs }) } := by
  simp only [inBlock, word]
  refine bind_ok.trans ⟨?_, ?_⟩
  · rintro ⟨⟨names, c''⟩, t, scanned, h⟩
    obtain ⟨read, rfl⟩ := scan_ok.mp scanned
    exact ⟨names, c'', _, _, read, rfl, modify_ok.mp h⟩
  · rintro ⟨names, c'', regs, e, read, numbered, rfl⟩
    refine ⟨(names, c''), r, scan_ok.mpr ⟨read, rfl⟩, ?_⟩
    have run : (names.mapM Draft.register).run d = (regs, e) := numbered
    simp only [run]
    exact modify_ok.mpr rfl

private theorem inBlock_inst_iff {number : Nat} {d : Draft} {b : Nat} {c : Cursor}
    (word : c.keyword? "livein" = none) {r s : Reading} :
    inBlock number d b c r = (.ok (), s) ↔
      ∃ i c' x e, Scan.instruction c = .ok (i, c') ∧ c'.atEnd = true ∧
        Draft.inst number i d = (x, e) ∧ s = { r with draft := some (e.addInst b x) } := by
  simp only [inBlock, word]
  refine bind_ok.trans ⟨?_, ?_⟩
  · rintro ⟨⟨i, c'⟩, t, scanned, h⟩
    obtain ⟨read, rfl⟩ := scan_ok.mp scanned
    obtain ⟨u, v, added, ended⟩ := bind_ok.mp h
    obtain ⟨spent, rfl⟩ := lineEnd_ok.mp ended
    exact ⟨i, c', _, _, read, spent, rfl, modify_ok.mp added⟩
  · rintro ⟨i, c', x, e, read, spent, numbered, rfl⟩
    refine ⟨(i, c'), r, scan_ok.mpr ⟨read, rfl⟩, ?_⟩
    have run : (Draft.inst number i).run d = (x, e) := numbered
    simp only [run]
    exact bind_ok.mpr ⟨(), _, modify_ok.mpr rfl, lineEnd_ok.mpr ⟨spent, rfl⟩⟩

/-- What the text of a line means, whatever was read before. -/
inductive Means (text : List UInt8) : Line → Prop where
  | blank (spent : (Cursor.start text).atEnd = true) : Means text .blank
  | header {name : String} {c d : Cursor} (more : (Cursor.start text).atEnd = false)
      (word : (Cursor.start text).keyword? "func" = some c) (named : c.name? = some (name, d))
      (spent : d.atEnd = true) : Means text (.header name)
  | label {name : String} {c : Cursor} (more : (Cursor.start text).atEnd = false)
      (plain : (Cursor.start text).keyword? "func" = none)
      (labelled : (Cursor.start text).label? = some (name, c)) (spent : c.atEnd = true) :
      Means text (.label name)
  | liveIn {names : List String} {c d : Cursor} (more : (Cursor.start text).atEnd = false)
      (plain : (Cursor.start text).keyword? "func" = none)
      (unlabelled : (Cursor.start text).label? = none)
      (word : (Cursor.start text).keyword? "livein" = some c)
      (read : Scan.liveIn c = .ok (names, d)) : Means text (.liveIn names)
  | inst {i : NamedInst} {c : Cursor} (more : (Cursor.start text).atEnd = false)
      (plain : (Cursor.start text).keyword? "func" = none)
      (unlabelled : (Cursor.start text).label? = none)
      (unlisted : (Cursor.start text).keyword? "livein" = none)
      (read : Scan.instruction (Cursor.start text) = .ok (i, c)) (spent : c.atEnd = true) :
      Means text (.inst i)

theorem Means.valid {text : List UInt8} {l : Line} (means : Means text l) : l.Valid := by
  cases means with
  | blank => trivial
  | header more word named spent => exact Cursor.isName_of_name? named
  | label more plain labelled spent =>
    obtain ⟨c, named, -⟩ := name_of_label labelled
    exact ⟨Cursor.isName_of_name? named, Cursor.ne_of_keyword? rfl named plain⟩
  | liveIn more plain unlabelled word read => exact Yields.liveIn _ _ _ read
  | inst more plain unlabelled unlisted read spent => exact valid_of_instruction read plain unlisted

private theorem takes_of_line {number : Nat} {text : List UInt8} {r s : Reading}
    (h : line number text r = (.ok (), s)) : ∃ l, Means text l ∧ Takes number l r s := by
  unfold line at h
  cases more : (Cursor.start text).atEnd with
  | true =>
    rw [more, if_pos rfl] at h
    obtain ⟨-, rfl⟩ := pure_ok.mp h
    exact ⟨.blank, .blank more, .blank s⟩
  | false =>
    rw [more, if_neg Bool.false_ne_true] at h
    cases word : Cursor.keyword? (Cursor.start text) "func" with
    | some c =>
      simp only [word] at h
      obtain ⟨t, name, d, closes, named, fresh, spent, rfl⟩ := header_iff.mp h
      exact ⟨.header name, .header more word named spent, .header name r t closes fresh⟩
    | none =>
      simp only [word] at h
      rw [get_bind_ok] at h
      cases draft : r.draft with
      | none =>
        rw [draft] at h
        exact absurd h throw_ok
      | some d =>
        simp only [draft] at h
        cases labelled : Cursor.label? (Cursor.start text) with
        | some x =>
          obtain ⟨name, c⟩ := x
          simp only [labelled] at h
          obtain ⟨fresh, spent, rfl⟩ := (labelled_iff rfl).mp h
          exact ⟨.label name, .label more word labelled spent, .label name r d draft _ _ rfl fresh⟩
        | none =>
          simp only [labelled] at h
          cases current : d.current with
          | none =>
            rw [current] at h
            exact absurd h throw_ok
          | some b =>
            simp only [current] at h
            cases list : Cursor.keyword? (Cursor.start text) "livein" with
            | some c =>
              obtain ⟨names, c', regs, e, read, numbered, rfl⟩ := (inBlock_liveIn_iff list).mp h
              exact ⟨.liveIn names, .liveIn more word labelled list read,
                .liveIn names r d draft b current regs e numbered⟩
            | none =>
              obtain ⟨i, c', x, e, read, spent, numbered, rfl⟩ := (inBlock_inst_iff list).mp h
              exact ⟨.inst i, .inst more word labelled list read spent,
                .inst i r d draft b current x e numbered⟩

private theorem line_of_means {number : Nat} {text : List UInt8} {l : Line} {r s : Reading}
    (means : Means text l) (takes : Takes number l r s) : line number text r = (.ok (), s) := by
  unfold line
  cases means with
  | blank spent =>
    cases takes
    rw [spent, if_pos rfl]
    rfl
  | header more word named spent =>
    cases takes with
    | header name r t closes fresh =>
      simp only [more, word, Bool.false_eq_true, if_false]
      exact header_iff.mpr ⟨t, _, _, closes, named, fresh, spent, rfl⟩
  | label more plain labelled spent =>
    cases takes with
    | label name r d draft b e numbered fresh =>
      simp only [more, plain, Bool.false_eq_true, if_false, get_bind_ok, draft, labelled]
      exact (labelled_iff numbered).mpr ⟨fresh, spent, rfl⟩
  | liveIn more plain unlabelled word read =>
    cases takes with
    | liveIn names r d draft b current regs e numbered =>
      simp only [more, plain, Bool.false_eq_true, if_false, get_bind_ok, draft, unlabelled, current]
      exact (inBlock_liveIn_iff word).mpr ⟨_, _, regs, e, read, numbered, rfl⟩
  | inst more plain unlabelled unlisted read spent =>
    cases takes with
    | inst i r d draft b current x e numbered =>
      simp only [more, plain, Bool.false_eq_true, if_false, get_bind_ok, draft, unlabelled, current]
      exact (inBlock_inst_iff unlisted).mpr ⟨_, _, x, e, read, spent, numbered, rfl⟩

private theorem means_header {name : String} (hn : IsName name) :
    Means (bytesOf ("func " ++ name)) (.header name) := by
  have bytes : bytesOf ("func " ++ name) = [] ++ bytesOf "func" ++ ([32] ++ bytesOf name ++ []) := by
    rw [bytesOf_append, List.append_nil]
    rfl
  have word : Cursor.keyword? (Cursor.start (bytesOf ("func " ++ name))) "func" = some
      ⟨4, [32] ++ bytesOf name ++ []⟩ := by
    rw [bytes]
    exact Cursor.keyword?_blank blank_nil isName_func rfl (stops_cons (by decide) _) 0
  have goes : (Cursor.start (bytesOf ("func " ++ name))).atEnd = false := by
    refine Cursor.atEnd_of_peek (d := 102) ?_ (by decide)
    rw [bytes]
    exact peek_cons (by decide) _
  exact .header goes word (Cursor.name?_blank blank_space hn stops_nil 4) rfl

private theorem means_label {name : String} (hn : IsName name) (other : name ≠ "func") :
    Means (bytesOf (name ++ ":")) (.label name) := by
  have bytes : bytesOf (name ++ ":") = [] ++ bytesOf name ++ [58] := bytesOf_append name ":"
  have stop : Stops [58] := stops_cons (by decide) []
  obtain ⟨d, first, start⟩ := hn.peek [58]
  have goes : (Cursor.start (bytesOf (name ++ ":"))).atEnd = false := by
    refine Cursor.atEnd_of_peek (d := d) ?_ (by rintro rfl; cases start)
    rw [bytes]
    exact first
  have word : Cursor.keyword? (Cursor.start (bytesOf (name ++ ":"))) "func" = none := by
    rw [bytes]
    exact Cursor.keyword?_blank_ne blank_nil hn stop 0 isName_func rfl other
  have named : ∃ pos, (Cursor.start (bytesOf (name ++ ":"))).label? = some (name, ⟨pos, []⟩) := by
    rw [bytes]
    exact ⟨_, Cursor.label?_blank blank_nil hn [] 0⟩
  obtain ⟨pos, named⟩ := named
  exact .label goes word named rfl

private theorem means_liveIn {names : List String} (hn : ∀ r ∈ names, IsRegisterName r) :
    Means (bytesOf ("\tlivein" ++ String.join (names.map fun r => " " ++ registerText r)))
      (.liveIn names) := by
  have bytes : bytesOf ("\tlivein" ++ String.join (names.map fun r => " " ++ registerText r)) =
      [9] ++ bytesOf "livein" ++ names.flatMap fun r => bytesOf (" " ++ registerText r) := by
    rw [bytesOf_append, bytesOf_join, List.flatMap_map]
    rfl
  have follows : Follows (names.flatMap fun r => bytesOf (" " ++ registerText r)) := by
    cases names with
    | nil => exact Or.inl rfl
    | cons n names => exact Or.inr ⟨37, _, rfl, by decide, by decide⟩
  have reads : Reads Scan.liveIn (names.flatMap fun r => bytesOf (" " ++ registerText r)) names [] := by
    refine Reads.remaining (Reads.liveInFrom hn ?_)
    have : names.length ≤ (names.flatMap fun r => bytesOf (" " ++ registerText r)).length :=
      length_le_flatMap names fun r => by
        rw [bytesOf_append, List.length_append]
        exact Nat.le_add_right 1 _
    omega
  rw [bytes]
  have goes : Cursor.atEnd (Cursor.start ([9] ++ bytesOf "livein" ++
      names.flatMap fun r => bytesOf (" " ++ registerText r))) = false := by
    refine Cursor.atEnd_of_peek (d := 108) ?_ (by decide)
    exact (peek_blank blank_tab _).trans (peek_cons (by decide) _)
  have header : Cursor.keyword? (Cursor.start ([9] ++ bytesOf "livein" ++
      names.flatMap fun r => bytesOf (" " ++ registerText r))) "func" = none :=
    Cursor.keyword?_blank_ne blank_tab isName_livein follows.stops 0 isName_func rfl (by decide)
  have unlabelled : Cursor.label? (Cursor.start ([9] ++ bytesOf "livein" ++
      names.flatMap fun r => bytesOf (" " ++ registerText r))) = none :=
    label?_none (Cursor.name?_blank blank_tab isName_livein follows.stops 0) follows.peek_ne
  have word := Cursor.keyword?_blank blank_tab isName_livein rfl follows.stops 0
  have read := reads (0 + [9].length + (bytesOf "livein").length)
  rw [List.append_nil] at read
  exact .liveIn goes header unlabelled word read

private theorem means_of_spells {l : Line} {s : String} (spells : Spells l s) (hl : l.Valid) :
    Means (bytesOf s) l := by
  cases spells with
  | blank => exact .blank rfl
  | header name => exact means_header hl
  | label name => exact means_label hl.1 hl.2
  | liveIn names => exact means_liveIn hl
  | inst i text written =>
    have spelled := instructionLine hl written
    obtain ⟨c, reads, spent⟩ := spelled.reads
    exact .inst spelled.some_text spelled.no_header spelled.no_label spelled.no_list reads spent

inductive Runs : (number : Nat) → List Line → Reading → Reading → Prop where
  | nil (number : Nat) (r : Reading) : Runs number [] r r
  | cons (number : Nat) (l : Line) (ls : List Line) (r s t : Reading) (first : Takes number l r s)
      (rest : Runs (number + 1) ls s t) : Runs number (l :: ls) r t

theorem Runs.append {number : Nat} {ls ms : List Line} {r s t : Reading} (h : Runs number ls r s)
    (h' : Runs (number + ls.length) ms s t) : Runs number (ls ++ ms) r t := by
  induction h with
  | nil number r => exact h'
  | cons number l ls r s t first rest ih =>
    refine .cons number l _ r s _ first (ih ?_)
    rwa [List.length_cons, Nat.add_comm ls.length, ← Nat.add_assoc] at h'

theorem Runs.split {number : Nat} {ls ms : List Line} {r t : Reading}
    (h : Runs number (ls ++ ms) r t) :
    ∃ s, Runs number ls r s ∧ Runs (number + ls.length) ms s t := by
  induction ls generalizing number r with
  | nil => exact ⟨r, .nil number r, h⟩
  | cons l ls ih =>
    cases h with
    | cons number l' ls' r s t first rest =>
      obtain ⟨s', before, after⟩ := ih rest
      rw [Nat.add_assoc, Nat.add_comm 1] at after
      exact ⟨s', .cons number l ls r s s' first before, after⟩

private theorem splitLines_cons (line : List UInt8) (hl : Unbroken line) (rest : List UInt8) :
    splitLines (line ++ '\n'.toUInt8 :: rest) = line :: splitLines rest := by
  induction line with
  | nil => rfl
  | cons c line ih =>
    have more : c ≠ '\n'.toUInt8 := (hl c (by simp)).1
    rw [List.cons_append, splitLines, if_neg more, ih fun d hd => hl d (by simp [hd])]

private theorem trimEnd_unbroken {line : List UInt8} (hl : Unbroken line) : trimEnd line = line := by
  have stays : line.reverse.dropWhile (· == '\r'.toUInt8) = line.reverse := by
    cases last : line.reverse with
    | nil => rfl
    | cons c rest =>
      have : c ∈ line := by
        rw [← List.mem_reverse, last]
        exact List.mem_cons_self
      simp [(hl c this).2]
  rw [trimEnd, stays, List.reverse_reverse]

private theorem located_ok {file : String} {number : Option Nat} {step : Step Unit} {r s : Reading} :
    located file number step r = (.ok (), s) ↔ step r = (.ok (), s) := by
  unfold located
  rcases step r with ⟨_ | u, t⟩
  · constructor <;> intro h <;> cases h
  · constructor <;> intro h <;> cases h <;> rfl

def Meant (texts : List (List UInt8)) (ls : List Line) : Prop :=
  List.Forall₂ (fun text l => Means (trimEnd text) l) texts ls

theorem Meant.valid {texts : List (List UInt8)} {ls : List Line} (meant : Meant texts ls) :
    ∀ l ∈ ls, l.Valid := by
  induction meant with
  | nil => simp
  | cons means meant ih => simpa using ⟨means.valid, ih⟩

private theorem meant_of_spells {ls : List Line} {texts : List String}
    (spells : List.Forall₂ Spells ls texts) (valid : ∀ l ∈ ls, l.Valid) :
    Meant (texts.map bytesOf) ls := by
  induction spells with
  | nil => exact .nil
  | cons spell spells ih =>
    have hl := valid _ List.mem_cons_self
    have means := means_of_spells spell hl
    rw [← trimEnd_unbroken (spell.unbroken hl)] at means
    exact .cons means (ih fun l hl => valid l (List.mem_cons_of_mem _ hl))

theorem lines_iff {file : String} {number : Nat} {texts : List (List UInt8)} {r t : Reading} :
    lines file number texts r = (.ok (), t) ↔
      ∃ ls s, Meant texts ls ∧ Runs number ls r s ∧ Closes s t := by
  constructor
  · intro h
    induction texts generalizing number r with
    | nil => exact ⟨[], r, .nil, .nil number r, finish_iff.mp (located_ok.mp h)⟩
    | cons text texts ih =>
      obtain ⟨u, s, first, h⟩ := bind_ok.mp h
      obtain ⟨l, means, takes⟩ := takes_of_line (located_ok.mp first)
      obtain ⟨ls, s', meant, runs, closes⟩ := ih h
      exact ⟨l :: ls, s', .cons means meant, .cons number l ls r s s' takes runs, closes⟩
  · rintro ⟨ls, s, meant, runs, closes⟩
    induction meant generalizing number r with
    | nil =>
      cases runs
      exact located_ok.mpr (finish_iff.mpr closes)
    | cons means meant ih =>
      cases runs with
      | cons number l ls r s' s first rest =>
        exact bind_ok.mpr ⟨(), s', located_ok.mpr (line_of_means means first), ih rest⟩

private theorem splitLines_spelled {ls : List Line} {texts : List String}
    (spells : List.Forall₂ Spells ls texts) (valid : ∀ l ∈ ls, l.Valid) :
    splitLines (texts.flatMap fun s => bytesOf (s ++ "\n")) = texts.map bytesOf := by
  induction spells with
  | nil => rfl
  | @cons l text ls texts spell spells ih =>
    have unbroken := spell.unbroken (valid l (by simp))
    have bytes : bytesOf (text ++ "\n") = bytesOf text ++ ['\n'.toUInt8] := bytesOf_append text "\n"
    rw [List.flatMap_cons, bytes, List.append_assoc, List.singleton_append,
      splitLines_cons _ unbroken, ih fun m hm => valid m (by simp [hm]), List.map_cons]

end Reading

theorem read_iff {sources : List Source} {p : Program} :
    read sources = .ok p ↔ ∃ t, sources.forM Reading.file {} = (.ok (), t) ∧ t.finished = p := by
  have run : (sources.forM Reading.file).run {} = sources.forM Reading.file {} := rfl
  unfold read readAll
  rw [run]
  rcases sources.forM Reading.file {} with ⟨_ | u, t⟩
  · constructor
    · intro h
      cases h
    · rintro ⟨s, hs, -⟩
      cases hs
  · constructor
    · intro h
      cases h
      exact ⟨t, rfl, rfl⟩
    · rintro ⟨s, hs, rfl⟩
      cases hs
      rfl

theorem read_of_runs {ls : List Line} {texts : List String}
    (spells : List.Forall₂ Spells ls texts) (valid : ∀ l ∈ ls, l.Valid) {s t : Reading}
    (runs : Reading.Runs 1 ls {} s) (closes : Reading.Closes s t) :
    read [{ bytes := texts.flatMap fun s => bytesOf (s ++ "\n") }] = .ok t.finished := by
  refine read_iff.mpr ⟨t, Reading.bind_ok.mpr ⟨(), t, ?_, rfl⟩, rfl⟩
  rw [Reading.file, Reading.splitLines_spelled spells valid]
  exact Reading.lines_iff.mpr ⟨ls, s, Reading.meant_of_spells spells valid, runs, closes⟩

end Predication.Listing
