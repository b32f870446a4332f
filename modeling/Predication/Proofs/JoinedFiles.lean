import Predication.Proofs.Arenas
import Predication.Proofs.Lines

/-!
Files of a listing that are put one below the other. A file that opens with a header can follow any
other: its header finishes the procedure that the end of the file before would have finished. The
numbers of its lines change, but they only show in complaints.
-/

set_option autoImplicit false
set_option relaxedAutoImplicit false

namespace Predication.Listing

namespace Draft

/-- Drafts that differ at most in the lines which named their blocks first. -/
structure Alike (d e : Draft) : Prop where
  procedure : d.procedure = e.procedure
  defined : d.defined = e.defined
  mentioned : d.mentioned.size = e.mentioned.size
  current : d.current = e.current

namespace Alike

variable {d e : Draft}

private theorem complete (h : d.Alike e) (complete : d.undefined? = none) : e.undefined? = none := by
  rw [undefined?_eq_none] at complete ⊢
  rwa [← h.procedure, ← h.defined, ← h.mentioned]

private theorem updateBlock (h : d.Alike e) (b : Nat) (g : Block → Block) :
    (d.updateBlock b g).Alike (e.updateBlock b g) where
  procedure := by rw [Draft.updateBlock, Draft.updateBlock, h.procedure]
  defined := h.defined
  mentioned := h.mentioned
  current := h.current

private theorem addInst (h : d.Alike e) (b : Nat) (i : Inst) : (d.addInst b i).Alike (e.addInst b i) where
  procedure := by
    simp only [Draft.addInst, Draft.updateBlock, h.procedure]
  defined := h.defined
  mentioned := h.mentioned
  current := h.current

private theorem openBlock (h : d.Alike e) (b : Nat) : (d.openBlock b).Alike (e.openBlock b) where
  procedure := by rw [Draft.openBlock, Draft.openBlock, h.procedure]
  defined := by rw [Draft.openBlock, Draft.openBlock, h.defined]
  mentioned := h.mentioned
  current := rfl

end Alike

def Agree {α : Type} (m m' : StateM Draft α) : Prop :=
  ∀ d e, d.Alike e → (m d).1 = (m' e).1 ∧ (m d).2.Alike (m' e).2

section Agreement

variable {α β : Type}

private theorem agree_pure (x : α) : Agree (pure x) (pure x) := fun _ _ alike => ⟨rfl, alike⟩

private theorem Agree.bind {m m' : StateM Draft α} {k k' : α → StateM Draft β} (h : Agree m m')
    (next : ∀ x, Agree (k x) (k' x)) : Agree (m >>= k) (m' >>= k') := by
  intro d e alike
  obtain ⟨same, alike⟩ := h d e alike
  change (k (m d).1 (m d).2).1 = (k' (m' e).1 (m' e).2).1 ∧
    (k (m d).1 (m d).2).2.Alike (k' (m' e).1 (m' e).2).2
  rw [← same]
  exact next _ _ _ alike

private theorem Agree.run {m m' : StateM Draft α} (h : Agree m m') {d e d' : Draft} {x : α}
    (alike : d.Alike e) (step : m d = (x, d')) : ∃ e', m' e = (x, e') ∧ d'.Alike e' := by
  obtain ⟨same, after⟩ := h d e alike
  rw [step] at same after
  exact ⟨(m' e).2, Prod.ext same.symm rfl, after⟩

private theorem agree_mapM {g g' : α → StateM Draft β} (h : ∀ x, Agree (g x) (g' x)) (xs : List α) :
    Agree (xs.mapM g) (xs.mapM g') := by
  induction xs with
  | nil => exact agree_pure []
  | cons x xs ih =>
    rw [List.mapM_cons, List.mapM_cons]
    exact (h x).bind fun y => ih.bind fun ys => agree_pure (y :: ys)

end Agreement

private theorem agree_register (name : String) : Agree (register name) (register name) := by
  intro d e alike
  have looks : ∀ (k : Draft → StateM Draft Reg) (d : Draft), (get >>= k) d = k d d := fun _ _ => rfl
  rw [register, looks, looks, ← alike.procedure]
  cases d.procedure.lookupReg? name with
  | some r => exact ⟨rfl, alike⟩
  | none => exact ⟨rfl, rfl, alike.defined, alike.mentioned, alike.current⟩

private theorem agree_block (line line' : Nat) (name : String) :
    Agree (block line name) (block line' name) := by
  intro d e alike
  have looks : ∀ (k : Draft → StateM Draft Nat) (d : Draft), (get >>= k) d = k d d := fun _ _ => rfl
  rw [block, block, looks, looks, ← alike.procedure]
  cases d.procedure.blocks.findIdx? (fun b : Block => decide (b.name = name)) with
  | some b => exact ⟨rfl, alike⟩
  | none =>
    have sizes : (d.mentioned.push line).size = (e.mentioned.push line').size := by
      rw [Array.size_push, Array.size_push, alike.mentioned]
    exact ⟨rfl, rfl, congrArg (·.push false) alike.defined, sizes, alike.current⟩

private theorem agree_term (t : NamedTerm) : Agree (term t) (term t) :=
  (agree_register t.reg).bind fun _ => agree_pure _

private theorem agree_operand (line line' : Nat) (x : NamedOperand) :
    Agree (operand line x) (operand line' x) := by
  cases x with
  | reg name => exact (agree_register name).bind fun _ => agree_pure _
  | imm v => exact agree_pure _
  | block name => exact (agree_block line line' name).bind fun _ => agree_pure _

private theorem agree_inst (line line' : Nat) (i : NamedInst) : Agree (inst line i) (inst line' i) :=
  (agree_mapM agree_term i.guard).bind fun _ =>
    (agree_mapM agree_register i.defs).bind fun _ =>
      (agree_mapM agree_term i.cond).bind fun _ =>
        (agree_mapM (agree_operand line line') i.uses).bind fun _ =>
          (agree_mapM agree_register i.implicits).bind fun _ => agree_pure _

end Draft

namespace Reading

/-- Readings that differ at most in the numbers of the lines that were read. -/
inductive Alike : Reading → Reading → Prop where
  | idle (finished : Program) : Alike { finished } { finished }
  | busy (finished : Program) (d e : Draft) (drafts : d.Alike e) :
      Alike { finished, draft := some d } { finished, draft := some e }

private theorem Alike.refl (r : Reading) : r.Alike r := by
  obtain ⟨finished, draft⟩ := r
  cases draft with
  | none => exact .idle finished
  | some d => exact .busy finished d d ⟨rfl, rfl, rfl, rfl⟩

theorem Closes.alike {r s t : Reading} (h : Closes r t) (alike : r.Alike s) : Closes s t := by
  cases alike with
  | idle => exact h
  | busy finished d e drafts =>
    cases h with
    | idle none => cases none
    | done d' draft complete =>
      cases draft
      have same : d.toProcedure = e.toProcedure := by
        rw [Draft.toProcedure, Draft.toProcedure, drafts.procedure]
      rw [same]
      exact .done _ e rfl (drafts.complete complete)

/-- A line has the same effect under another number. -/
theorem Takes.alike {number : Nat} {l : Line} {r s r' : Reading} (takes : Takes number l r s)
    (alike : r.Alike r') (number' : Nat) :
    ∃ s', Takes number' l r' s' ∧ s.Alike s' := by
  cases takes with
  | blank => exact ⟨r', .blank r', alike⟩
  | header name r s closes fresh =>
    exact ⟨_, .header name r' s (closes.alike alike) fresh, .refl _⟩
  | label name r d draft b e numbered fresh =>
    cases alike with
    | idle => cases draft
    | busy finished d' d'' drafts =>
      cases draft
      obtain ⟨e', numbered', after⟩ := (Draft.agree_block number number' name).run drafts numbered
      rw [after.defined] at fresh
      exact ⟨_, .label name _ d'' rfl b e' numbered' fresh, .busy finished _ _ (after.openBlock b)⟩
  | liveIn names r d draft b current regs e numbered =>
    cases alike with
    | idle => cases draft
    | busy finished d' d'' drafts =>
      cases draft
      obtain ⟨e', numbered', after⟩ :=
        (Draft.agree_mapM Draft.agree_register names).run drafts numbered
      rw [drafts.current] at current
      exact ⟨_, .liveIn names _ d'' rfl b current regs e' numbered',
        .busy finished _ _ (after.updateBlock b _)⟩
  | inst i r d draft b current x e numbered =>
    cases alike with
    | idle => cases draft
    | busy finished d' d'' drafts =>
      cases draft
      obtain ⟨e', numbered', after⟩ := (Draft.agree_inst number number' i).run drafts numbered
      rw [drafts.current] at current
      exact ⟨_, .inst i _ d'' rfl b current x e' numbered', .busy finished _ _ (after.addInst b x)⟩

theorem Runs.alike {number : Nat} {ls : List Line} {r s r' : Reading}
    (runs : Runs number ls r s) (alike : r.Alike r') (number' : Nat) :
    ∃ s', Runs number' ls r' s' ∧ s.Alike s' := by
  induction runs generalizing number' r' with
  | nil number r => exact ⟨r', .nil number' r', alike⟩
  | cons number l ls r s t first rest ih =>
    obtain ⟨s', first', alike⟩ := first.alike alike number'
    obtain ⟨t', rest', alike⟩ := ih alike (number' + 1)
    exact ⟨t', .cons number' l ls r' s' t' first' rest', alike⟩

private theorem Closes.closed {r s : Reading} (h : Closes r s) : s.draft = none := by
  cases h with
  | idle none => exact none
  | done d draft complete => rfl

private theorem Closes.eq {r s : Reading} (h : Closes r s) (none : r.draft = none) : s = r := by
  cases h with
  | idle => rfl
  | done d draft complete =>
    rw [none] at draft
    cases draft

inductive Opens : List Line → Prop where
  | nil : Opens []
  | blank (ls : List Line) (rest : Opens ls) : Opens (.blank :: ls)
  | header (name : String) (ls : List Line) : Opens (.header name :: ls)

private theorem Opens.append {ls ms : List Line} (h : Opens ls) (h' : Opens ms) : Opens (ls ++ ms) := by
  induction h with
  | nil => exact h'
  | blank ls rest ih => exact .blank _ ih
  | header name ls => exact .header name _

theorem Runs.opens {number : Nat} {ls : List Line} {r s : Reading} (runs : Runs number ls r s)
    (none : r.draft = none) : Opens ls := by
  induction runs with
  | nil => exact .nil
  | cons number l ls r s t first rest ih =>
    cases first with
    | blank => exact .blank ls (ih none)
    | header name => exact .header name ls
    | label name r d draft => rw [none] at draft; cases draft
    | liveIn names r d draft => rw [none] at draft; cases draft
    | inst i r d draft => rw [none] at draft; cases draft

private theorem Opens.finished_before {ls : List Line} (opens : Opens ls) (number number' : Nat)
    {q t : Reading} :
    (∃ r s, Closes q r ∧ Runs number ls r s ∧ Closes s t) ↔
      ∃ s, Runs number' ls q s ∧ Closes s t := by
  induction opens generalizing number number' with
  | nil =>
    constructor
    · rintro ⟨r, s, closes, runs, closes'⟩
      cases runs
      obtain rfl := closes'.eq closes.closed
      exact ⟨q, .nil _ q, closes⟩
    · rintro ⟨s, runs, closes⟩
      cases runs
      exact ⟨t, t, closes, .nil _ t, .idle t closes.closed⟩
  | blank ls rest ih =>
    have skips : ∀ {number : Nat} {r s : Reading},
        Runs number (.blank :: ls) r s ↔ Runs (number + 1) ls r s := by
      intro number r s
      constructor
      · rintro (_ | ⟨_, _, _, _, s', _, first, rest⟩)
        cases first
        exact rest
      · exact .cons number _ ls r r s (.blank r)
    simp only [skips]
    exact ih (number + 1) (number' + 1)
  | header name ls =>
    constructor
    · rintro ⟨r, s, closes, runs, closes'⟩
      rcases runs with _ | ⟨_, _, _, _, u, _, first, rest⟩
      cases first with
      | header name r u idle fresh =>
        obtain rfl := idle.eq closes.closed
        obtain ⟨s', rest', alike⟩ := rest.alike (.refl _) (number' + 1)
        exact ⟨s', .cons number' _ ls q _ s' (.header name q _ closes fresh) rest',
          closes'.alike alike⟩
    · rintro ⟨s, runs, closes⟩
      rcases runs with _ | ⟨_, _, _, _, u, _, first, rest⟩
      cases first with
      | header name r u finishes fresh =>
        obtain ⟨s', rest', alike⟩ := rest.alike (.refl _) (number + 1)
        exact ⟨u, s', finishes, .cons number _ ls u _ s'
          (.header name u u (.idle u finishes.closed) fresh) rest', closes.alike alike⟩

/-- The lines of files one after the other, each of which is numbered on its own and finishes its
last procedure. -/
inductive Passes : List (List Line) → Reading → Reading → Prop where
  | nil (r : Reading) : Passes [] r r
  | cons (ls : List Line) (lss : List (List Line)) (r s t u : Reading) (runs : Runs 1 ls r s)
      (closes : Closes s t) (rest : Passes lss t u) : Passes (ls :: lss) r u

theorem Passes.opens {lss : List (List Line)} {r t : Reading} (h : Passes lss r t)
    (none : r.draft = none) : ∀ ls ∈ lss, Opens ls := by
  induction h with
  | nil => simp
  | cons ls lss r s t u runs closes rest ih => simpa using ⟨runs.opens none, ih closes.closed⟩

private theorem opens_flatten {lss : List (List Line)} (opens : ∀ ls ∈ lss, Opens ls) :
    Opens lss.flatten := by
  induction lss with
  | nil => exact .nil
  | cons ls lss ih =>
    have later := fun ms hm => opens ms (List.mem_cons_of_mem ls hm)
    exact (opens ls List.mem_cons_self).append (ih later)

private theorem passes_iff {lss : List (List Line)} (opens : ∀ ls ∈ lss, Opens ls) {number : Nat}
    {q t : Reading} :
    (∃ r, Closes q r ∧ Passes lss r t) ↔ ∃ s, Runs number lss.flatten q s ∧ Closes s t := by
  induction lss generalizing number q with
  | nil =>
    constructor
    · rintro ⟨r, closes, passes⟩
      cases passes
      exact ⟨q, .nil number q, closes⟩
    · rintro ⟨s, runs, closes⟩
      cases runs
      exact ⟨t, closes, .nil t⟩
  | cons ls lss ih =>
    have later := fun ms hm => opens ms (List.mem_cons_of_mem ls hm)
    have both := opens_flatten opens
    rw [List.flatten_cons] at both ⊢
    rw [← both.finished_before 1 number]
    constructor
    · rintro ⟨r, closes, passes⟩
      rcases passes with _ | ⟨_, _, _, s, u, _, runs, closes', rest⟩
      obtain ⟨s', runs', finished⟩ := (ih later).mp ⟨u, closes', rest⟩
      exact ⟨r, s', closes, runs.append runs', finished⟩
    · rintro ⟨r, s', closes, runs, finished⟩
      obtain ⟨s, before, after⟩ := runs.split
      obtain ⟨u, closes', rest⟩ := (ih later).mpr ⟨s', after, finished⟩
      exact ⟨r, closes, .cons ls lss r s u t before closes' rest⟩

private theorem forM_file_iff {sources : List Source} {r t : Reading} :
    sources.forM Reading.file r = (.ok (), t) ↔
      ∃ lss, List.Forall₂ Meant (sources.map fun s => splitLines s.bytes) lss ∧ Passes lss r t := by
  induction sources generalizing r with
  | nil =>
    constructor
    · intro h
      cases h
      exact ⟨[], .nil, .nil _⟩
    · rintro ⟨lss, meant, passes⟩
      cases meant
      cases passes
      rfl
  | cons source sources ih =>
    refine bind_ok.trans ⟨?_, ?_⟩
    · rintro ⟨u, s, first, rest⟩
      obtain ⟨ls, s', meant, runs, closes⟩ := lines_iff.mp first
      obtain ⟨lss, meant', passes⟩ := ih.mp rest
      exact ⟨ls :: lss, .cons meant meant', .cons ls lss r s' s t runs closes passes⟩
    · rintro ⟨lss, meant, passes⟩
      rcases meant with _ | ⟨meant, meant'⟩
      rcases passes with _ | ⟨_, _, _, s', s, _, runs, closes, rest⟩
      exact ⟨(), s, lines_iff.mpr ⟨_, s', meant, runs, closes⟩, ih.mpr ⟨_, meant', rest⟩⟩

private theorem forM_file_singleton {source : Source} {r t : Reading} :
    [source].forM Reading.file r = (.ok (), t) ↔ Reading.file source r = (.ok (), t) := by
  refine bind_ok.trans ⟨?_, fun h => ⟨(), t, h, rfl⟩⟩
  rintro ⟨u, s, first, rest⟩
  cases rest
  exact first

private theorem splitLines_eq_nil {text : List UInt8} : splitLines text = [] ↔ text = [] := by
  cases text with
  | nil => simp [splitLines]
  | cons c text =>
    simp only [splitLines, reduceCtorEq, iff_false]
    split
    · simp
    · split <;> simp

private theorem splitLines_append {a : List UInt8} (ended : a = [] ∨ a.getLast? = some '\n'.toUInt8)
    (b : List UInt8) : splitLines (a ++ b) = splitLines a ++ splitLines b := by
  induction a with
  | nil => rfl
  | cons c a ih =>
    have last : (c :: a).getLast? = some '\n'.toUInt8 := ended.resolve_left (List.cons_ne_nil c a)
    cases a with
    | nil =>
      obtain rfl : c = '\n'.toUInt8 := by simpa using last
      rfl
    | cons c' a =>
      rw [List.getLast?_cons_cons] at last
      rw [List.cons_append, splitLines, splitLines, ih (Or.inr last)]
      split
      · rfl
      · cases first : splitLines (c' :: a) with
        | nil => exact absurd (splitLines_eq_nil.mp first) (List.cons_ne_nil c' a)
        | cons l ls => rfl

end Reading

def isBlankLine (text : List UInt8) : Bool := (Cursor.start (Reading.trimEnd text)).atEnd

def isHeaderLine (text : List UInt8) : Bool :=
  ((Cursor.start (Reading.trimEnd text)).keyword? "func").isSome

namespace Source

/-- The file is empty or ends with a line feed. -/
def Ended (s : Source) : Prop := s.bytes = [] ∨ s.bytes.getLast? = some '\n'.toUInt8

instance (s : Source) : Decidable s.Ended := inferInstanceAs (Decidable (_ ∨ _))

/-- The first line of the file that is not blank, if there is one, is a header. -/
def opensWithHeader (s : Source) : Bool :=
  ((Reading.splitLines s.bytes).find? fun text => !isBlankLine text).all isHeaderLine

/-- One file with the text of all the files. -/
def joined (name : String) (sources : List Source) : Source :=
  { name, bytes := sources.flatMap Source.bytes }

private theorem splitLines_joined (name : String) {sources : List Source}
    (ended : ∀ s ∈ sources.dropLast, s.Ended) :
    Reading.splitLines (joined name sources).bytes =
      (sources.map fun s => Reading.splitLines s.bytes).flatten := by
  unfold joined
  induction sources with
  | nil => rfl
  | cons s sources ih =>
    cases sources with
    | nil => simp
    | cons s' sources =>
      rw [List.dropLast_cons_cons] at ended
      have first := Reading.splitLines_append (ended s List.mem_cons_self)
        ((s' :: sources).flatMap Source.bytes)
      rw [List.flatMap_cons, first, ih fun x hx => ended x (List.mem_cons_of_mem _ hx)]
      rfl

end Source

namespace Reading

private theorem opens_of_meant {texts : List (List UInt8)} {ls : List Line} (meant : Meant texts ls)
    (header : (texts.find? fun text => !isBlankLine text).all isHeaderLine = true) : Opens ls := by
  induction meant with
  | nil => exact .nil
  | @cons text l texts ls means meant ih =>
    rw [List.find?_cons] at header
    cases blank : isBlankLine text with
    | true =>
      have spent : (Cursor.start (trimEnd text)).atEnd = true := blank
      rw [blank] at header
      cases means with
      | blank => exact .blank ls (ih header)
      | header more => rw [spent] at more; cases more
      | label more => rw [spent] at more; cases more
      | liveIn more => rw [spent] at more; cases more
      | inst more => rw [spent] at more; cases more
    | false =>
      have more : (Cursor.start (trimEnd text)).atEnd = false := blank
      rw [blank] at header
      have word : ((Cursor.start (trimEnd text)).keyword? "func").isSome = true := header
      cases means with
      | blank spent => rw [more] at spent; cases spent
      | header => exact .header _ ls
      | label _ plain => rw [plain] at word; cases word
      | liveIn _ plain => rw [plain] at word; cases word
      | inst _ plain => rw [plain] at word; cases word

private theorem exists_meant_of_flatten {textss : List (List (List UInt8))} {ls : List Line}
    (meant : Meant textss.flatten ls) :
    ∃ lss, List.Forall₂ Meant textss lss ∧ lss.flatten = ls := by
  induction textss generalizing ls with
  | nil =>
    cases meant
    exact ⟨[], .nil, rfl⟩
  | cons texts textss ih =>
    obtain ⟨front, back, meant', rest, rfl⟩ := exists_append_of_forall₂ meant
    obtain ⟨lss, all, rfl⟩ := ih rest
    exact ⟨front :: lss, .cons meant' all, rfl⟩

end Reading

/-- What is read from files one by one is read from the file they make together. The converse holds
of files that open with headers: another file may go on with the last procedure before it. -/
theorem read_joined (sources : List Source) (name : String)
    (ended : ∀ s ∈ sources.dropLast, s.Ended) :
    (∀ p, read sources = .ok p → read [Source.joined name sources] = .ok p) ∧
      ((∀ s ∈ sources, s.opensWithHeader) →
        ∀ p, read [Source.joined name sources] = .ok p → read sources = .ok p) := by
  have idle : Reading.Closes {} {} := .idle {} rfl
  have one {t : Reading} : [Source.joined name sources].forM Reading.file {} = (.ok (), t) ↔
      ∃ ls s, Reading.Meant (sources.map fun s => Reading.splitLines s.bytes).flatten ls ∧
        Reading.Runs 1 ls {} s ∧ Reading.Closes s t := by
    rw [← Source.splitLines_joined name ended]
    exact Reading.forM_file_singleton.trans Reading.lines_iff
  simp only [read_iff, one, Reading.forM_file_iff]
  constructor
  · rintro p ⟨t, ⟨lss, meant, passes⟩, rfl⟩
    obtain ⟨s, runs, closes⟩ := (Reading.passes_iff (passes.opens rfl)).mp ⟨{}, idle, passes⟩
    exact ⟨t, ⟨lss.flatten, s, List.rel_flatten meant, runs, closes⟩, rfl⟩
  · rintro headers p ⟨t, ⟨ls, s, meant, runs, closes⟩, rfl⟩
    obtain ⟨lss, each, rfl⟩ := Reading.exists_meant_of_flatten meant
    have opens : ∀ ls ∈ lss, Reading.Opens ls := by
      intro ls hls
      obtain ⟨texts, htexts, meant⟩ := exists_left_of_forall₂ each hls
      obtain ⟨s, hs, rfl⟩ := List.mem_map.mp htexts
      exact Reading.opens_of_meant meant (headers s hs)
    obtain ⟨r, closes', passes⟩ := (Reading.passes_iff opens).mpr ⟨s, runs, closes⟩
    obtain rfl := closes'.eq rfl
    exact ⟨t, ⟨lss, each, passes⟩, rfl⟩

def filePair : List Source :=
  [{ name := "f", bytes := bytesOf "func f\nA:\n ret %x\n" },
   { name := "g", bytes := bytesOf "// g\nfunc g\nA:\n br B\nB:\n ret" }]

/-- The procedures of both files. -/
def filePairProcedures : Program :=
  [{ name := "f"
     blocks := #[{ id := 0, name := "A", code := [0] }]
     insts := #[{ op := .ret, uses := [.reg 0] }]
     layout := [0]
     regs := #["x"] },
   { name := "g"
     blocks := #[{ id := 0, name := "A", code := [0], succs := [1] },
       { id := 1, name := "B", code := [1], preds := [0] }]
     insts := #[{ op := .br, uses := [.block 1] }, { op := .ret }]
     layout := [0, 1] }]

theorem read_joined_filePair :
    read [Source.joined "fg" filePair] = .ok filePairProcedures ∧
      read filePair = .ok filePairProcedures := by
  have separate : read filePair = .ok filePairProcedures := by decide +kernel
  have ended : ∀ s ∈ filePair.dropLast, s.Ended := by decide +kernel
  have headers : ∀ s ∈ filePair, s.opensWithHeader := by decide +kernel
  have both := read_joined filePair "fg" ended
  have together := both.1 _ separate
  exact ⟨together, both.2 headers _ together⟩

-- A file that goes on with the procedure of the file before it is read only behind that file.
example : (read [{ bytes := bytesOf "func f\nA:\n ret" }]).isOk ∧
    ¬ (read [{ bytes := bytesOf "func f\n" }, { bytes := bytesOf "A:\n ret" }]).isOk := by
  decide +kernel

end Predication.Listing
