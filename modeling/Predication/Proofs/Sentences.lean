import Predication.Proofs.Phrases

/-!
Lines of a listing. An instruction that was read can be written, and its line reads back as the same
instruction.
-/

set_option autoImplicit false
set_option relaxedAutoImplicit false

namespace Predication.Listing

private theorem mnemonic_ofMnemonic (name : String) : (Op.ofMnemonic name).mnemonic = name := by
  unfold Op.ofMnemonic
  split_ifs <;> simp_all [Op.mnemonic]

/-- The condition and the operands that an operation takes. -/
def ValidArguments (cond : List NamedTerm) (uses : List NamedOperand) : Op → Prop
  | .phi => cond = [] ∧ ∃ xs, uses = inputUses xs ∧ ∀ x ∈ xs, x.1.Valid ∧ IsName x.2
  | .sel => cond ≠ [] ∧ (∀ t ∈ cond, IsRegisterName t.reg) ∧
      ∃ x y, uses = [x, y] ∧ x.Valid ∧ y.Valid
  | .brc => cond ≠ [] ∧ (∀ t ∈ cond, IsRegisterName t.reg) ∧ ∃ s, uses = [.block s] ∧ IsName s
  | .br => cond = [] ∧ ∃ s, uses = [.block s] ∧ IsName s
  | _ => cond = [] ∧ (∀ u ∈ uses, u.Valid) ∧ uses.head? ≠ some (.block "implicit")

/-- An instruction that a line can spell. One that starts with its operation is not taken for the
start of a procedure or for a live-in list. -/
structure NamedInst.Valid (i : NamedInst) : Prop where
  guard : ∀ t ∈ i.guard, IsRegisterName t.reg
  defs : ∀ r ∈ i.defs, IsRegisterName r
  op : Op.ofMnemonic i.op.mnemonic = i.op
  mnemonic : IsName i.op.mnemonic
  bare : i.guard = [] → i.defs = [] → i.op.mnemonic ≠ "func" ∧ i.op.mnemonic ≠ "livein"
  arguments : ValidArguments i.cond i.uses i.op
  implicits : ∀ r ∈ i.implicits, IsRegisterName r

/-- What may follow the name of an operation: nothing, or a blank and a word that does not make a
label of the name. -/
def Follows (t : List UInt8) : Prop :=
  t = [] ∨ ∃ d u, t = 32 :: d :: u ∧ isBlank d = false ∧ d ≠ ':'.toUInt8

theorem Follows.append {t u : List UInt8} (ht : Follows t) (hu : Follows u) : Follows (t ++ u) := by
  rcases ht with rfl | ⟨d, v, rfl, solid, other⟩
  · exact hu
  · exact Or.inr ⟨d, v ++ u, rfl, solid, other⟩

theorem Follows.stops {t : List UInt8} (ht : Follows t) : Stops t := by
  rcases ht with rfl | ⟨d, v, rfl, -, -⟩
  · exact stops_nil
  · exact stops_cons (by decide) _

theorem Follows.peek_ne {t : List UInt8} (ht : Follows t) : peek t ≠ some ':'.toUInt8 := by
  rcases ht with rfl | ⟨d, v, rfl, solid, other⟩
  · simp
  · have : peek (32 :: d :: v) = some d := (peek_blank blank_space _).trans (peek_cons solid v)
    simpa [this] using other

private theorem NamedOperand.Valid.head {x : NamedOperand} (hx : x.Valid) :
    ∃ d w, bytesOf x.text = d :: w ∧ isBlank d = false ∧ d ≠ ':'.toUInt8 := by
  cases x with
  | reg s => exact ⟨37, bytesOf s, bytesOf_registerText s, by decide, by decide⟩
  | imm v =>
    obtain ⟨d, w, head, digit | rfl⟩ := Cursor.bytesOf_int_head v
    · refine ⟨d, w, head, isBlank_of_isNameChar d (isNameChar_of_isDigit digit), ?_⟩
      rintro rfl
      cases digit
    · exact ⟨45, w, head, by decide, by decide⟩
  | block s =>
    obtain ⟨d, w, head, start⟩ := IsName.head hx
    refine ⟨d, w, head, isBlank_of_isNameChar d (isNameChar_of_isNameStart start), ?_⟩
    rintro rfl
    cases start

private theorem follows_operand {x : NamedOperand} (hx : x.Valid) (t : List UInt8) :
    Follows (32 :: (bytesOf x.text ++ t)) := by
  obtain ⟨d, w, head, solid, other⟩ := hx.head
  exact Or.inr ⟨d, w ++ t, by rw [head]; rfl, solid, other⟩

private theorem follows_condition (c : List NamedTerm) (t : List UInt8) :
    Follows (32 :: (bytesOf (conditionText c) ++ t)) := by
  match c with
  | [⟨reg, true⟩] => exact Or.inr ⟨33, _, rfl, by decide, by decide⟩
  | [⟨reg, false⟩] => exact Or.inr ⟨37, _, rfl, by decide, by decide⟩
  | [] => exact Or.inr ⟨40, _, rfl, by decide, by decide⟩
  | a :: b :: l =>
    have text : bytesOf (conditionText (a :: b :: l)) =
        40 :: (bytesOf (termsText (a :: b :: l)) ++ [41]) := by
      simp only [conditionText, bytesOf_append, List.append_assoc]
      rfl
    exact Or.inr ⟨40, _, by rw [text]; rfl, by decide, by decide⟩

private theorem inputTexts_inputUses (xs : List (NamedOperand × String)) :
    inputTexts (inputUses xs) = .ok (xs.map fun x => " " ++ inputText x) := by
  induction xs with
  | nil => rfl
  | cons x xs ih =>
    have text : " [" ++ x.1.text ++ ", " ++ x.2 ++ "]" = " " ++ inputText x := by
      simp only [inputText, ← String.append_assoc]
      rfl
    have step : inputTexts (inputUses (x :: xs)) =
        (inputTexts (inputUses xs)).map ((" [" ++ x.1.text ++ ", " ++ x.2 ++ "]") :: ·) := rfl
    rw [step, ih, text]
    rfl

structure ArgumentsLine (i : NamedInst) (text : String) : Prop where
  written : argumentsText i = .ok text
  follows : Follows (bytesOf text)
  unbroken : Unbroken (bytesOf text)
  reads : ∀ rest, AtTail rest true → Stops rest →
    Reads (Scan.arguments i.op) (bytesOf text) (i.cond, i.uses) rest

private theorem argumentsLine_phi {xs : List (NamedOperand × String)}
    (hxs : ∀ x ∈ xs, x.1.Valid ∧ IsName x.2) (guard : List NamedTerm) (defs implicits : List String) :
    ArgumentsLine { guard, defs, op := .phi, uses := inputUses xs, implicits }
      (",".intercalate (xs.map fun x => " " ++ inputText x)) where
  written := by
    rw [argumentsText, inputTexts_inputUses]
    rfl
  follows := by
    cases xs with
    | nil => exact Or.inl rfl
    | cons x xs =>
      rw [bytesOf_spaced inputText, bytesOf_inputText, List.cons_append]
      exact Or.inr ⟨91, _, rfl, by decide, by decide⟩
  unbroken := by
    refine unbroken_intercalate (by decide) ?_
    intro s hs
    obtain ⟨x, hx, rfl⟩ := List.mem_map.mp hs
    rw [bytesOf_append]
    exact Unbroken.append (by decide) (unbroken_inputText (hxs x hx))
  reads := by
    intro rest tail stop
    have room := length_le_spaced inputText xs
    exact Reads.remaining (Reads.map (Reads.inputs hxs (by omega) tail))

private theorem argumentsLine_sel {c : List NamedTerm} (nonempty : c ≠ [])
    (hc : ∀ t ∈ c, IsRegisterName t.reg) {x y : NamedOperand} (hx : x.Valid) (hy : y.Valid)
    (guard : List NamedTerm) (defs implicits : List String) :
    ArgumentsLine { guard, defs, op := .sel, cond := c, uses := [x, y], implicits }
      (" " ++ conditionText c ++ (", " ++ x.text ++ (", " ++ y.text))) := by
  have text : bytesOf (" " ++ conditionText c ++ (", " ++ x.text ++ (", " ++ y.text))) =
      [32] ++ bytesOf (conditionText c) ++ ([] ++ ','.toUInt8 ::
        ([32] ++ bytesOf x.text ++ ([] ++ ','.toUInt8 :: ([32] ++ bytesOf y.text)))) := by
    simp only [bytesOf_append, List.append_assoc, List.nil_append]
    rfl
  refine ⟨?_, ?_, ?_, ?_⟩
  · have some_term : c.isEmpty = false := by simpa using nonempty
    simp [argumentsText, some_term, String.append_assoc, String.join]
  · rw [text, List.append_assoc]
    exact follows_condition c _
  · simp only [bytesOf_append]
    refine Unbroken.append (Unbroken.append ?_ (unbroken_conditionText hc))
      (Unbroken.append (Unbroken.append ?_ hx.unbroken) (Unbroken.append ?_ hy.unbroken))
    all_goals decide
  · intro rest tail stop
    rw [text]
    refine Reads.bind (Reads.condition blank_space nonempty hc (stops_cons (by decide) _)) ?_
    refine Reads.expect blank_nil ',' (by decide) ?_
    refine Reads.bind (Reads.operand blank_space hx (stops_cons (by decide) _)) ?_
    refine Reads.expect blank_nil ',' (by decide) ?_
    exact Reads.map (Reads.operand blank_space hy stop)

private theorem argumentsLine_brc {c : List NamedTerm} (nonempty : c ≠ [])
    (hc : ∀ t ∈ c, IsRegisterName t.reg) {s : String} (hs : IsName s)
    (guard : List NamedTerm) (defs implicits : List String) :
    ArgumentsLine { guard, defs, op := .brc, cond := c, uses := [.block s], implicits }
      (" " ++ conditionText c ++ (", " ++ s)) := by
  have text : bytesOf (" " ++ conditionText c ++ (", " ++ s)) =
      [32] ++ bytesOf (conditionText c) ++ ([] ++ ','.toUInt8 :: ([32] ++ bytesOf s)) := by
    simp only [bytesOf_append, List.append_assoc, List.nil_append]
    rfl
  refine ⟨?_, ?_, ?_, ?_⟩
  · have some_term : c.isEmpty = false := by simpa using nonempty
    simp [argumentsText, some_term, String.join, NamedOperand.text]
  · rw [text, List.append_assoc]
    exact follows_condition c _
  · simp only [bytesOf_append]
    refine Unbroken.append (Unbroken.append ?_ (unbroken_conditionText hc))
      (Unbroken.append ?_ hs.unbroken)
    all_goals decide
  · intro rest tail stop
    rw [text]
    refine Reads.bind (Reads.condition blank_space nonempty hc (stops_cons (by decide) _)) ?_
    refine Reads.expect blank_nil ',' (by decide) ?_
    exact Reads.map (Reads.label blank_space hs stop)

private theorem argumentsLine_br {s : String} (hs : IsName s)
    (guard : List NamedTerm) (defs implicits : List String) :
    ArgumentsLine { guard, defs, op := .br, uses := [.block s], implicits } (" " ++ s) := by
  refine ⟨?_, ?_, ?_, ?_⟩
  · simp [argumentsText, NamedOperand.text]
  · have := follows_operand (x := .block s) hs []
    rwa [List.append_nil] at this
  · rw [bytesOf_append]
    exact Unbroken.append (by decide) hs.unbroken
  · intro rest tail stop
    exact Reads.map (Reads.label blank_space hs stop)

private theorem argumentsLine_plain {i : NamedInst} (cond : i.cond = []) (hus : ∀ u ∈ i.uses, u.Valid)
    (first : i.uses.head? ≠ some (.block "implicit"))
    (written : argumentsText i = .ok (",".intercalate (i.uses.map fun u => " " ++ u.text)))
    (reader : Scan.arguments i.op =
      (do return ([], ← Scan.operandsFrom ((← Scan.remaining) + 1) 0))) :
    ArgumentsLine i (",".intercalate (i.uses.map fun u => " " ++ u.text)) := by
  refine ⟨written, ?_, ?_, ?_⟩
  · cases huses : i.uses with
    | nil => exact Or.inl rfl
    | cons u us =>
      rw [bytesOf_spaced NamedOperand.text]
      exact follows_operand (hus u (by simp [huses])) _
  · refine unbroken_intercalate (by decide) ?_
    intro s hs
    obtain ⟨u, hu, rfl⟩ := List.mem_map.mp hs
    rw [bytesOf_append]
    exact Unbroken.append (by decide) (hus u hu).unbroken
  · intro rest tail stop
    have room := length_le_spaced NamedOperand.text i.uses
    rw [reader, cond]
    exact Reads.remaining (Reads.map (Reads.operands hus first (by omega) tail stop))

theorem exists_argumentsLine {i : NamedInst} (hi : ValidArguments i.cond i.uses i.op) :
    ∃ text, ArgumentsLine i text := by
  obtain ⟨guard, defs, op, cond, uses, implicits⟩ := i
  cases op with
  | phi =>
    obtain ⟨rfl, xs, rfl, hxs⟩ := hi
    exact ⟨_, argumentsLine_phi hxs guard defs implicits⟩
  | sel =>
    obtain ⟨nonempty, hc, x, y, rfl, hx, hy⟩ := hi
    exact ⟨_, argumentsLine_sel nonempty hc hx hy guard defs implicits⟩
  | brc =>
    obtain ⟨nonempty, hc, s, rfl, hs⟩ := hi
    exact ⟨_, argumentsLine_brc nonempty hc hs guard defs implicits⟩
  | br =>
    obtain ⟨rfl, s, rfl, hs⟩ := hi
    exact ⟨_, argumentsLine_br hs guard defs implicits⟩
  | copy | undef | ret | switch | dbg | other name =>
    obtain ⟨rfl, hus, first⟩ := hi
    exact ⟨_, argumentsLine_plain rfl hus first rfl rfl⟩

def implicitsText (rs : List String) : String :=
  if rs.isEmpty then "" else " implicit(" ++ ", ".intercalate (rs.map registerText) ++ ")"

def definitionsText (rs : List String) : String :=
  if rs.isEmpty then "" else ", ".intercalate (rs.map registerText) ++ " = "

def guardText (ts : List NamedTerm) : String :=
  if ts.isEmpty then "" else "(" ++ termsText ts ++ ") "

theorem bytesOf_definitionsText_cons (r : String) (rs : List String) :
    bytesOf (definitionsText (r :: rs)) =
      bytesOf (registerText r) ++ (commas (rs.map registerText) ++ [32, 61, 32]) := by
  have text : definitionsText (r :: rs) =
      ", ".intercalate (registerText r :: rs.map registerText) ++ " = " := rfl
  rw [text, bytesOf_append, bytesOf_commas, List.append_assoc]
  rfl

theorem bytesOf_guardText_cons (t : NamedTerm) (ts : List NamedTerm) :
    bytesOf (guardText (t :: ts)) = 40 :: (bytesOf (termsText (t :: ts)) ++ [41, 32]) := by
  have text : guardText (t :: ts) = "(" ++ termsText (t :: ts) ++ ") " := rfl
  rw [text, bytesOf_append, bytesOf_append, List.append_assoc]
  rfl

theorem NamedInst.text_eq (i : NamedInst) {text : String} (h : argumentsText i = .ok text) :
    i.text = .ok (guardText i.guard ++ definitionsText i.defs ++ i.op.mnemonic ++ text ++
      implicitsText i.implicits) := by
  rw [NamedInst.text, h]
  rfl

private theorem bytesOf_implicitsText_cons (r : String) (rs : List String) :
    bytesOf (implicitsText (r :: rs)) =
      [32] ++ bytesOf "implicit" ++ ([] ++ '('.toUInt8 ::
        ([] ++ bytesOf (registerText r) ++ (commas (rs.map registerText) ++ [41]))) := by
  have text : implicitsText (r :: rs) =
      " implicit(" ++ ", ".intercalate (registerText r :: rs.map registerText) ++ ")" := rfl
  rw [text, bytesOf_append, bytesOf_append, bytesOf_commas]
  simp only [List.append_assoc, List.nil_append]
  rfl

private theorem unbroken_registers {rs : List String} (hrs : ∀ r ∈ rs, IsRegisterName r) :
    Unbroken (bytesOf (", ".intercalate (rs.map registerText))) := by
  refine unbroken_intercalate (by decide) ?_
  intro s hs
  obtain ⟨r, hr, rfl⟩ := List.mem_map.mp hs
  exact (hrs r hr).unbroken_text

theorem NamedInst.Valid.unbroken {i : NamedInst} (hi : i.Valid) {text : String}
    (written : i.text = .ok text) : Unbroken (bytesOf text) := by
  obtain ⟨args, line⟩ := exists_argumentsLine hi.arguments
  rw [NamedInst.text_eq i line.written] at written
  cases written
  have guard : Unbroken (bytesOf (guardText i.guard)) := by
    unfold guardText
    split
    · decide
    · simp only [bytesOf_append]
      exact (Unbroken.append (by decide) (unbroken_termsText hi.guard)).append (by decide)
  have defs : Unbroken (bytesOf (definitionsText i.defs)) := by
    unfold definitionsText
    split
    · decide
    · rw [bytesOf_append]
      exact (unbroken_registers hi.defs).append (by decide)
  have implicits : Unbroken (bytesOf (implicitsText i.implicits)) := by
    unfold implicitsText
    split
    · decide
    · simp only [bytesOf_append]
      exact (Unbroken.append (by decide) (unbroken_registers hi.implicits)).append (by decide)
  simp only [bytesOf_append]
  exact ((((guard.append defs).append hi.mnemonic.unbroken).append line.unbroken).append implicits)

theorem follows_implicitsText (rs : List String) : Follows (bytesOf (implicitsText rs)) := by
  cases rs with
  | nil => exact Or.inl rfl
  | cons r rs =>
    rw [bytesOf_implicitsText_cons]
    exact Or.inr ⟨105, _, rfl, by decide, by decide⟩

private theorem atTail_implicitsText (rs : List String) : AtTail (bytesOf (implicitsText rs)) true := by
  cases rs with
  | nil => exact atTail_nil
  | cons r rs =>
    intro pos
    have stop : Stops ([] ++ '('.toUInt8 ::
        ([] ++ bytesOf (registerText r) ++ (commas (rs.map registerText) ++ [41]))) :=
      stops_cons (by decide) _
    rw [bytesOf_implicitsText_cons, Cursor.keyword?_blank blank_space isName_implicit rfl stop,
      Option.isSome_some, Bool.or_true]

namespace Reads

theorem implicits {rs : List String} (hrs : ∀ r ∈ rs, IsRegisterName r) :
    Reads Scan.implicits (bytesOf (implicitsText rs)) rs [] := by
  cases rs with
  | nil => exact fun pos => rfl
  | cons r rs =>
    rw [bytesOf_implicitsText_cons]
    have enough : rs.length + 1 <
        ([] ++ bytesOf (registerText r) ++ (commas (rs.map registerText) ++ [41])).length +
          ([] : List UInt8).length + 1 := by
      have := length_le_commas (rs.map registerText)
      simp only [List.length_append, List.length_cons, List.length_map, List.length_nil,
        bytesOf_registerText] at this ⊢
      omega
    refine bind (keyword blank_space isName_implicit rfl (stops_cons (by decide) _))
      (within .implicits ?_)
    refine expect blank_nil '(' (by decide) (remaining ?_)
    exact registersFrom blank_nil hrs enough

variable {β : Type} {rest : List UInt8}

private theorem definitions_apply (c : Cursor) :
    Scan.definitions c = (if c.sees '%' = true then (do
      let defs ← Scan.definedFrom ((← Scan.remaining) + 1)
      Scan.expect '='
      return defs : Scan (List String)) else Pure.pure []) c := rfl

theorem guard {bs : List UInt8} (hb : Blank bs) {ts : List NamedTerm}
    (hts : ∀ t ∈ ts, IsRegisterName t.reg) {k : List NamedTerm → Scan β} {t : List UInt8} {x : β}
    (other : peek (t ++ rest) ≠ some '('.toUInt8)
    (hk : ∀ bs, Blank bs → Reads (k ts) (bs ++ t) x rest) :
    Reads (Scan.guard >>= k) (bs ++ (bytesOf (guardText ts) ++ t)) x rest := by
  cases ts with
  | nil =>
    have none : Reads Scan.guard [] [] (bs ++ t ++ rest) := by
      refine refuse '(' ?_ (pure [])
      rwa [List.nil_append, List.append_assoc, peek_blank hb]
    exact of_eq (bind none (hk bs hb)) rfl
  | cons u ts =>
    have some_terms : Reads Scan.guard (bs ++ '('.toUInt8 :: (bytesOf (termsText (u :: ts)) ++ [41]))
        (u :: ts) ([32] ++ t ++ rest) :=
      accept hb '(' (by decide) (within .guard (termList hts))
    refine of_eq (bind some_terms (hk [32] blank_space)) ?_
    simp only [bytesOf_guardText_cons, List.append_assoc, List.cons_append, List.nil_append]
    rfl

/-- Definitions, if there are any, and what is read behind them. -/
theorem definitions {bs : List UInt8} (hb : Blank bs) {rs : List String}
    (hrs : ∀ r ∈ rs, IsRegisterName r) {k : List String → Scan β} {t : List UInt8} {x : β}
    (other : peek (t ++ rest) ≠ some '%'.toUInt8)
    (hk : ∀ bs, Blank bs → Reads (k rs) (bs ++ t) x rest) :
    Reads (Scan.definitions >>= k) (bs ++ (bytesOf (definitionsText rs) ++ t)) x rest := by
  cases rs with
  | nil =>
    have none : Reads Scan.definitions [] [] (bs ++ t ++ rest) := by
      intro pos
      rw [definitions_apply, if_neg]
      · rfl
      · rwa [Cursor.sees_iff, List.nil_append, List.append_assoc, peek_blank hb]
    exact of_eq (bind none (hk bs hb)) rfl
  | cons r rs =>
    have stop : Stops ([32] ++ '='.toUInt8 :: [] ++ ([32] ++ t ++ rest)) :=
      stops_cons (by decide) _
    have equals : peek ([32] ++ '='.toUInt8 :: [] ++ ([32] ++ t ++ rest)) ≠ some ','.toUInt8 := by
      rw [List.append_assoc, peek_blank blank_space, List.cons_append, peek_cons (by decide)]
      decide
    have some_registers : Reads Scan.definitions (bs ++ bytesOf (registerText r) ++
        commas (rs.map registerText) ++ ([32] ++ '='.toUInt8 :: [])) (r :: rs)
        ([32] ++ t ++ rest) := by
      intro pos
      rw [definitions_apply, if_pos]
      · refine remaining ?_ pos
        refine bind (definedFrom hb hrs ?_ stop equals) (expect blank_space '=' (by decide) (pure _))
        have := length_le_commas (rs.map registerText)
        simp only [List.length_append, List.length_map] at this ⊢
        omega
      · rw [Cursor.sees_iff]
        simp only [List.append_assoc]
        rw [peek_blank hb, peek_registerText]
        rfl
    refine of_eq (bind some_registers (hk [32] blank_space)) ?_
    simp only [bytesOf_definitionsText_cons, List.append_assoc, List.cons_append, List.nil_append]
    rfl

theorem operation {bs : List UInt8} (hb : Blank bs) {op : Op} (known : Op.ofMnemonic op.mnemonic = op)
    (name : IsName op.mnemonic) (hr : Stops rest) :
    Reads Scan.operation (bs ++ bytesOf op.mnemonic) op rest := by
  intro pos
  simp only [Scan.operation, Cursor.name?_blank hb name hr, known, List.length_append, Nat.add_assoc]

/-- A valid instruction reads back from its parts. -/
theorem instruction {bs : List UInt8} (hb : Blank bs) {i : NamedInst} (hi : i.Valid) {text : String}
    (line : ArgumentsLine i text) :
    Reads Scan.instruction (bs ++ (bytesOf (guardText i.guard) ++ (bytesOf (definitionsText i.defs) ++
      (bytesOf i.op.mnemonic ++ (bytesOf text ++ bytesOf (implicitsText i.implicits)))))) i [] := by
  have tail := atTail_implicitsText i.implicits
  have stop := (follows_implicitsText i.implicits).stops
  have after : Stops (bytesOf text ++ bytesOf (implicitsText i.implicits)) :=
    (line.follows.append (follows_implicitsText i.implicits)).stops
  obtain ⟨d, first, start⟩ := hi.mnemonic.peek
    (bytesOf text ++ bytesOf (implicitsText i.implicits) ++ [])
  refine guard hb hi.guard ?_ fun bs hb => definitions hb hi.defs ?_ fun bs hb => ?_
  · cases i.defs with
    | nil =>
      rw [show bytesOf (definitionsText []) = [] from rfl, List.nil_append, List.append_assoc, first]
      rintro same
      cases same
      cases start
    | cons r rs =>
      rw [bytesOf_definitionsText_cons]
      simp only [List.append_assoc]
      rw [peek_registerText]
      decide
  · rw [List.append_assoc, first]
    rintro same
    cases same
    cases start
  · rw [← List.append_assoc]
    refine bind (operation hb hi.op hi.mnemonic (by rwa [List.append_nil])) ?_
    refine bind (within _ (line.reads _ (by rwa [List.append_nil]) (by rwa [List.append_nil]))) ?_
    exact map (implicits hi.implicits)

end Reads

section Yields

variable {α β : Type}

private theorem bind_eq_ok {p : Scan α} {k : α → Scan β} {c c' : Cursor} {y : β}
    (h : (p >>= k) c = .ok (y, c')) : ∃ x d, p c = .ok (x, d) ∧ k x d = .ok (y, c') := by
  cases hp : p c with
  | error e => simp [Bind.bind, StateT.bind, Except.bind, hp] at h
  | ok r => exact ⟨r.1, r.2, rfl, by simpa [Bind.bind, StateT.bind, Except.bind, hp] using h⟩

private theorem name_of_operand {phrase : Phrase} {c c' : Cursor} {s : String}
    (h : Scan.within phrase Scan.operand c = .ok (.block s, c')) : c.name? = some (s, c') := by
  simp only [Scan.within] at h
  split at h
  · rename_i r hr
    cases h
    simp only [Scan.operand] at hr
    split at hr
    · have hr : (Scan.register >>= fun r => Pure.pure (NamedOperand.reg r)) c =
          .ok (.block s, c') := hr
      obtain ⟨r, d, -, hr⟩ := bind_eq_ok hr
      cases hr
    · split at hr
      · split at hr <;> cases hr
      · split at hr
        · rename_i read
          cases hr
          exact read
        · cases hr
  · cases h

private theorem name_of_operation {c c' : Cursor} {op : Op} (h : Scan.operation c = .ok (op, c')) :
    ∃ name, c.name? = some (name, c') ∧ op = Op.ofMnemonic name := by
  simp only [Scan.operation] at h
  split at h
  · rename_i name d read
    cases h
    exact ⟨name, read, rfl⟩
  · cases h

/-- Whatever the reader gives has the property. -/
def Yields (p : Scan α) (P : α → Prop) : Prop := ∀ c x c', p c = .ok (x, c') → P x

namespace Yields

variable {P : α → Prop} {Q : β → Prop}

private theorem pure {x : α} (hx : P x) : Yields (Pure.pure x) P := by
  intro c y c' h
  cases h
  exact hx

private theorem bind {p : Scan α} {k : α → Scan β} (hp : Yields p P) (hk : ∀ x, P x → Yields (k x) Q) :
    Yields (p >>= k) Q := by
  intro c y c' h
  obtain ⟨x, d, first, second⟩ := bind_eq_ok h
  exact hk x (hp c x d first) d y c' second

private theorem after {p : Scan α} {k : α → Scan β} (hk : ∀ x, Yields (k x) Q) : Yields (p >>= k) Q :=
  bind (P := fun _ => True) (fun _ _ _ _ => trivial) (fun x _ => hk x)

private theorem unlessFirst (index : Nat) {p : Scan α} (hp : Yields p P) :
    Yields (do
      if index ≠ 0 then Scan.expect ','
      p) P := by
  by_cases first : index = 0
  · intro c x c' h
    simp only [first, ne_eq, not_true_eq_false, if_false] at h
    exact hp c x c' h
  · intro c x c' h
    simp only [ne_eq, first, not_false_eq_true, if_true] at h
    exact after (fun _ => hp) c x c' h

private theorem within {p : Scan α} (hp : Yields p P) (phrase : Phrase) :
    Yields (Scan.within phrase p) P := by
  intro c x c' h
  simp only [Scan.within] at h
  split at h
  · rename_i r hr
    cases h
    exact hp c x c' hr
  · cases h

private theorem both {p : Scan α} {P' : α → Prop} (hp : Yields p P) (hp' : Yields p P') :
    Yields p fun x => P x ∧ P' x :=
  fun c x c' h => ⟨hp c x c' h, hp' c x c' h⟩

private theorem fail (cause : Cause) : Yields (Scan.fail cause : Scan α) P := by
  intro c x c' h
  cases h

private theorem register : Yields Scan.register IsRegisterName := by
  intro c x c' h
  simp only [Scan.register] at h
  split at h
  · rename_i r hr
    cases h
    exact Cursor.isRegisterName_of_register? hr
  · cases h

private theorem label : Yields Scan.label IsName := by
  intro c x c' h
  simp only [Scan.label] at h
  split at h
  · rename_i r hr
    cases h
    exact Cursor.isName_of_name? hr
  · cases h

private theorem operand : Yields Scan.operand NamedOperand.Valid := by
  intro c x c' h
  simp only [Scan.operand] at h
  split at h
  · exact bind register (fun s hs => pure (x := NamedOperand.reg s) hs) c x c' h
  · split at h
    · split at h
      · rename_i fits
        cases h
        exact fits
      · cases h
    · split at h
      · rename_i hr
        cases h
        exact Cursor.isName_of_name? hr
      · cases h

private theorem term : Yields Scan.term fun t => IsRegisterName t.reg :=
  after fun _ => bind register fun _ hs => pure hs

private theorem termsFrom (fuel : Nat) (first : Bool) :
    Yields (Scan.termsFrom fuel first) fun ts => ∀ t ∈ ts, IsRegisterName t.reg := by
  induction fuel generalizing first with
  | zero => exact pure (by simp)
  | succ fuel ih =>
    have more : Yields (do
        let t ← Scan.term
        let ts ← Scan.termsFrom fuel false
        return t :: ts) fun ts => ∀ t ∈ ts, IsRegisterName t.reg :=
      bind term fun t ht => bind (ih false) fun ts hts => pure (by simpa using ⟨ht, hts⟩)
    refine after fun closed => ?_
    cases closed with
    | true => exact pure (by simp)
    | false =>
      cases first with
      | true => exact more
      | false => exact after fun _ => more

private theorem termList : Yields Scan.termList fun ts => ts ≠ [] ∧ ∀ t ∈ ts, IsRegisterName t.reg := by
  refine after fun _ => bind (termsFrom _ true) fun ts hts => ?_
  cases ts with
  | nil => exact fail .emptyCondition
  | cons t ts => exact pure ⟨by simp, hts⟩

private theorem condition : Yields Scan.condition fun ts => ts ≠ [] ∧ ∀ t ∈ ts, IsRegisterName t.reg := by
  refine after fun opened => ?_
  cases opened with
  | true => exact termList
  | false => exact bind term fun t ht => pure ⟨by simp, by simpa using ht⟩

private theorem operandsFrom (fuel index : Nat) :
    Yields (Scan.operandsFrom fuel index) fun us => ∀ u ∈ us, u.Valid := by
  induction fuel generalizing index with
  | zero => exact pure (by simp)
  | succ fuel ih =>
    have more : Yields (do
        let x ← Scan.within (.operand index) Scan.operand
        let us ← Scan.operandsFrom fuel (index + 1)
        return x :: us) fun us => ∀ u ∈ us, u.Valid :=
      bind (within operand _) fun x hx => bind (ih (index + 1)) fun us hus =>
        pure (by simpa using ⟨hx, hus⟩)
    refine after fun spent => ?_
    cases spent with
    | true => exact pure (by simp)
    | false =>
      exact unlessFirst index more

private theorem inputsFrom (fuel index : Nat) : Yields (Scan.inputsFrom fuel index) fun us =>
    ∃ xs, us = inputUses xs ∧ ∀ x ∈ xs, x.1.Valid ∧ IsName x.2 := by
  induction fuel generalizing index with
  | zero => exact pure ⟨[], rfl, by simp⟩
  | succ fuel ih =>
    have more : Yields (do
        Scan.expect '['
        let v ← Scan.within (.input index) Scan.operand
        Scan.expect ','
        let source ← Scan.within (.input index) Scan.label
        Scan.expect ']'
        let us ← Scan.inputsFrom fuel (index + 1)
        return v :: .block source :: us) fun us =>
          ∃ xs, us = inputUses xs ∧ ∀ x ∈ xs, x.1.Valid ∧ IsName x.2 := by
      refine after fun _ => bind (within operand _) fun v hv => after fun _ => ?_
      refine bind (within label _) fun s hs => after fun _ => bind (ih (index + 1)) ?_
      rintro us ⟨xs, rfl, hxs⟩
      exact pure ⟨(v, s) :: xs, rfl, by simpa using ⟨⟨hv, hs⟩, fun a b => hxs (a, b)⟩⟩
    refine after fun spent => ?_
    cases spent with
    | true => exact pure ⟨[], rfl, by simp⟩
    | false =>
      exact unlessFirst index more

private theorem registersFrom (fuel : Nat) :
    Yields (Scan.registersFrom fuel) fun rs => ∀ r ∈ rs, IsRegisterName r := by
  induction fuel with
  | zero => exact pure (by simp)
  | succ fuel ih =>
    refine after fun closed => ?_
    cases closed with
    | true => exact pure (by simp)
    | false =>
      exact bind register fun r hr => after fun _ => bind ih fun rs hrs =>
        pure (by simpa using ⟨hr, hrs⟩)

private theorem definedFrom (fuel : Nat) :
    Yields (Scan.definedFrom fuel) fun rs => ∀ r ∈ rs, IsRegisterName r := by
  induction fuel with
  | zero => exact pure (by simp)
  | succ fuel ih =>
    refine bind (within register _) fun r hr => after fun comma => ?_
    cases comma with
    | true => exact bind ih fun rs hrs => pure (by simpa using ⟨hr, hrs⟩)
    | false => exact pure (by simpa using hr)

private theorem liveInFrom (fuel : Nat) :
    Yields (Scan.liveInFrom fuel) fun rs => ∀ r ∈ rs, IsRegisterName r := by
  induction fuel with
  | zero => exact pure (by simp)
  | succ fuel ih =>
    refine after fun spent => ?_
    cases spent with
    | true => exact pure (by simp)
    | false =>
      exact bind (within register _) fun r hr => bind ih fun rs hrs =>
        pure (by simpa using ⟨hr, hrs⟩)

theorem liveIn : Yields Scan.liveIn fun rs => ∀ r ∈ rs, IsRegisterName r :=
  after fun _ => liveInFrom _

theorem definitions : Yields Scan.definitions fun rs => ∀ r ∈ rs, IsRegisterName r := by
  refine after fun c => ?_
  split
  · exact after fun _ => bind (definedFrom _) fun rs hrs => after fun _ => pure hrs
  · exact pure (by simp)

theorem implicits : Yields Scan.implicits fun rs => ∀ r ∈ rs, IsRegisterName r := by
  refine after fun word => ?_
  cases word with
  | true => exact within (after fun _ => after fun _ => registersFrom _) _
  | false => exact pure (by simp)

private theorem firstOperand (fuel : Nat) :
    Yields (Scan.operandsFrom fuel 0) fun us => us.head? ≠ some (.block "implicit") := by
  cases fuel with
  | zero => exact pure (by simp)
  | succ fuel =>
    intro c us c' h
    obtain ⟨spent, d, tail, h⟩ := bind_eq_ok h
    cases tail
    cases spent : c.atEnd || (c.keyword? "implicit").isSome with
    | true =>
      rw [spent] at h
      cases h
      simp
    | false =>
      rw [spent] at h
      obtain ⟨x, e, read, h⟩ := bind_eq_ok h
      obtain ⟨us, e', -, h⟩ := bind_eq_ok h
      cases h
      simp only [Bool.or_eq_false_iff, Option.isSome_eq_false_iff, Option.isNone_iff_eq_none] at spent
      rw [List.head?_cons, ne_eq, Option.some.injEq]
      rintro rfl
      exact Cursor.ne_of_keyword? rfl (name_of_operand read) spent.2 rfl

private theorem arguments (op : Op) :
    Yields (Scan.arguments op) fun r => ValidArguments r.1 r.2 op := by
  cases op with
  | phi =>
    refine after fun _ => bind (inputsFrom _ 0) ?_
    rintro us ⟨xs, rfl, hxs⟩
    exact pure ⟨rfl, xs, rfl, hxs⟩
  | sel =>
    refine bind condition fun ts hts => after fun _ => bind operand fun x hx => after fun _ => ?_
    exact bind operand fun y hy => pure ⟨hts.1, hts.2, x, y, rfl, hx, hy⟩
  | brc =>
    refine bind condition fun ts hts => after fun _ => ?_
    exact bind label fun s hs => pure ⟨hts.1, hts.2, s, rfl, hs⟩
  | br => exact bind label fun s hs => pure ⟨rfl, s, rfl, hs⟩
  | copy | undef | ret | switch | dbg | other name =>
    refine after fun _ => bind (both (operandsFrom _ 0) (firstOperand _)) fun us hus => ?_
    exact pure ⟨rfl, hus.1, hus.2⟩

theorem guard : Yields Scan.guard fun ts => ∀ t ∈ ts, IsRegisterName t.reg := by
  refine after fun opened => ?_
  cases opened with
  | true => exact within (fun c ts c' h => (termList c ts c' h).2) _
  | false => exact pure (by simp)

theorem operation : Yields Scan.operation fun op =>
    Op.ofMnemonic op.mnemonic = op ∧ IsName op.mnemonic := by
  intro c op c' h
  obtain ⟨name, read, rfl⟩ := name_of_operation h
  rw [mnemonic_ofMnemonic]
  exact ⟨rfl, Cursor.isName_of_name? read⟩

end Yields

private theorem guard_nil {c c' : Cursor} (h : Scan.guard c = .ok ([], c')) : c' = c := by
  obtain ⟨opened, d, accepted, h⟩ := bind_eq_ok h
  cases opened with
  | true => exact absurd rfl (Yields.within Yields.termList .guard d [] c' h).1
  | false =>
    cases h
    simp only [Scan.accept] at accepted
    split at accepted
    · cases accepted
    · cases accepted
      rfl

private theorem definitions_nil {c c' : Cursor} (h : Scan.definitions c = .ok ([], c')) : c' = c := by
  obtain ⟨d, e, got, h⟩ := bind_eq_ok h
  cases got
  split at h
  · obtain ⟨n, d, -, h⟩ := bind_eq_ok h
    obtain ⟨rs, e, defined, h⟩ := bind_eq_ok h
    obtain ⟨-, e', -, h⟩ := bind_eq_ok h
    cases h
    obtain ⟨r, e, -, defined⟩ := bind_eq_ok defined
    obtain ⟨comma, e, -, defined⟩ := bind_eq_ok defined
    cases comma with
    | true =>
      obtain ⟨rs, e, -, defined⟩ := bind_eq_ok defined
      cases defined
    | false => cases defined
  · cases h
    rfl

theorem valid_of_instruction {c c' : Cursor} {i : NamedInst} (h : Scan.instruction c = .ok (i, c'))
    (header : c.keyword? "func" = none) (list : c.keyword? "livein" = none) : i.Valid := by
  obtain ⟨guard, d, guarded, h⟩ := bind_eq_ok h
  obtain ⟨defs, e, defined, h⟩ := bind_eq_ok h
  obtain ⟨op, f, named, h⟩ := bind_eq_ok h
  obtain ⟨⟨cond, uses⟩, g, given, h⟩ := bind_eq_ok h
  obtain ⟨implicits, k, read, h⟩ := bind_eq_ok h
  cases h
  obtain ⟨known, name⟩ := Yields.operation _ _ _ named
  refine ⟨Yields.guard _ _ _ guarded, Yields.definitions _ _ _ defined, known, name, ?_,
    Yields.within (Yields.arguments op) _ _ _ _ given, Yields.implicits _ _ _ read⟩
  rintro rfl rfl
  cases guard_nil guarded
  cases definitions_nil defined
  obtain ⟨word, first, rfl⟩ := name_of_operation named
  rw [mnemonic_ofMnemonic]
  exact ⟨Cursor.ne_of_keyword? rfl first header, Cursor.ne_of_keyword? rfl first list⟩

end Yields

end Predication.Listing
