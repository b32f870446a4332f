import Predication.Proofs.Spelling

/-!
Phrases of a listing: what is written for a condition, for operands and for the inputs of a phi is
read back as the same condition, operands and inputs.
-/

set_option autoImplicit false
set_option relaxedAutoImplicit false

namespace Predication.Listing

variable {α β : Type}

def Reads (p : Scan α) (text : List UInt8) (x : α) (rest : List UInt8) : Prop :=
  ∀ pos, p ⟨pos, text ++ rest⟩ = .ok (x, ⟨pos + text.length, rest⟩)

theorem bytesOf_registerText (s : String) : bytesOf (registerText s) = 37 :: bytesOf s := by
  simp only [registerText, bytesOf_append]
  rfl

theorem peek_registerText (s : String) (rest : List UInt8) :
    peek (bytesOf (registerText s) ++ rest) = some 37 := by
  rw [bytesOf_registerText]
  exact peek_cons (by decide) _

private theorem peek_register {bs : List UInt8} (hb : Blank bs) (s : String) (t rest : List UInt8)
    {d : UInt8} (other : 37 ≠ d) :
    peek (bs ++ bytesOf (registerText s) ++ t ++ rest) ≠ some d := by
  rw [List.append_assoc, List.append_assoc, peek_blank hb, peek_registerText]
  simpa using other

private theorem peek_termText (t : NamedTerm) (rest : List UInt8) :
    peek (bytesOf t.text ++ rest) = some (if t.negated then 33 else 37) := by
  rw [NamedTerm.text, bytesOf_append, List.append_assoc]
  split
  · exact peek_cons (by decide) _
  · exact peek_registerText t.reg rest

def NamedOperand.Valid : NamedOperand → Prop
  | reg s => IsRegisterName s
  | imm v => Scan.fits v = true
  | block s => IsName s

def commas (l : List String) : List UInt8 := l.flatMap fun s => bytesOf ", " ++ bytesOf s

@[simp] theorem commas_nil : commas [] = [] := rfl

private theorem commas_cons (s : String) (l : List String) :
    commas (s :: l) = 44 :: 32 :: (bytesOf s ++ commas l) := rfl

private theorem stops_commas (l : List String) {rest : List UInt8} (hr : Stops rest) :
    Stops (commas l ++ rest) := by
  cases l with
  | nil => exact hr
  | cons s l => exact stops_cons (by decide) _

theorem length_le_flatMap (l : List α) {g : α → List UInt8} (some_text : ∀ a, 1 ≤ (g a).length) :
    l.length ≤ (l.flatMap g).length := by
  induction l with
  | nil => exact Nat.le_refl 0
  | cons a l ih =>
    have := some_text a
    simp only [List.flatMap_cons, List.length_cons, List.length_append]
    omega

theorem length_le_commas (l : List String) : l.length ≤ (commas l).length :=
  length_le_flatMap l fun _ => by
    rw [List.length_append]
    exact Nat.le_add_right_of_le (by decide)

theorem bytesOf_commas (s : String) (l : List String) :
    bytesOf (", ".intercalate (s :: l)) = bytesOf s ++ commas l := bytesOf_intercalate ", " s l

theorem bytesOf_spaced (g : α → String) (a : α) (l : List α) :
    bytesOf (",".intercalate ((a :: l).map fun x => " " ++ g x)) =
      32 :: (bytesOf (g a) ++ commas (l.map g)) := by
  rw [List.map_cons, bytesOf_intercalate, List.flatMap_map, bytesOf_append, commas,
    List.flatMap_map]
  simp only [bytesOf_append, ← List.append_assoc]
  rfl

theorem length_le_spaced (g : α → String) (l : List α) :
    l.length ≤ (bytesOf (",".intercalate (l.map fun x => " " ++ g x))).length := by
  cases l with
  | nil => exact Nat.zero_le _
  | cons a l =>
    have := length_le_commas (l.map g)
    rw [List.length_map] at this
    simp only [bytesOf_spaced, List.length_cons, List.length_append]
    omega

def inputText (x : NamedOperand × String) : String := "[" ++ x.1.text ++ ", " ++ x.2 ++ "]"

theorem bytesOf_inputText (x : NamedOperand × String) :
    bytesOf (inputText x) = 91 :: (bytesOf x.1.text ++ 44 :: 32 :: (bytesOf x.2 ++ [93])) := by
  simp only [inputText, bytesOf_append, List.append_assoc]
  rfl

private theorem peek_inputText (x : NamedOperand × String) (t rest : List UInt8) :
    peek ([32] ++ (bytesOf (inputText x) ++ t) ++ rest) = some '['.toUInt8 := by
  rw [List.append_assoc, peek_blank blank_space, bytesOf_inputText]
  exact peek_cons (by decide) _

def inputUses (xs : List (NamedOperand × String)) : List NamedOperand :=
  xs.flatMap fun x => [x.1, .block x.2]

def Unbroken (bs : List UInt8) : Prop := ∀ c ∈ bs, c ≠ '\n'.toUInt8 ∧ c ≠ '\r'.toUInt8

instance (bs : List UInt8) : Decidable (Unbroken bs) :=
  List.decidableBAll (fun c => c ≠ '\n'.toUInt8 ∧ c ≠ '\r'.toUInt8) bs

theorem Unbroken.append {t u : List UInt8} (ht : Unbroken t) (hu : Unbroken u) :
    Unbroken (t ++ u) := fun c hc => (List.mem_append.mp hc).elim (ht c) (hu c)

theorem unbroken_flatMap {l : List α} {g : α → List UInt8} (h : ∀ a ∈ l, Unbroken (g a)) :
    Unbroken (l.flatMap g) := by
  intro c hc
  obtain ⟨a, ha, hc⟩ := List.mem_flatMap.mp hc
  exact h a ha c hc

theorem unbroken_intercalate {sep : String} (hs : Unbroken (bytesOf sep)) {l : List String}
    (h : ∀ a ∈ l, Unbroken (bytesOf a)) : Unbroken (bytesOf (sep.intercalate l)) := by
  cases l with
  | nil => simp [Unbroken]
  | cons a l =>
    rw [bytesOf_intercalate]
    exact (h a (by simp)).append (unbroken_flatMap fun b hb => hs.append (h b (by simp [hb])))

private theorem unbroken_of_nameChars {bs : List UInt8} (h : ∀ c ∈ bs, Cursor.isNameChar c = true) :
    Unbroken bs := by
  intro c hc
  have := h c hc
  constructor <;> (rintro rfl; cases this)

theorem IsRegisterName.unbroken {s : String} (h : IsRegisterName s) : Unbroken (bytesOf s) :=
  unbroken_of_nameChars h.chars

theorem IsRegisterName.unbroken_text {s : String} (h : IsRegisterName s) :
    Unbroken (bytesOf (registerText s)) := by
  rw [registerText, bytesOf_append]
  exact Unbroken.append (by decide) h.unbroken

private theorem unbroken_number (v : Int) : Unbroken (bytesOf (toString v)) := by
  have digits : ∀ n : Nat, Unbroken (bytesOf n.repr) := fun n =>
    unbroken_of_nameChars fun c hc => isNameChar_of_isDigit ((Cursor.bytesOf_repr n).1 c hc)
  rw [Int.toString_eq_repr]
  cases v with
  | ofNat n => exact digits n
  | negSucc n =>
    rw [Int.repr, bytesOf_append]
    exact Unbroken.append (by decide) (digits (n + 1))

theorem NamedOperand.Valid.unbroken {x : NamedOperand} (hx : x.Valid) :
    Unbroken (bytesOf x.text) := by
  cases x with
  | reg s => exact IsRegisterName.unbroken_text hx
  | imm v => exact unbroken_number v
  | block s => exact IsRegisterName.unbroken (IsName.toIsRegisterName hx)

theorem unbroken_termsText {ts : List NamedTerm} (hts : ∀ t ∈ ts, IsRegisterName t.reg) :
    Unbroken (bytesOf (termsText ts)) := by
  refine unbroken_intercalate (by decide) ?_
  intro s hs
  obtain ⟨t, ht, rfl⟩ := List.mem_map.mp hs
  rw [NamedTerm.text, bytesOf_append]
  refine Unbroken.append ?_ (hts t ht).unbroken_text
  split <;> decide

theorem unbroken_conditionText {ts : List NamedTerm} (hts : ∀ t ∈ ts, IsRegisterName t.reg) :
    Unbroken (bytesOf (conditionText ts)) := by
  have terms := unbroken_termsText hts
  have around : ∀ s : String, Unbroken (bytesOf s) → Unbroken (bytesOf ("(" ++ s ++ ")")) := by
    intro s hs
    rw [bytesOf_append, bytesOf_append]
    exact (Unbroken.append (by decide) hs).append (by decide)
  match ts with
  | [t] => exact terms
  | [] => exact around _ terms
  | _ :: _ :: _ => exact around _ terms

theorem unbroken_inputText {x : NamedOperand × String} (hx : x.1.Valid ∧ IsName x.2) :
    Unbroken (bytesOf (inputText x)) := by
  simp only [inputText, bytesOf_append]
  refine (Unbroken.append (Unbroken.append (Unbroken.append ?_ hx.1.unbroken) ?_)
    hx.2.unbroken).append ?_
  all_goals decide

def AtTail (r : List UInt8) (b : Bool) : Prop :=
  ∀ pos, (Cursor.atEnd ⟨pos, r⟩ || (Cursor.keyword? ⟨pos, r⟩ "implicit").isSome) = b

theorem atTail_nil : AtTail [] true := fun _ => rfl

private theorem atTail_of_peek {r : List UInt8} {d : UInt8} (first : peek r = some d)
    (comment : d ≠ '/'.toUInt8) (word : d ≠ 'i'.toUInt8) : AtTail r false := by
  intro pos
  have goes : Cursor.atEnd ⟨pos, r⟩ = false := Cursor.atEnd_of_peek first comment
  have other : Cursor.keyword? ⟨pos, r⟩ "implicit" = none :=
    Cursor.keyword?_of_peek (d := 'i'.toUInt8) (v := bytesOf "mplicit") (by decide)
      (by simpa [first] using word)
  simp [goes, other]

private theorem atTail_commas (s : String) (l : List String) (rest : List UInt8) :
    AtTail (commas (s :: l) ++ rest) false := by
  refine atTail_of_peek (d := 44) ?_ (by decide) (by decide)
  rw [commas_cons, List.cons_append, peek_cons (by decide)]

private theorem atTail_operand {u : NamedOperand} (hu : u.Valid) (other : u ≠ .block "implicit")
    {rest : List UInt8} (hr : Stops rest) : AtTail ([32] ++ (bytesOf u.text ++ rest)) false := by
  cases u with
  | reg s =>
    refine atTail_of_peek (d := 37) ?_ (by decide) (by decide)
    rw [peek_blank blank_space]
    exact peek_registerText s rest
  | imm v =>
    obtain ⟨d, w, head, kind⟩ := Cursor.bytesOf_int_head v
    have solid : isBlank d = false ∧ d ≠ '/'.toUInt8 ∧ d ≠ 'i'.toUInt8 := by
      rcases kind with digit | rfl
      · refine ⟨isBlank_of_isNameChar d (isNameChar_of_isDigit digit), ?_, ?_⟩
        · rintro rfl
          cases digit
        · rintro rfl
          cases digit
      · decide
    refine atTail_of_peek ?_ solid.2.1 solid.2.2
    rw [peek_blank blank_space, NamedOperand.text, head, List.cons_append, peek_cons solid.1]
  | block s =>
    intro pos
    obtain ⟨d, w, head, start⟩ := hu.head
    have solid : isBlank d = false :=
      isBlank_of_isNameChar d (isNameChar_of_isNameStart start)
    have goes : Cursor.atEnd ⟨pos, [32] ++ (bytesOf s ++ rest)⟩ = false := by
      refine Cursor.atEnd_of_peek (d := d) ?_ (by rintro rfl; cases start)
      rw [peek_blank blank_space, head, List.cons_append, peek_cons solid]
    have word : Cursor.keyword? ⟨pos, [32] ++ (bytesOf s ++ rest)⟩ "implicit" = none := by
      rw [← List.append_assoc]
      exact Cursor.keyword?_blank_ne blank_space hu hr pos isName_implicit rfl
        (fun same => other (by rw [same]))
    simp only [NamedOperand.text, goes, word, Option.isSome_none, Bool.or_false]

namespace Reads

variable {rest : List UInt8}

theorem pure (x : α) : Reads (Pure.pure x) [] x rest := fun _ => rfl

theorem bind {p : Scan α} {k : α → Scan β} {t u : List UInt8} {x : α} {y : β}
    (hp : Reads p t x (u ++ rest)) (hk : Reads (k x) u y rest) :
    Reads (p >>= k) (t ++ u) y rest := by
  intro pos
  have first := hp pos
  have second := hk (pos + t.length)
  rw [← List.append_assoc] at first
  simp only [Bind.bind, StateT.bind, Except.bind, first, second, List.length_append, Nat.add_assoc]

theorem map {p : Scan α} {g : α → β} {t : List UInt8} {x : α} (hp : Reads p t x rest) :
    Reads (p >>= fun a => Pure.pure (g a)) t (g x) rest := by
  have both : Reads (p >>= fun a => Pure.pure (g a)) (t ++ []) (g x) rest :=
    Reads.bind hp (Reads.pure (g x))
  rwa [List.append_nil] at both

theorem of_eq {p : Scan α} {t u : List UInt8} {x : α} (hp : Reads p t x rest) (text : u = t) :
    Reads p u x rest := text ▸ hp

theorem within {p : Scan α} {t : List UInt8} {x : α} (phrase : Phrase) (hp : Reads p t x rest) :
    Reads (Scan.within phrase p) t x rest := by
  intro pos
  simp only [Scan.within, hp pos]

theorem remaining {k : Nat → Scan α} {t : List UInt8} {x : α}
    (hk : Reads (k (t.length + rest.length)) t x rest) : Reads (Scan.remaining >>= k) t x rest := by
  intro pos
  have read := hk pos
  rw [← List.length_append] at read
  exact read

private theorem char {bs : List UInt8} (hb : Blank bs) (c : Char) (hc : isBlank c.toUInt8 = false) :
    Reads (Scan.accept c) (bs ++ [c.toUInt8]) true rest ∧
      Reads (Scan.expect c) (bs ++ [c.toUInt8]) () rest := by
  constructor
  all_goals
    intro pos
    rw [List.append_assoc, List.singleton_append, List.length_append, List.length_singleton]
    simp only [Scan.accept, Scan.expect, Cursor.eat?_blank hb hc, Nat.add_assoc]

theorem accept {bs : List UInt8} (hb : Blank bs) (c : Char) (hc : isBlank c.toUInt8 = false)
    {k : Bool → Scan β} {t : List UInt8} {x : β} (hk : Reads (k true) t x rest) :
    Reads (Scan.accept c >>= k) (bs ++ c.toUInt8 :: t) x rest :=
  of_eq (bind (char hb c hc).1 hk) (by simp)

theorem refuse (c : Char) {k : Bool → Scan β} {t : List UInt8} {x : β}
    (h : peek (t ++ rest) ≠ some c.toUInt8) (hk : Reads (k false) t x rest) :
    Reads (Scan.accept c >>= k) t x rest := by
  intro pos
  have next := hk pos
  simp only [Bind.bind, StateT.bind, Except.bind, Scan.accept,
    Cursor.eat?_of_peek (c := ⟨pos, t ++ rest⟩) h, next]

theorem expect {bs : List UInt8} (hb : Blank bs) (c : Char) (hc : isBlank c.toUInt8 = false)
    {k : Unit → Scan β} {t : List UInt8} {x : β} (hk : Reads (k ()) t x rest) :
    Reads (Scan.expect c >>= k) (bs ++ c.toUInt8 :: t) x rest :=
  of_eq (bind (char hb c hc).2 hk) (by simp)

private theorem register {bs : List UInt8} (hb : Blank bs) {s : String} (hs : IsRegisterName s)
    (hr : Stops rest) : Reads Scan.register (bs ++ bytesOf (registerText s)) s rest := by
  intro pos
  rw [bytesOf_registerText]
  simp only [Scan.register, Cursor.register?_blank hb hs hr, List.length_append, List.length_cons,
    Nat.add_assoc, Nat.add_comm 1]

theorem label {bs : List UInt8} (hb : Blank bs) {s : String} (hs : IsName s) (hr : Stops rest) :
    Reads Scan.label (bs ++ bytesOf s) s rest := by
  intro pos
  simp only [Scan.label, Cursor.name?_blank hb hs hr, List.length_append, Nat.add_assoc]

theorem keyword {bs : List UInt8} (hb : Blank bs) {w : String} (hw : IsName w)
    (ascii : Cursor.asciiBytes w = bytesOf w) (hr : Stops rest) :
    Reads (Scan.keyword w) (bs ++ bytesOf w) true rest := by
  intro pos
  simp only [Scan.keyword, Cursor.keyword?_blank hb hw ascii hr, List.length_append, Nat.add_assoc]

private theorem term {bs : List UInt8} (hb : Blank bs) {t : NamedTerm} (ht : IsRegisterName t.reg)
    (hr : Stops rest) : Reads Scan.term (bs ++ bytesOf t.text) t rest := by
  obtain ⟨reg, negated⟩ := t
  cases negated with
  | true => exact accept hb '!' (by decide) (map (register blank_nil ht hr))
  | false =>
    refine of_eq (refuse '!' ?_ (map (register hb ht hr))) (by simp [NamedTerm.text])
    rw [List.append_assoc, peek_blank hb, peek_registerText]
    decide

private theorem termsFrom {ts : List NamedTerm} (hts : ∀ t ∈ ts, IsRegisterName t.reg) {fuel : Nat}
    (enough : ts.length < fuel) :
    Reads (Scan.termsFrom fuel false) (commas (ts.map NamedTerm.text) ++ [41]) ts rest := by
  induction ts generalizing fuel with
  | nil =>
    obtain ⟨fuel, rfl⟩ := Nat.exists_eq_add_of_lt enough
    exact accept blank_nil ')' (by decide) (pure [])
  | cons t ts ih =>
    obtain ⟨fuel, rfl⟩ := Nat.exists_eq_add_of_lt enough
    have left : ts.length < ts.length + 1 + fuel := by omega
    have others := ih (fun u hu => hts u (List.mem_cons_of_mem t hu)) left
    have stop : Stops (commas (ts.map NamedTerm.text) ++ [41] ++ rest) := by
      rw [List.append_assoc]
      exact stops_commas _ (stops_cons (by decide) _)
    refine of_eq (refuse ')' ?_ (expect blank_nil ',' (by decide)
      (bind (term blank_space (hts t (by simp)) stop) (map others)))) ?_
    · rw [List.nil_append, List.cons_append, peek_cons (by decide)]
      decide
    · simp only [List.map_cons, commas_cons, List.cons_append, List.append_assoc, List.nil_append]
      rfl

private theorem firstTerms {t : NamedTerm} {ts : List NamedTerm}
    (hts : ∀ u ∈ t :: ts, IsRegisterName u.reg) {fuel : Nat} (enough : ts.length < fuel) :
    Reads (Scan.termsFrom (fuel + 1) true)
      (bytesOf t.text ++ (commas (ts.map NamedTerm.text) ++ [41])) (t :: ts) rest := by
  have stop : Stops (commas (ts.map NamedTerm.text) ++ [41] ++ rest) := by
    rw [List.append_assoc]
    exact stops_commas _ (stops_cons (by decide) _)
  refine refuse ')' ?_ (bind (term blank_nil (hts t (by simp)) stop)
    (map (termsFrom (fun u hu => hts u (by simp [hu])) enough)))
  rw [List.append_assoc, peek_termText]
  split <;> decide

theorem termList {t : NamedTerm} {ts : List NamedTerm}
    (hts : ∀ u ∈ t :: ts, IsRegisterName u.reg) :
    Reads Scan.termList (bytesOf (termsText (t :: ts)) ++ [41]) (t :: ts) rest := by
  have text : bytesOf (termsText (t :: ts)) ++ [41] =
      bytesOf t.text ++ (commas (ts.map NamedTerm.text) ++ [41]) := by
    rw [termsText, List.map_cons, bytesOf_commas, List.append_assoc]
  rw [text]
  have enough : ts.length <
      (bytesOf t.text ++ (commas (ts.map NamedTerm.text) ++ [41])).length + rest.length := by
    have := length_le_commas (ts.map NamedTerm.text)
    simp only [List.length_append, List.length_cons, List.length_map] at this ⊢
    omega
  refine remaining (of_eq (bind (firstTerms hts enough) ?_) (List.append_nil _).symm)
  exact pure (t :: ts)

theorem condition {bs : List UInt8} (hb : Blank bs) {c : List NamedTerm} (nonempty : c ≠ [])
    (hc : ∀ t ∈ c, IsRegisterName t.reg) (hr : Stops rest) :
    Reads Scan.condition (bs ++ bytesOf (conditionText c)) c rest := by
  match c, nonempty with
  | [t], _ =>
    refine refuse '(' ?_ (map (term hb (hc t (by simp)) hr))
    rw [List.append_assoc, peek_blank hb, conditionText, peek_termText]
    split <;> decide
  | t :: u :: ts, _ =>
    refine of_eq (accept hb '(' (by decide) (termList hc)) ?_
    simp only [conditionText, bytesOf_append]
    rfl

theorem operand {bs : List UInt8} (hb : Blank bs) {x : NamedOperand} (hx : x.Valid)
    (hr : Stops rest) : Reads Scan.operand (bs ++ bytesOf x.text) x rest := by
  intro pos
  cases x with
  | reg s =>
    have seen : Cursor.sees ⟨pos, bs ++ bytesOf (registerText s) ++ rest⟩ '%' = true := by
      rw [Cursor.sees_iff, List.append_assoc, peek_blank hb, peek_registerText]
      rfl
    have := (register hb hx hr).map (g := NamedOperand.reg) pos
    simp only [Scan.operand, NamedOperand.text, seen, if_true]
    exact this
  | imm v =>
    obtain ⟨d, w, head, kind⟩ := Cursor.bytesOf_int_head v
    have solid : isBlank d = false ∧ d ≠ '%'.toUInt8 := by
      rcases kind with digit | rfl
      · exact ⟨isBlank_of_isNameChar d (isNameChar_of_isDigit digit), by rintro rfl; cases digit⟩
      · decide
    have unseen : Cursor.sees ⟨pos, bs ++ bytesOf (toString v) ++ rest⟩ '%' = false := by
      rw [Bool.eq_false_iff, ne_eq, Cursor.sees_iff, List.append_assoc, peek_blank hb, head,
        List.cons_append, peek_cons solid.1]
      simpa using solid.2
    obtain ⟨digits, number⟩ := Cursor.number?_blank hb v (isDigit_of_stops hr) pos
    simp only [Scan.operand, NamedOperand.text, unseen, Bool.false_eq_true, if_false, number,
      show Scan.fits v = true from hx, if_true, List.length_append, Nat.add_assoc]
  | block s =>
    obtain ⟨d, w, head, start⟩ := hx.head
    have solid : isBlank d = false :=
      isBlank_of_isNameChar d (isNameChar_of_isNameStart start)
    have first : peek (bs ++ bytesOf s ++ rest) = some d := by
      rw [List.append_assoc, peek_blank hb, head, List.cons_append, peek_cons solid]
    have unseen : Cursor.sees ⟨pos, bs ++ bytesOf s ++ rest⟩ '%' = false := by
      rw [Bool.eq_false_iff, ne_eq, Cursor.sees_iff, first, Option.some.injEq]
      rintro rfl
      cases start
    have letter : Cursor.number? ⟨pos, bs ++ bytesOf s ++ rest⟩ = none :=
      Cursor.number?_of_peek first (not_isDigit_of_isNameStart d start) (by rintro rfl; cases start)
    simp only [Scan.operand, NamedOperand.text, unseen, Bool.false_eq_true, if_false, letter,
      Cursor.name?_blank hb hx hr, List.length_append, Nat.add_assoc]

private theorem atEnd {k : Bool → Scan β} {b : Bool} {t : List UInt8} {x : β}
    (h : ∀ pos, Cursor.atEnd ⟨pos, t ++ rest⟩ = b) (hk : Reads (k b) t x rest) :
    Reads (Scan.atEnd >>= k) t x rest := by
  intro pos
  have next := hk pos
  rw [← h pos] at next
  exact next

private theorem atTail {k : Bool → Scan β} {b : Bool} {t : List UInt8} {x : β} (h : AtTail (t ++ rest) b)
    (hk : Reads (k b) t x rest) : Reads (Scan.atTail >>= k) t x rest := by
  intro pos
  have here := h pos
  have next := hk pos
  rw [← here] at next
  exact next

private theorem operandsFrom {us : List NamedOperand} (hus : ∀ u ∈ us, u.Valid) {fuel : Nat}
    (enough : us.length < fuel) (index : Nat) (tail : AtTail rest true) (hr : Stops rest) :
    Reads (Scan.operandsFrom fuel (index + 1)) (commas (us.map NamedOperand.text)) us rest := by
  induction us generalizing fuel index with
  | nil =>
    obtain ⟨fuel, rfl⟩ := Nat.exists_eq_add_of_lt enough
    exact atTail tail (pure [])
  | cons u us ih =>
    obtain ⟨fuel, rfl⟩ := Nat.exists_eq_add_of_lt enough
    have left : us.length < us.length + 1 + fuel := by omega
    have others := ih (fun v hv => hus v (List.mem_cons_of_mem u hv)) left (index + 1)
    exact atTail (atTail_commas u.text _ _) (expect blank_nil ',' (by decide)
      (bind (within _ (operand blank_space (hus u (by simp)) (stops_commas _ hr))) (map others)))

theorem operands {us : List NamedOperand} (hus : ∀ u ∈ us, u.Valid)
    (first : us.head? ≠ some (.block "implicit")) {fuel : Nat} (enough : us.length ≤ fuel)
    (tail : AtTail rest true) (hr : Stops rest) :
    Reads (Scan.operandsFrom (fuel + 1) 0)
      (bytesOf (",".intercalate (us.map fun u => " " ++ u.text))) us rest := by
  cases us with
  | nil => exact atTail tail (pure [])
  | cons u us =>
    have text : bytesOf (",".intercalate ((u :: us).map fun u => " " ++ u.text)) =
        [32] ++ bytesOf u.text ++ commas (us.map NamedOperand.text) :=
      bytesOf_spaced NamedOperand.text u us
    have others := operandsFrom (fun u hu => hus u (by simp [hu])) enough 0 tail hr
    have on : AtTail ([32] ++ bytesOf u.text ++ commas (us.map NamedOperand.text) ++ rest) false := by
      rw [List.append_assoc, List.append_assoc]
      exact atTail_operand (hus u (by simp)) (by simpa using first) (stops_commas _ hr)
    exact of_eq (atTail on (bind (within _ (operand blank_space (hus u (by simp))
      (stops_commas _ hr))) (map others))) text

private theorem input {bs : List UInt8} (hb : Blank bs) {x : NamedOperand × String} (value : x.1.Valid)
    (source : IsName x.2) (phrase : Phrase) {k : NamedOperand → String → Scan β} {t : List UInt8}
    {y : β} (hk : Reads (k x.1 x.2) t y rest) :
    Reads (do
        Scan.expect '['
        let v ← Scan.within phrase Scan.operand
        Scan.expect ','
        let s ← Scan.within phrase Scan.label
        Scan.expect ']'
        k v s) (bs ++ (bytesOf (inputText x) ++ t)) y rest := by
  have text : bs ++ (bytesOf (inputText x) ++ t) =
      bs ++ '['.toUInt8 :: ([] ++ bytesOf x.1.text ++ ([] ++ ','.toUInt8 ::
        ([32] ++ bytesOf x.2 ++ ([] ++ ']'.toUInt8 :: t)))) := by
    simp only [bytesOf_inputText, List.cons_append, List.append_assoc, List.nil_append]
    rfl
  rw [text]
  refine expect hb '[' (by decide) ?_
  refine bind (within phrase (operand blank_nil value (stops_cons (by decide) _))) ?_
  refine expect blank_nil ',' (by decide) ?_
  refine bind (within phrase (label blank_space source (stops_cons (by decide) _))) ?_
  exact expect blank_nil ']' (by decide) hk

private theorem inputsFrom {xs : List (NamedOperand × String)} (hxs : ∀ x ∈ xs, x.1.Valid ∧ IsName x.2)
    {fuel : Nat} (enough : xs.length < fuel) (index : Nat) (tail : AtTail rest true) :
    Reads (Scan.inputsFrom fuel (index + 1)) (commas (xs.map inputText)) (inputUses xs) rest := by
  induction xs generalizing fuel index with
  | nil =>
    obtain ⟨fuel, rfl⟩ := Nat.exists_eq_add_of_lt enough
    exact atTail tail (pure [])
  | cons x xs ih =>
    obtain ⟨fuel, rfl⟩ := Nat.exists_eq_add_of_lt enough
    have left : xs.length < xs.length + 1 + fuel := by omega
    have others := ih (fun y hy => hxs y (List.mem_cons_of_mem x hy)) left (index + 1)
    obtain ⟨value, source⟩ := hxs x (by simp)
    exact atTail (atTail_commas (inputText x) _ _) (expect blank_nil ',' (by decide)
      (input blank_space value source _ (map others)))

theorem inputs {xs : List (NamedOperand × String)} (hxs : ∀ x ∈ xs, x.1.Valid ∧ IsName x.2)
    {fuel : Nat} (enough : xs.length ≤ fuel) (tail : AtTail rest true) :
    Reads (Scan.inputsFrom (fuel + 1) 0)
      (bytesOf (",".intercalate (xs.map fun x => " " ++ inputText x))) (inputUses xs) rest := by
  cases xs with
  | nil => exact atTail tail (pure [])
  | cons x xs =>
    have text : bytesOf (",".intercalate ((x :: xs).map fun x => " " ++ inputText x)) =
        [32] ++ (bytesOf (inputText x) ++ commas (xs.map inputText)) :=
      bytesOf_spaced inputText x xs
    have on : AtTail ([32] ++ (bytesOf (inputText x) ++ commas (xs.map inputText)) ++ rest) false :=
      atTail_of_peek (d := '['.toUInt8) (peek_inputText x _ _) (by decide) (by decide)
    obtain ⟨value, source⟩ := hxs x (by simp)
    have others := inputsFrom (fun x hx => hxs x (by simp [hx])) enough 0 tail
    exact of_eq (atTail on (input blank_space value source _ (map others))) text

theorem registersFrom {bs : List UInt8} (hb : Blank bs) {r : String} {rs : List String}
    (hrs : ∀ s ∈ r :: rs, IsRegisterName s) {fuel : Nat} (enough : rs.length + 1 < fuel) :
    Reads (Scan.registersFrom fuel)
      (bs ++ bytesOf (registerText r) ++ (commas (rs.map registerText) ++ [41])) (r :: rs) rest := by
  induction rs generalizing bs r fuel with
  | nil =>
    obtain ⟨fuel, rfl⟩ : ∃ n, fuel = n + 1 + 1 := ⟨fuel - 2, by simp at enough; omega⟩
    have closed : Reads (Scan.registersFrom (fuel + 1)) [41] [] rest :=
      accept blank_nil ')' (by decide) (pure [])
    refine refuse ')' (peek_register hb r _ _ (by decide)) ?_
    refine bind (register hb (hrs r (by simp)) (stops_cons (by decide) _)) ?_
    refine refuse ',' ?_ (map closed)
    rw [List.map_nil, commas_nil, List.nil_append, List.cons_append, peek_cons (by decide)]
    decide
  | cons s rs ih =>
    obtain ⟨fuel, rfl⟩ := Nat.exists_eq_add_of_lt enough
    have names : ∀ u ∈ s :: rs, IsRegisterName u := fun u hu => hrs u (List.mem_cons_of_mem r hu)
    have left : rs.length + 1 < rs.length + 1 + 1 + fuel := by omega
    have others := ih blank_space names left
    refine refuse ')' (peek_register hb r _ _ (by decide)) ?_
    refine bind (register hb (hrs r (by simp)) (stops_cons (by decide) _)) ?_
    refine of_eq (accept blank_nil ',' (by decide) (map others)) ?_
    simp only [List.map_cons, commas_cons, List.cons_append, List.append_assoc, List.nil_append]
    rfl

theorem definedFrom {bs : List UInt8} (hb : Blank bs) {r : String} {rs : List String}
    (hrs : ∀ s ∈ r :: rs, IsRegisterName s) {fuel : Nat} (enough : rs.length < fuel)
    (hr : Stops rest) (other : peek rest ≠ some ','.toUInt8) :
    Reads (Scan.definedFrom fuel)
      (bs ++ bytesOf (registerText r) ++ commas (rs.map registerText)) (r :: rs) rest := by
  induction rs generalizing bs r fuel with
  | nil =>
    obtain ⟨fuel, rfl⟩ := Nat.exists_eq_add_of_lt enough
    refine bind (within _ (register hb (hrs r (by simp)) hr)) ?_
    exact refuse ',' other (pure [r])
  | cons s rs ih =>
    obtain ⟨fuel, rfl⟩ := Nat.exists_eq_add_of_lt enough
    have names : ∀ u ∈ s :: rs, IsRegisterName u := fun u hu => hrs u (List.mem_cons_of_mem r hu)
    have left : rs.length < rs.length + 1 + fuel := by omega
    have others := ih blank_space names left
    refine bind (within _ (register hb (hrs r (by simp)) (stops_cons (by decide) _))) ?_
    exact accept blank_nil ',' (by decide) (map others)

theorem liveInFrom {rs : List String} (hrs : ∀ r ∈ rs, IsRegisterName r) {fuel : Nat}
    (enough : rs.length < fuel) :
    Reads (Scan.liveInFrom fuel) (rs.flatMap fun r => bytesOf (" " ++ registerText r)) rs [] := by
  induction rs generalizing fuel with
  | nil =>
    obtain ⟨fuel, rfl⟩ := Nat.exists_eq_add_of_lt enough
    exact fun pos => rfl
  | cons r rs ih =>
    obtain ⟨fuel, rfl⟩ := Nat.exists_eq_add_of_lt enough
    have left : rs.length < rs.length + 1 + fuel := by omega
    have others := ih (fun s hs => hrs s (List.mem_cons_of_mem r hs)) left
    have stop : Stops ((rs.flatMap fun r => bytesOf (" " ++ registerText r)) ++ []) := by
      cases rs with
      | nil => exact stops_nil
      | cons s rs => exact stops_cons (by decide) _
    have on : ∀ pos, Cursor.atEnd
        ⟨pos, ((r :: rs).flatMap fun r => bytesOf (" " ++ registerText r)) ++ []⟩ = false := by
      intro pos
      refine Cursor.atEnd_of_peek (d := 37) ?_ (by decide)
      rw [List.flatMap_cons, bytesOf_append, List.append_assoc, List.append_assoc]
      exact (peek_blank blank_space _).trans (peek_registerText r _)
    refine atEnd on (of_eq (bind (within _ (register blank_space (hrs r (by simp)) stop))
      (map others)) ?_)
    rw [List.flatMap_cons, bytesOf_append]
    rfl

end Reads

end Predication.Listing
