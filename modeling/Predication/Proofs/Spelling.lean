import Mathlib.Data.List.TakeWhile
import Predication.Listing.Reader
import Predication.Listing.Writer

/-!
Words of a listing as bytes. A word that is written reads back as itself wherever what follows it
cannot be taken for a part of it.
-/

set_option autoImplicit false
set_option relaxedAutoImplicit false

namespace Predication.Listing

/-- The bytes of a text. -/
def bytesOf (s : String) : List UInt8 := s.toUTF8.data.toList

@[simp] theorem bytesOf_empty : bytesOf "" = [] := rfl

@[simp] theorem bytesOf_append (a b : String) : bytesOf (a ++ b) = bytesOf a ++ bytesOf b := by
  simp [bytesOf, String.toUTF8]

private theorem bytesOf_ofList (l : List Char) :
    bytesOf (String.ofList l) = l.flatMap String.utf8EncodeChar := by
  simp [bytesOf, String.toUTF8, List.utf8Encode]

theorem bytesOf_join (l : List String) : bytesOf (String.join l) = l.flatMap bytesOf := by
  induction l with
  | nil => simp
  | cons a l ih => simp [String.join_cons, ih]

theorem bytesOf_intercalate (sep a : String) (l : List String) :
    bytesOf (sep.intercalate (a :: l)) =
      bytesOf a ++ l.flatMap (fun b => bytesOf sep ++ bytesOf b) := by
  induction l generalizing a with
  | nil => simp
  | cons b l ih =>
    rw [String.intercalate_cons_cons]
    simp [ih]

private theorem forall_byte {P : UInt8 → Prop} (h : ∀ n : Fin 256, P ⟨⟨n⟩⟩) (c : UInt8) : P c :=
  h c.toBitVec.toFin

private theorem utf8EncodeChar_plain (b : UInt8) (plain : b < 128) :
    String.utf8EncodeChar (Char.ofNat b.toNat) = [b] := by
  have small : b.toNat < 128 := by simpa using UInt8.lt_iff_toNat_lt.mp plain
  have valid : b.toNat.isValidChar := Or.inl (by omega)
  have value : (Char.ofNat b.toNat).val.toNat = b.toNat := by
    rw [Char.ofNat, dif_pos valid]
    rfl
  have low : b.toNat ≤ 127 := by omega
  simp [String.utf8EncodeChar, value, low]

private theorem bytesOf_asciiText (w : List UInt8) (plain : ∀ c ∈ w, c < 128) :
    bytesOf (Cursor.asciiText w) = w := by
  rw [Cursor.asciiText, bytesOf_ofList, List.flatMap_map]
  induction w with
  | nil => rfl
  | cons c w ih =>
    rw [List.flatMap_cons, utf8EncodeChar_plain c (plain c (by simp)),
      ih (fun d hd => plain d (by simp [hd]))]
    rfl

private theorem lt_of_isNameChar (c : UInt8) : Cursor.isNameChar c = true → c < 128 := by
  revert c
  apply forall_byte
  decide +kernel

abbrev isBlank (c : UInt8) : Bool := BlankSet.spaceTab.contains c

theorem isBlank_of_isNameChar (c : UInt8) :
    Cursor.isNameChar c = true → isBlank c = false := by
  revert c
  apply forall_byte
  decide +kernel

theorem isNameChar_of_isNameStart {c : UInt8} (h : Cursor.isNameStart c = true) :
    Cursor.isNameChar c = true := by
  simp [Cursor.isNameChar, h]

theorem isNameChar_of_isDigit {c : UInt8} (h : Cursor.isDigit c = true) :
    Cursor.isNameChar c = true := by
  simp [Cursor.isNameChar, h]

/-- The name of a register: characters of names, at least one. -/
structure IsRegisterName (s : String) : Prop where
  nonempty : bytesOf s ≠ []
  chars : ∀ c ∈ bytesOf s, Cursor.isNameChar c = true
  plain : Cursor.asciiText (bytesOf s) = s

/-- The name of a block, an operation or a procedure: it does not start with a digit. -/
structure IsName (s : String) : Prop extends IsRegisterName s where
  start : (bytesOf s).head?.any Cursor.isNameStart = true

private theorem isRegisterName_asciiText {w : List UInt8} (nonempty : w ≠ [])
    (chars : ∀ c ∈ w, Cursor.isNameChar c = true) : IsRegisterName (Cursor.asciiText w) := by
  have bytes : bytesOf (Cursor.asciiText w) = w :=
    bytesOf_asciiText w fun c hc => lt_of_isNameChar c (chars c hc)
  exact ⟨by rwa [bytes], by rwa [bytes], by rw [bytes]⟩

private theorem isName_asciiText {w : List UInt8} (start : w.head?.any Cursor.isNameStart = true)
    (chars : ∀ c ∈ w, Cursor.isNameChar c = true) : IsName (Cursor.asciiText w) := by
  have nonempty : w ≠ [] := by
    rintro rfl
    simp at start
  have bytes : bytesOf (Cursor.asciiText w) = w :=
    bytesOf_asciiText w fun c hc => lt_of_isNameChar c (chars c hc)
  exact ⟨isRegisterName_asciiText nonempty chars, by rwa [bytes]⟩

theorem IsRegisterName.ne_empty {s : String} (h : IsRegisterName s) : s ≠ "" := by
  rintro rfl
  exact h.nonempty rfl

theorem IsName.head {s : String} (h : IsName s) :
    ∃ c w, bytesOf s = c :: w ∧ Cursor.isNameStart c = true := by
  obtain ⟨c, w, hw⟩ := List.exists_cons_of_ne_nil h.nonempty
  exact ⟨c, w, hw, by simpa [hw] using h.start⟩

private theorem isName_of_bytes {s : String} (plain : Cursor.asciiText (bytesOf s) = s)
    (start : (bytesOf s).head?.any Cursor.isNameStart = true)
    (chars : (bytesOf s).all Cursor.isNameChar = true) : IsName s :=
  plain ▸ isName_asciiText start (List.all_eq_true.mp chars)

theorem isName_func : IsName "func" := isName_of_bytes rfl rfl rfl

theorem isName_livein : IsName "livein" := isName_of_bytes rfl rfl rfl

theorem isName_implicit : IsName "implicit" := isName_of_bytes rfl rfl rfl

theorem not_isDigit_of_isNameStart (c : UInt8) :
    Cursor.isNameStart c = true → Cursor.isDigit c = false := by
  revert c
  apply forall_byte
  decide +kernel

def peek (r : List UInt8) : Option UInt8 := (r.dropWhile isBlank).head?

def Stops (r : List UInt8) : Prop := r.head?.any Cursor.isNameChar = false

def Blank (bs : List UInt8) : Prop := ∀ c ∈ bs, isBlank c = true

@[simp] theorem blank_nil : Blank [] := by simp [Blank]

@[simp] theorem blank_space : Blank [32] := by
  simp only [Blank, List.mem_singleton, forall_eq]
  decide

@[simp] theorem blank_tab : Blank [9] := by
  simp only [Blank, List.mem_singleton, forall_eq]
  decide

private theorem dropWhile_blank {bs : List UInt8} (hb : Blank bs) (r : List UInt8) :
    (bs ++ r).dropWhile isBlank = r.dropWhile isBlank := by
  induction bs with
  | nil => rfl
  | cons c bs ih =>
    have hc : isBlank c = true := hb c (by simp)
    simp only [List.cons_append, List.dropWhile_cons, hc, if_true]
    exact ih fun d hd => hb d (by simp [hd])

theorem peek_blank {bs : List UInt8} (hb : Blank bs) (r : List UInt8) :
    peek (bs ++ r) = peek r := by
  simp only [peek, dropWhile_blank hb]

theorem peek_cons {c : UInt8} (hc : isBlank c = false) (r : List UInt8) :
    peek (c :: r) = some c := by
  simp [peek, hc]

@[simp] theorem peek_nil : peek [] = none := rfl

theorem IsName.peek {s : String} (h : IsName s) (r : List UInt8) :
    ∃ d, peek (bytesOf s ++ r) = some d ∧ Cursor.isNameStart d = true := by
  obtain ⟨d, w, head, start⟩ := h.head
  refine ⟨d, ?_, start⟩
  rw [head, List.cons_append,
    peek_cons (isBlank_of_isNameChar d (isNameChar_of_isNameStart start))]

theorem stops_cons {c : UInt8} (hc : Cursor.isNameChar c = false) (r : List UInt8) :
    Stops (c :: r) := by
  simp [Stops, hc]

@[simp] theorem stops_nil : Stops [] := rfl

theorem isDigit_of_stops {r : List UInt8} (hr : Stops r) :
    r.head?.any Cursor.isDigit = false := by
  cases r with
  | nil => rfl
  | cons c r =>
    have other : Cursor.isNameChar c = false := hr
    simp only [Cursor.isNameChar, Bool.or_eq_false_iff] at other
    exact other.2

end Predication.Listing

namespace Predication.Cursor

open Listing

private theorem skip_eq (c : Cursor) :
    c.skip = ⟨c.pos + (c.rest.takeWhile isBlank).length, c.rest.dropWhile isBlank⟩ := by
  have split : c.rest.drop (c.rest.takeWhile isBlank).length = c.rest.dropWhile isBlank := by
    calc c.rest.drop (c.rest.takeWhile isBlank).length
        = (c.rest.takeWhile isBlank ++ c.rest.dropWhile isBlank).drop
            (c.rest.takeWhile isBlank).length := by rw [List.takeWhile_append_dropWhile]
      _ = c.rest.dropWhile isBlank := List.drop_left
  simp only [skip, advance, split]

private theorem skip_blank {bs r : List UInt8} (hb : Blank bs) (hr : r.head?.any isBlank = false)
    (pos : Nat) : skip ⟨pos, bs ++ r⟩ = ⟨pos + bs.length, r⟩ := by
  have tail : r.takeWhile isBlank = [] ∧ r.dropWhile isBlank = r := by
    cases r with
    | nil => simp
    | cons c r =>
      have hc : isBlank c = false := by simpa using hr
      simp [hc]
  have front : (bs ++ r).takeWhile isBlank = bs := by
    rw [List.takeWhile_append_of_pos hb, tail.1, List.append_nil]
  rw [skip_eq, front, dropWhile_blank hb, tail.2]

theorem sees_iff (c : Cursor) (ch : Char) : c.sees ch = true ↔ peek c.rest = some ch.toUInt8 := by
  simp [sees, skip_eq, peek]

theorem atEnd_of_peek {c : Cursor} {d : UInt8} (h : peek c.rest = some d)
    (other : d ≠ '/'.toUInt8) : c.atEnd = false := by
  simp only [peek] at h
  simp only [atEnd, skip_eq]
  match hr : c.rest.dropWhile isBlank with
  | [] => simp [hr] at h
  | [e] => rfl
  | e :: f :: r =>
    have first : e = d := by simpa [hr] using h
    simp [first, other]

theorem eat?_of_peek {c : Cursor} {ch : Char} (h : peek c.rest ≠ some ch.toUInt8) :
    c.eat? ch = none := by
  have blind : ¬ c.sees ch = true := fun hs => h ((sees_iff c ch).mp hs)
  simp [eat?, blind]

theorem eat?_blank {bs : List UInt8} (hb : Blank bs) {ch : Char}
    (hc : isBlank ch.toUInt8 = false) (pos : Nat) (r : List UInt8) :
    eat? ⟨pos, bs ++ ch.toUInt8 :: r⟩ ch = some ⟨pos + bs.length + 1, r⟩ := by
  have seen : sees ⟨pos, bs ++ ch.toUInt8 :: r⟩ ch = true := by
    rw [sees_iff, peek_blank hb, peek_cons hc]
  simp [eat?, seen, skip_blank hb (show (ch.toUInt8 :: r).head?.any isBlank = false by simpa), advance]

private theorem takeWhile_word {w r : List UInt8} {p : UInt8 → Bool} (hw : ∀ c ∈ w, p c = true)
    (hr : r.head?.any p = false) : (w ++ r).takeWhile p = w := by
  rw [List.takeWhile_append_of_pos hw]
  cases r with
  | nil => simp
  | cons c r => simp_all

theorem name?_blank {bs : List UInt8} (hb : Blank bs) {s : String} (hs : IsName s)
    {r : List UInt8} (hr : Stops r) (pos : Nat) :
    name? ⟨pos, bs ++ bytesOf s ++ r⟩ = some (s, ⟨pos + bs.length + (bytesOf s).length, r⟩) := by
  obtain ⟨c, w, hw⟩ : ∃ c w, bytesOf s = c :: w := List.exists_cons_of_ne_nil hs.nonempty
  have solid : (bytesOf s ++ r).head?.any isBlank = false := by
    simpa [hw] using isBlank_of_isNameChar c (hs.chars c (by simp [hw]))
  have starts : Option.any isNameStart ((bytesOf s).head?.or r.head?) = true := by
    simpa [hw] using hs.start
  have word : (bytesOf s ++ r).takeWhile isNameChar = bytesOf s := takeWhile_word hs.chars hr
  rw [List.append_assoc]
  simp [name?, skip_blank hb solid, starts, word, hs.plain, advance]

theorem label?_blank {bs : List UInt8} (hb : Blank bs) {s : String} (hs : IsName s)
    (r : List UInt8) (pos : Nat) :
    label? ⟨pos, bs ++ bytesOf s ++ ':'.toUInt8 :: r⟩ =
      some (s, ⟨pos + bs.length + (bytesOf s).length + 1, r⟩) := by
  have named := name?_blank hb hs (stops_cons (show isNameChar ':'.toUInt8 = false by decide) r) pos
  have colon : eat? ⟨pos + bs.length + (bytesOf s).length, ':'.toUInt8 :: r⟩ ':' =
      some ⟨pos + bs.length + (bytesOf s).length + 1, r⟩ := eat?_blank blank_nil (by decide) _ r
  simp only [label?, named, Option.bind_eq_bind, Option.bind_some, colon]
  rfl

theorem name?_of_peek {c : Cursor} {d : UInt8} (h : peek c.rest = some d)
    (other : isNameStart d = false) : c.name? = none := by
  have first : (c.rest.dropWhile isBlank).head? = some d := h
  simp only [name?, skip_eq, first, Option.any_some, other, Bool.false_eq_true, if_false]

theorem register?_blank {bs : List UInt8} (hb : Blank bs) {s : String} (hs : IsRegisterName s)
    {r : List UInt8} (hr : Stops r) (pos : Nat) :
    register? ⟨pos, bs ++ 37 :: bytesOf s ++ r⟩ =
      some (s, ⟨pos + bs.length + 1 + (bytesOf s).length, r⟩) := by
  have percent : isBlank 37 = false := by decide
  have seen : sees ⟨pos, bs ++ 37 :: (bytesOf s ++ r)⟩ '%' = true := by
    rw [sees_iff, peek_blank hb, peek_cons percent]
    rfl
  have word : (bytesOf s ++ r).takeWhile isNameChar = bytesOf s := takeWhile_word hs.chars hr
  have nonempty : bytesOf s ≠ [] := hs.nonempty
  rw [List.append_assoc, List.cons_append]
  simp [register?, seen,
    skip_blank hb (show (37 :: (bytesOf s ++ r)).head?.any isBlank = false by simpa), advance,
    word, nonempty, hs.plain]

/-- A word that is not `w` is not taken for the word `w`. -/
theorem keyword?_blank_ne {bs : List UInt8} (hb : Blank bs) {s : String} (hs : IsName s)
    {r : List UInt8} (hr : Stops r) (pos : Nat) {w : String} (hw : IsName w)
    (ascii : asciiBytes w = bytesOf w) (hne : s ≠ w) :
    keyword? ⟨pos, bs ++ bytesOf s ++ r⟩ w = none := by
  obtain ⟨c, v, hv⟩ : ∃ c v, bytesOf s = c :: v := List.exists_cons_of_ne_nil hs.nonempty
  have solid : (bytesOf s ++ r).head?.any isBlank = false := by
    simpa [hv] using isBlank_of_isNameChar c (hs.chars c (by simp [hv]))
  rw [List.append_assoc]
  simp only [keyword?, skip_blank hb solid, ascii]
  rw [if_neg]
  simp only [Bool.and_eq_true, beq_iff_eq, Bool.not_eq_true', not_and, Bool.not_eq_false]
  intro front
  -- the word `w` lies in front, so it ends inside or at the end of `s`
  obtain ⟨t, ht⟩ : ∃ t, bytesOf s ++ r = bytesOf w ++ t :=
    ⟨_, by rw [← front, List.take_append_drop]⟩
  rw [ht, List.drop_left]
  have taken : bytesOf s = bytesOf w ++ t.takeWhile isNameChar := by
    rw [← takeWhile_word hs.chars hr, ht, List.takeWhile_append_of_pos hw.chars]
  cases t with
  | nil =>
    refine absurd ?_ hne
    have same : bytesOf s = bytesOf w := by simpa using taken
    rw [← hs.plain, same, hw.plain]
  | cons d t =>
    by_cases hd : isNameChar d = true
    · simpa using hd
    · refine absurd ?_ hne
      have same : bytesOf s = bytesOf w := by simpa [hd] using taken
      rw [← hs.plain, same, hw.plain]

theorem keyword?_blank {bs : List UInt8} (hb : Blank bs) {w : String} (hw : IsName w)
    (ascii : asciiBytes w = bytesOf w) {r : List UInt8} (hr : Stops r) (pos : Nat) :
    keyword? ⟨pos, bs ++ bytesOf w ++ r⟩ w =
      some ⟨pos + bs.length + (bytesOf w).length, r⟩ := by
  obtain ⟨c, v, hv⟩ : ∃ c v, bytesOf w = c :: v := List.exists_cons_of_ne_nil hw.nonempty
  have solid : (bytesOf w ++ r).head?.any isBlank = false := by
    simpa [hv] using isBlank_of_isNameChar c (hw.chars c (by simp [hv]))
  have stop : Option.any isNameChar r.head? = false := hr
  rw [List.append_assoc]
  simp [keyword?, skip_blank hb solid, ascii, stop, advance]

theorem keyword?_of_peek {c : Cursor} {w : String} {d : UInt8} {v : List UInt8}
    (hw : asciiBytes w = d :: v) (h : peek c.rest ≠ some d) : c.keyword? w = none := by
  simp only [keyword?, skip_eq, hw]
  rw [if_neg]
  simp only [Bool.and_eq_true, beq_iff_eq, not_and]
  intro front
  refine absurd ?_ h
  cases hr : c.rest.dropWhile isBlank with
  | nil => simp [hr] at front
  | cons e r =>
    have first : e = d := by
      rw [hr] at front
      simpa using congrArg List.head? front
    simp [peek, hr, first]

private theorem utf8EncodeChar_digit {c : Char} (h : c.isDigit = true) :
    ∃ d : UInt8, String.utf8EncodeChar c = [d] ∧ isDigit d = true ∧ d.toNat = c.toNat := by
  have range : 48 ≤ c.toNat ∧ c.toNat ≤ 57 := by
    simp only [Char.isDigit, ge_iff_le, Bool.and_eq_true, decide_eq_true_eq,
      UInt32.le_iff_toNat_le] at h
    exact ⟨h.1, h.2⟩
  have low : c.val.toNat ≤ 127 := by
    have := range.2
    simp only [Char.toNat] at this
    omega
  have value : (UInt8.ofNat c.val.toNat).toNat = c.toNat := by
    simp only [Char.toNat, UInt8.toNat_ofNat']
    omega
  refine ⟨UInt8.ofNat c.val.toNat, ?_, ?_, value⟩
  · simp only [String.utf8EncodeChar, low, if_true]
  · simp only [isDigit, Bool.and_eq_true, decide_eq_true_eq, UInt8.le_iff_toNat_le, value]
    exact ⟨range.1, range.2⟩

private theorem digits_bytes (l : List Char) (h : ∀ c ∈ l, c.isDigit = true) :
    (∀ d ∈ bytesOf (String.ofList l), isDigit d = true) ∧
      (bytesOf (String.ofList l)).length = l.length ∧
      ∀ n, (bytesOf (String.ofList l)).foldl (fun n d => 10 * n + (d.toNat - '0'.toNat)) n =
        Nat.ofDigitChars 10 l n := by
  rw [bytesOf_ofList]
  induction l with
  | nil => simp
  | cons c l ih =>
    obtain ⟨chars, len, value⟩ := ih fun d hd => h d (by simp [hd])
    obtain ⟨d, code, digit, same⟩ := utf8EncodeChar_digit (h c (by simp))
    simp only [List.flatMap_cons, code, List.singleton_append, List.mem_cons, forall_eq_or_imp,
      List.length_cons, List.foldl_cons, Nat.ofDigitChars_cons]
    exact ⟨⟨digit, chars⟩, by rw [len], fun n => by rw [value, same]⟩

theorem bytesOf_repr (n : Nat) :
    (∀ d ∈ bytesOf n.repr, isDigit d = true) ∧ bytesOf n.repr ≠ [] ∧
      digitsValue (bytesOf n.repr) = n := by
  have digit : ∀ c ∈ Nat.toDigits 10 n, c.isDigit = true := fun c hc =>
    Nat.isDigit_of_mem_toDigits (by decide) (by decide) hc
  obtain ⟨chars, len, value⟩ := digits_bytes (Nat.toDigits 10 n) digit
  refine ⟨chars, ?_, ?_⟩
  · intro none
    have : (Nat.toDigits 10 n).length = 0 := by
      rw [← len, ← Nat.repr_eq_ofList_toDigits, none]
      rfl
    exact Nat.toDigits_ne_nil (List.length_eq_zero_iff.mp this)
  · calc digitsValue (bytesOf n.repr) = Nat.ofDigitChars 10 (Nat.toDigits 10 n) 0 := value 0
      _ = n := Nat.ofDigitChars_ten_toDigits

theorem bytesOf_int_head (v : Int) :
    ∃ d w, bytesOf (toString v) = d :: w ∧ (isDigit d = true ∨ d = 45) := by
  rw [Int.toString_eq_repr]
  cases v with
  | ofNat n =>
    obtain ⟨chars, nonempty, -⟩ := bytesOf_repr n
    obtain ⟨d, w, hw⟩ := List.exists_cons_of_ne_nil nonempty
    exact ⟨d, w, hw, Or.inl (chars d (by simp [hw]))⟩
  | negSucc n => exact ⟨45, bytesOf (n + 1).repr, by simp [Int.repr]; rfl, Or.inr rfl⟩

private theorem number?_digits {bs : List UInt8} (hb : Blank bs) {ds : List UInt8} (nonempty : ds ≠ [])
    (digits : ∀ d ∈ ds, isDigit d = true) {r : List UInt8} (hr : r.head?.any isDigit = false)
    (pos : Nat) :
    number? ⟨pos, bs ++ ds ++ r⟩ =
      some ((digitsValue ds : Int), asciiText ds, ⟨pos + bs.length + ds.length, r⟩) := by
  obtain ⟨d, w, rfl⟩ := List.exists_cons_of_ne_nil nonempty
  have digit : isDigit d = true := digits d (by simp)
  have solid : (d :: w ++ r).head?.any isBlank = false := by
    simpa using isBlank_of_isNameChar d (isNameChar_of_isDigit digit)
  have plain : ((d :: w ++ r).head? == some '-'.toUInt8) = false := by
    have : d ≠ '-'.toUInt8 := by
      rintro rfl
      exact absurd digit (by decide)
    simpa using this
  have taken : (d :: w ++ r).takeWhile isDigit = d :: w := takeWhile_word digits hr
  rw [List.append_assoc]
  simp only [number?, skip_blank hb solid, plain, Bool.false_eq_true, if_false, List.drop_zero, taken,
    List.isEmpty_cons, Nat.zero_add, List.take_left, advance, List.drop_left]

private theorem number?_negative {bs : List UInt8} (hb : Blank bs) {ds : List UInt8} (nonempty : ds ≠ [])
    (digits : ∀ d ∈ ds, isDigit d = true) {r : List UInt8} (hr : r.head?.any isDigit = false)
    (pos : Nat) :
    number? ⟨pos, bs ++ 45 :: ds ++ r⟩ =
      some (-(digitsValue ds : Int), asciiText (45 :: ds), ⟨pos + bs.length + (ds.length + 1), r⟩) := by
  have solid : (45 :: (ds ++ r)).head?.any isBlank = false := by
    simp only [List.head?_cons, Option.any_some]
    decide
  have minus : ((45 :: (ds ++ r)).head? == some '-'.toUInt8) = true := by rfl
  have taken : (ds ++ r).takeWhile isDigit = ds := takeWhile_word digits hr
  have some_digit : ds.isEmpty = false := by simpa using nonempty
  rw [List.append_assoc, List.cons_append]
  simp only [number?, skip_blank hb solid, minus, if_true, List.drop_succ_cons, List.drop_zero, taken,
    some_digit, Bool.false_eq_true, if_false, Nat.add_comm 1, List.take_succ_cons, List.take_left, advance, List.drop_left]

theorem number?_blank {bs : List UInt8} (hb : Blank bs) (v : Int) {r : List UInt8}
    (hr : r.head?.any isDigit = false) (pos : Nat) :
    ∃ digits, number? ⟨pos, bs ++ bytesOf (toString v) ++ r⟩ =
      some (v, digits, ⟨pos + bs.length + (bytesOf (toString v)).length, r⟩) := by
  rw [Int.toString_eq_repr]
  cases v with
  | ofNat n =>
    obtain ⟨chars, nonempty, value⟩ := bytesOf_repr n
    have read := number?_digits hb nonempty chars hr pos
    rw [value] at read
    exact ⟨_, read⟩
  | negSucc n =>
    obtain ⟨chars, nonempty, value⟩ := bytesOf_repr (n + 1)
    have text : bytesOf (Int.negSucc n).repr = 45 :: bytesOf (n + 1).repr := by
      simp only [Int.repr, bytesOf_append]
      rfl
    have same : -((digitsValue (bytesOf (n + 1).repr) : Nat) : Int) = Int.negSucc n := by
      rw [value]
      rfl
    exact ⟨_, by rw [text, number?_negative hb nonempty chars hr pos, same, List.length_cons]⟩

theorem number?_of_peek {c : Cursor} {d : UInt8} (h : peek c.rest = some d)
    (digit : isDigit d = false) (sign : d ≠ '-'.toUInt8) : c.number? = none := by
  simp only [peek] at h
  obtain ⟨r, hr⟩ : ∃ r, c.rest.dropWhile isBlank = d :: r := by
    cases hr : c.rest.dropWhile isBlank with
    | nil => simp [hr] at h
    | cons e r => exact ⟨r, by simp_all⟩
  have plain : ((d :: r).head? == some '-'.toUInt8) = false := by simpa using sign
  simp only [number?, skip_eq, hr, plain, Bool.false_eq_true, if_false, List.drop_zero,
    List.takeWhile_cons, digit, List.isEmpty_nil, if_true]

theorem isName_of_name? {c c' : Cursor} {s : String} (h : c.name? = some (s, c')) : IsName s := by
  simp only [name?] at h
  split at h
  · rename_i start
    obtain ⟨rfl, -⟩ := Prod.mk.inj (Option.some.inj h)
    refine isName_asciiText ?_ fun d hd => List.mem_takeWhile_imp hd
    cases hr : c.skip.rest with
    | nil => simp [hr] at start
    | cons d r =>
      have first : isNameStart d = true := by simpa [hr] using start
      simp [isNameChar_of_isNameStart first, first]
  · cases h

theorem isRegisterName_of_register? {c c' : Cursor} {s : String}
    (h : c.register? = some (s, c')) : IsRegisterName s := by
  simp only [register?] at h
  split at h
  · split at h
    · cases h
    · rename_i nonempty
      obtain ⟨rfl, -⟩ := Prod.mk.inj (Option.some.inj h)
      exact isRegisterName_asciiText (by simpa using nonempty) fun d hd => List.mem_takeWhile_imp hd
  · cases h

theorem ne_of_keyword? {c c' : Cursor} {s w : String} (ascii : asciiBytes w = bytesOf w)
    (h : c.name? = some (s, c')) (none : c.keyword? w = none) : s ≠ w := by
  rintro rfl
  simp only [name?] at h
  split at h
  · obtain ⟨text, -⟩ := Prod.mk.inj (Option.some.inj h)
    have word : c.skip.rest.takeWhile isNameChar = bytesOf s := by
      rw [← text, bytesOf_asciiText _ fun d hd => lt_of_isNameChar d (List.mem_takeWhile_imp hd)]
    have split : c.skip.rest = bytesOf s ++ c.skip.rest.dropWhile isNameChar := by
      rw [← word, List.takeWhile_append_dropWhile]
    simp only [keyword?, ascii] at none
    rw [if_pos] at none
    · cases none
    · rw [split, List.take_left, List.drop_left]
      simp only [beq_self_eq_true, Bool.true_and, Bool.not_eq_true']
      cases hr : c.skip.rest.dropWhile isNameChar with
      | nil => rfl
      | cons d r =>
        have := List.head?_dropWhile_not isNameChar c.skip.rest
        simpa [hr] using this
  · cases h

end Predication.Cursor
