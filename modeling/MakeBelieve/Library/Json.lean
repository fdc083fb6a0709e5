import MakeBelieve.Library.Utf8
import Mathlib.Data.Rat.Defs

namespace MakeBelieve.Library

/-- What a JSON text says. -/
inductive Json
  | null
  | bool (value : Bool)
  | num (value : ℚ)
  | str (text : List Char)
  | arr (elements : List Json)
  | obj (members : List (List Char × Json))

namespace Json

/-- Items separated by commas, at least one. -/
inductive SepBy {α : Type} (Item : ByteString → α → Prop) : ByteString → List α → Prop
  | one {bytes : ByteString} {a : α} (h : Item bytes a) : SepBy Item bytes [a]
  | cons {bytes rest : ByteString} {a : α} {as : List α} (h : Item bytes a) (hrest : SepBy Item rest as) :
      SepBy Item (bytes ++ 0x2c :: rest) (a :: as)

theorem SepBy.append {α : Type} {Item : ByteString → α → Prop} {left right : ByteString} {as bs : List α}
    (hleft : SepBy Item left as) (hright : SepBy Item right bs) :
    SepBy Item (left ++ 0x2c :: right) (as ++ bs) := by
  induction hleft with
  | one h => exact .cons h hright
  | cons h _ ih => simpa using SepBy.cons h ih

def Space (bytes : ByteString) : Prop := ∀ byte ∈ bytes, byte ∈ ascii " \t\n\r"

/-- An item with whitespace around it. -/
inductive Padded {α : Type} (Item : ByteString → α → Prop) : ByteString → α → Prop
  | mk {before bytes after : ByteString} {a : α} (hbefore : Space before) (h : Item bytes a)
      (hafter : Space after) : Padded Item (before ++ bytes ++ after) a

theorem space_nil : Space [] := by simp [Space]

theorem Padded.bare {α : Type} {Item : ByteString → α → Prop} {bytes : ByteString} {a : α}
    (h : Item bytes a) : Padded Item bytes a := by
  simpa using Padded.mk space_nil h space_nil

theorem Padded.line {α : Type} {Item : ByteString → α → Prop} {bytes : ByteString} {a : α}
    (h : Item bytes a) : Padded Item (bytes ++ ascii "\n") a :=
  Padded.mk space_nil h (by simp [Space, ascii])

section Numbers

def digit (d : Nat) : UInt8 := UInt8.ofNat (48 + d)

/-- The decimal spelling of a natural number, without leading zeros. -/
inductive Natural : ByteString → Nat → Prop
  | digit {d : Nat} (hd : d < 10) : Natural [digit d] d
  | snoc {bytes : ByteString} {n d : Nat} (h : Natural bytes n) (hn : n ≠ 0) (hd : d < 10) :
      Natural (bytes ++ [Json.digit d]) (10 * n + d)

/-- Digits, with the number they spell. -/
inductive Digits : ByteString → Nat → Prop
  | digit {d : Nat} (hd : d < 10) : Digits [digit d] d
  | snoc {bytes : ByteString} {n d : Nat} (h : Digits bytes n) (hd : d < 10) :
      Digits (bytes ++ [Json.digit d]) (10 * n + d)

inductive Exponent : ByteString → ℤ → Prop
  | unsigned {bytes : ByteString} {n : Nat} (h : Digits bytes n) : Exponent bytes n
  | plus {bytes : ByteString} {n : Nat} (h : Digits bytes n) : Exponent (0x2b :: bytes) n
  | minus {bytes : ByteString} {n : Nat} (h : Digits bytes n) : Exponent (0x2d :: bytes) (-n)

/-- A number before its exponent. -/
inductive Decimal : ByteString → ℚ → Prop
  | whole {bytes : ByteString} {n : Nat} (h : Natural bytes n) : Decimal bytes n
  | fraction {bytes digits : ByteString} {n m : Nat} (h : Natural bytes n) (hdigits : Digits digits m) :
      Decimal (bytes ++ 0x2e :: digits) (n + m / 10 ^ digits.length)

inductive Magnitude : ByteString → ℚ → Prop
  | plain {bytes : ByteString} {q : ℚ} (h : Decimal bytes q) : Magnitude bytes q
  | scaled {bytes exponent : ByteString} {mark : UInt8} {q : ℚ} {e : ℤ} (h : Decimal bytes q)
      (hmark : mark ∈ ascii "eE") (hexponent : Exponent exponent e) :
      Magnitude (bytes ++ mark :: exponent) (q * 10 ^ e)

inductive Number : ByteString → ℚ → Prop
  | positive {bytes : ByteString} {q : ℚ} (h : Magnitude bytes q) : Number bytes q
  | negative {bytes : ByteString} {q : ℚ} (h : Magnitude bytes q) : Number (0x2d :: bytes) (-q)

theorem digit_toDigits {d : Nat} (hd : d < 10) :
    [digit d] = (Nat.toDigits 10 d).map fun c => c.toNat.toUInt8 := by
  rw [Nat.toDigits_of_lt_base hd]
  decide +revert

/-- The digits a natural number is written with spell it. -/
theorem natural_toDigits (n : Nat) :
    Natural ((Nat.toDigits 10 n).map fun c => c.toNat.toUInt8) n := by
  induction n using Nat.strong_induction_on with
  | _ n ih =>
    by_cases hn : n < 10
    · rw [← digit_toDigits hn]
      exact .digit hn
    · have hmod : n % 10 < 10 := Nat.mod_lt n (by decide)
      have hsplit : n = 10 * (n / 10) + n % 10 := (Nat.div_add_mod n 10).symm
      have hlast := digit_toDigits hmod
      rw [Nat.toDigits_of_lt_base hmod] at hlast
      rw [Nat.toDigits_of_base_le (by decide) (by omega), List.map_append, ← hlast]
      have hsnoc := (ih (n / 10) (by omega)).snoc (by omega) hmod
      rwa [← hsplit] at hsnoc

theorem number_ofNat {bytes : ByteString} {n : Nat} (h : Natural bytes n) : Number bytes n :=
  .positive (.plain (.whole h))

end Numbers

section Strings

/-- The characters a string may hold as they are. -/
def Unescaped (c : Char) : Prop := 0x20 ≤ c.toNat ∧ c ≠ '\x22' ∧ c ≠ '\x5c'

instance (c : Char) : Decidable (Unescaped c) := inferInstanceAs (Decidable (_ ∧ _ ∧ _))

def AllUnescaped (text : List Char) : Prop := ∀ c ∈ text, Unescaped c

instance (text : List Char) : Decidable (AllUnescaped text) := List.decidableBAll _ text

theorem allUnescaped_nil : AllUnescaped [] := by simp [AllUnescaped]

/-- The characters with an escape of their own, by the letter of it. -/
def escapes : List (UInt8 × Char) :=
  [(0x22, '\x22'), (0x5c, '\x5c'), (0x2f, '/'), (0x62, '\x08'), (0x66, '\x0c'), (0x6e, '\n'),
    (0x72, '\r'), (0x74, '\t')]

def Hex (byte : UInt8) (value : Nat) : Prop :=
  (ascii "0123456789abcdef")[value]? = some byte ∨ (ascii "0123456789ABCDEF")[value]? = some byte

/-- The four hexadecimal digits of a UTF-16 code unit. -/
inductive CodeUnit : ByteString → Nat → Prop
  | mk {a b c d : UInt8} {i j k l : Nat} (ha : Hex a i) (hb : Hex b j) (hc : Hex c k) (hd : Hex d l) :
      CodeUnit [a, b, c, d] (4096 * i + 256 * j + 16 * k + l)

/-- What stands between a string's quotes, with the text it spells. -/
inductive Chars : ByteString → List Char → Prop
  | nil : Chars [] []
  | unescaped {c : Char} {bytes : ByteString} {text : List Char} (hc : Unescaped c)
      (h : Chars bytes text) : Chars (String.utf8EncodeChar c ++ bytes) (c :: text)
  | escape {c : Char} {byte : UInt8} {bytes : ByteString} {text : List Char}
      (hc : (byte, c) ∈ escapes) (h : Chars bytes text) : Chars (0x5c :: byte :: bytes) (c :: text)
  | unicode {c : Char} {unit bytes : ByteString} {text : List Char} (hc : CodeUnit unit c.toNat)
      (h : Chars bytes text) : Chars (0x5c :: 0x75 :: (unit ++ bytes)) (c :: text)
  | surrogates {c : Char} {high low bytes : ByteString} {m n : Nat} {text : List Char}
      (hhigh : CodeUnit high (0xd800 + m)) (hlow : CodeUnit low (0xdc00 + n)) (hm : m < 0x400)
      (hn : n < 0x400) (hc : c.toNat = 0x10000 + 0x400 * m + n) (h : Chars bytes text) :
      Chars (0x5c :: 0x75 :: (high ++ 0x5c :: 0x75 :: (low ++ bytes))) (c :: text)

theorem Chars.text_append {text rest : List Char} {bytes : ByteString}
    (htext : AllUnescaped text) (h : Chars bytes rest) :
    Chars (Utf8.encode text ++ bytes) (text ++ rest) := by
  induction text with
  | nil => exact h
  | cons c text ih =>
    have hc : Unescaped c := htext c List.mem_cons_self
    have hrest := ih fun d hd => htext d (List.mem_cons_of_mem c hd)
    simpa using Chars.unescaped hc hrest

/-- A text that needs no escaping stands for itself. -/
theorem Chars.text {text : List Char} (htext : AllUnescaped text) :
    Chars (Utf8.encode text) text := by
  simpa using Chars.text_append htext .nil

theorem Hex.lt {byte : UInt8} {value : Nat} (h : Hex byte value) : value < 16 ∧ byte < 0x80 := by
  rcases h with h | h <;>
  · obtain ⟨hlt, rfl⟩ := List.getElem?_eq_some_iff.mp h
    refine ⟨hlt, ?_⟩
    have hall : ∀ byte ∈ ascii "0123456789abcdef" ++ ascii "0123456789ABCDEF", byte < 0x80 := by
      decide +kernel
    apply hall
    simp

/-- A hexadecimal digit is of one value. -/
theorem Hex.unique {byte : UInt8} {m n : Nat} (h : Hex byte m) (h' : Hex byte n) : m = n := by
  have hdigits : ∀ i j : Fin 16, ∀ low ∈ [ascii "0123456789abcdef", ascii "0123456789ABCDEF"],
      ∀ high ∈ [ascii "0123456789abcdef", ascii "0123456789ABCDEF"],
        low[i.val]? = high[j.val]? → i = j := by
    decide +kernel
  have heq : ∀ low ∈ [ascii "0123456789abcdef", ascii "0123456789ABCDEF"],
      ∀ high ∈ [ascii "0123456789abcdef", ascii "0123456789ABCDEF"],
        low[m]? = some byte → high[n]? = some byte → m = n := by
    intro low hlow high hhigh hm hn
    exact congrArg Fin.val
      (hdigits ⟨m, h.lt.1⟩ ⟨n, h'.lt.1⟩ low hlow high hhigh (hm.trans hn.symm))
  rcases h with hm | hm <;> rcases h' with hn | hn
  · exact heq _ (by simp) _ (by simp) hm hn
  · exact heq _ (by simp) _ (by simp) hm hn
  · exact heq _ (by simp) _ (by simp) hm hn
  · exact heq _ (by simp) _ (by simp) hm hn

theorem CodeUnit.length {unit : ByteString} {n : Nat} (h : CodeUnit unit n) : unit.length = 4 := by
  cases h
  rfl

theorem CodeUnit.unique {unit : ByteString} {m n : Nat} (h : CodeUnit unit m)
    (h' : CodeUnit unit n) : m = n := by
  cases h with
  | mk ha hb hc hd =>
    cases h' with
    | mk ha' hb' hc' hd' =>
      rw [ha.unique ha', hb.unique hb', hc.unique hc', hd.unique hd']

theorem CodeUnit.append_inj {unit unit' bytes bytes' : ByteString} {m n : Nat}
    (h : CodeUnit unit m) (h' : CodeUnit unit' n) (heq : unit ++ bytes = unit' ++ bytes') :
    m = n ∧ bytes = bytes' := by
  obtain ⟨rfl, hbytes⟩ := List.append_inj heq (h.length.trans h'.length.symm)
  exact ⟨h.unique h', hbytes⟩

theorem CodeUnit.valid_append {unit bytes : ByteString} {n : Nat} (h : CodeUnit unit n)
    (hbytes : Utf8.Valid bytes) : Utf8.Valid (unit ++ bytes) := by
  cases h with
  | mk ha hb hc hd =>
    apply Utf8.Valid.cons_ascii ha.lt.2
    apply Utf8.Valid.cons_ascii hb.lt.2
    apply Utf8.Valid.cons_ascii hc.lt.2
    exact Utf8.Valid.cons_ascii hd.lt.2 hbytes

theorem escape_ascii {byte : UInt8} {c : Char} (h : (byte, c) ∈ escapes) : byte < 0x80 := by
  have hall : ∀ entry ∈ escapes, entry.1 < 0x80 := by decide
  exact hall _ h

theorem escape_unique {byte : UInt8} {c d : Char} (h : (byte, c) ∈ escapes)
    (h' : (byte, d) ∈ escapes) : c = d := by
  have hall : ∀ entry ∈ escapes, ∀ other ∈ escapes, entry.1 = other.1 → entry.2 = other.2 := by
    decide
  exact hall _ h _ h' rfl

/-- A string is valid UTF-8. -/
theorem Chars.valid {bytes : ByteString} {text : List Char} (h : Chars bytes text) :
    Utf8.Valid bytes := by
  induction h with
  | nil => exact Utf8.valid_nil
  | unescaped hc h ih => exact (Utf8.valid_encodeChar _).append ih
  | escape hc h ih => exact .cons_ascii (by decide) (.cons_ascii (escape_ascii hc) ih)
  | unicode hc h ih => exact .cons_ascii (by decide) (.cons_ascii (by decide) (hc.valid_append ih))
  | surrogates hhigh hlow hm hn hc h ih =>
    apply Utf8.Valid.cons_ascii (by decide)
    apply Utf8.Valid.cons_ascii (by decide)
    apply hhigh.valid_append
    apply Utf8.Valid.cons_ascii (by decide)
    apply Utf8.Valid.cons_ascii (by decide)
    exact hlow.valid_append ih

section Reading

variable {c d : Char} {byte : UInt8} {unit bytes rest : ByteString} {text : List Char}

theorem Unescaped.ne_escape (hc : Unescaped c) :
    String.utf8EncodeChar c ++ bytes ≠ 0x5c :: rest := by
  intro h
  have hslash : (0x5c :: rest) = String.utf8EncodeChar '\x5c' ++ rest := rfl
  rw [hslash] at h
  exact hc.2.2 (Utf8.encodeChar_append_inj h).1

theorem ne_unicode (h : (byte, c) ∈ escapes) : byte ≠ 0x75 := by
  have hall : ∀ entry ∈ escapes, entry.1 ≠ 0x75 := by decide
  exact hall _ h

theorem not_surrogate {m : Nat} (hm : m < 0x400) : c.toNat ≠ 0xd800 + m := by
  have hvalid : c.toNat < 0xd800 ∨ 0xdfff < c.toNat ∧ c.toNat < 0x110000 := c.valid
  omega

theorem Chars.of_nil (h : Chars [] text) : text = [] := by
  generalize hbytes : ([] : ByteString) = all at h
  cases h with
  | nil => rfl
  | unescaped hc h =>
    have hempty := (List.append_eq_nil_iff.mp hbytes.symm).1
    exact absurd hempty (Utf8.encodeChar_ne_nil _)
  | escape | unicode | surrogates => cases hbytes

theorem Chars.of_unescaped (hc : Unescaped c) (h : Chars (String.utf8EncodeChar c ++ bytes) text) :
    ∃ text', text = c :: text' ∧ Chars bytes text' := by
  generalize hbytes : String.utf8EncodeChar c ++ bytes = all at h
  cases h with
  | nil => exact absurd (List.append_eq_nil_iff.mp hbytes).1 (Utf8.encodeChar_ne_nil c)
  | unescaped hd h =>
    obtain ⟨rfl, rfl⟩ := Utf8.encodeChar_append_inj hbytes
    exact ⟨_, rfl, h⟩
  | escape | unicode | surrogates => exact absurd hbytes hc.ne_escape

theorem Chars.of_escape (hc : (byte, c) ∈ escapes) (h : Chars (0x5c :: byte :: bytes) text) :
    ∃ text', text = c :: text' ∧ Chars bytes text' := by
  generalize hbytes : 0x5c :: byte :: bytes = all at h
  cases h with
  | nil => cases hbytes
  | unescaped hd h => exact absurd hbytes.symm hd.ne_escape
  | escape hd h =>
    simp only [List.cons.injEq, true_and] at hbytes
    obtain ⟨rfl, rfl⟩ := hbytes
    obtain rfl := escape_unique hc hd
    exact ⟨_, rfl, h⟩
  | unicode | surrogates =>
    simp only [List.cons.injEq, true_and] at hbytes
    exact absurd hbytes.1 (ne_unicode hc)

theorem Chars.of_unicode (hc : CodeUnit unit c.toNat)
    (h : Chars (0x5c :: 0x75 :: (unit ++ bytes)) text) :
    ∃ text', text = c :: text' ∧ Chars bytes text' := by
  generalize hbytes : 0x5c :: 0x75 :: (unit ++ bytes) = all at h
  cases h with
  | nil => cases hbytes
  | unescaped hd h => exact absurd hbytes.symm hd.ne_escape
  | escape hd h =>
    simp only [List.cons.injEq, true_and] at hbytes
    exact absurd hbytes.1.symm (ne_unicode hd)
  | unicode hd h =>
    simp only [List.cons.injEq, true_and] at hbytes
    obtain ⟨hcode, rfl⟩ := hc.append_inj hd hbytes
    obtain rfl := Char.toNat_inj.mp hcode
    exact ⟨_, rfl, h⟩
  | surrogates hhigh hlow hm hn hd h =>
    simp only [List.cons.injEq, true_and] at hbytes
    exact absurd (hc.append_inj hhigh hbytes).1 (not_surrogate hm)

theorem Chars.of_surrogates {high low : ByteString} {m n : Nat} (hhigh : CodeUnit high (0xd800 + m))
    (hlow : CodeUnit low (0xdc00 + n)) (hm : m < 0x400) (hc : c.toNat = 0x10000 + 0x400 * m + n)
    (h : Chars (0x5c :: 0x75 :: (high ++ 0x5c :: 0x75 :: (low ++ bytes))) text) :
    ∃ text', text = c :: text' ∧ Chars bytes text' := by
  generalize hbytes : 0x5c :: 0x75 :: (high ++ 0x5c :: 0x75 :: (low ++ bytes)) = all at h
  cases h with
  | nil => cases hbytes
  | unescaped hd h => exact absurd hbytes.symm hd.ne_escape
  | escape hd h =>
    simp only [List.cons.injEq, true_and] at hbytes
    exact absurd hbytes.1.symm (ne_unicode hd)
  | unicode hd h =>
    simp only [List.cons.injEq, true_and] at hbytes
    exact absurd (hhigh.append_inj hd hbytes).1.symm (not_surrogate hm)
  | @surrogates d _ _ _ _ _ _ hhigh' hlow' hm' hn' hd h =>
    simp only [List.cons.injEq, true_and] at hbytes
    obtain ⟨hm, hrest⟩ := hhigh.append_inj hhigh' hbytes
    simp only [List.cons.injEq, true_and] at hrest
    obtain ⟨hn, rfl⟩ := hlow.append_inj hlow' hrest
    have hcode : c.toNat = d.toNat := by omega
    obtain rfl := Char.toNat_inj.mp hcode
    exact ⟨_, rfl, h⟩

/-- A string spells one text. -/
theorem Chars.unique {text' : List Char} (h : Chars bytes text) (h' : Chars bytes text') :
    text = text' := by
  induction h generalizing text' with
  | nil => exact h'.of_nil.symm
  | unescaped hc h ih =>
    obtain ⟨rest, rfl, hrest⟩ := h'.of_unescaped hc
    rw [ih hrest]
  | escape hc h ih =>
    obtain ⟨rest, rfl, hrest⟩ := h'.of_escape hc
    rw [ih hrest]
  | unicode hc h ih =>
    obtain ⟨rest, rfl, hrest⟩ := h'.of_unicode hc
    rw [ih hrest]
  | surrogates hhigh hlow hm hn hc h ih =>
    obtain ⟨rest, rfl, hrest⟩ := h'.of_surrogates hhigh hlow hm hc
    rw [ih hrest]

end Reading

def quoted (body : ByteString) : ByteString := 0x22 :: (body ++ [0x22])

end Strings

/-- A member of an object: its key and its value. -/
inductive Member (Item : ByteString → Json → Prop) : ByteString → List Char × Json → Prop
  | mk {before body after bytes : ByteString} {key : List Char} {value : Json} (hbefore : Space before)
      (hkey : Chars body key) (hafter : Space after) (h : Padded Item bytes value) :
      Member Item (before ++ quoted body ++ after ++ 0x3a :: bytes) (key, value)

/-- The texts that are well-formed JSON, with what each says. -/
inductive Value : ByteString → Json → Prop
  | null : Value (ascii "null") null
  | true : Value (ascii "true") (bool Bool.true)
  | false : Value (ascii "false") (bool Bool.false)
  | num {bytes : ByteString} {q : ℚ} (h : Number bytes q) : Value bytes (num q)
  | str {body : ByteString} {text : List Char} (h : Chars body text) : Value (quoted body) (str text)
  | emptyArr {space : ByteString} (h : Space space) : Value (0x5b :: (space ++ [0x5d])) (arr [])
  | arr {body : ByteString} {elements : List Json} (h : SepBy (Padded Value) body elements) :
      Value (0x5b :: (body ++ [0x5d])) (arr elements)
  | emptyObj {space : ByteString} (h : Space space) : Value (0x7b :: (space ++ [0x7d])) (obj [])
  | obj {body : ByteString} {members : List (List Char × Json)} (h : SepBy (Member Value) body members) :
      Value (0x7b :: (body ++ [0x7d])) (obj members)

theorem Member.field {key : List Char} {bytes : ByteString} {value : Json}
    (hkey : AllUnescaped key) (h : Value bytes value) :
    Member Value (quoted (Utf8.encode key) ++ 0x3a :: bytes) (key, value) := by
  simpa using Member.mk space_nil (.text hkey) space_nil (.bare h)

theorem Member.ne_nil {Item : ByteString → Json → Prop} {bytes : ByteString} {member : List Char × Json}
    (h : Member Item bytes member) : bytes ≠ [] := by
  cases h
  simp

theorem SepBy.ne_nil {α : Type} {Item : ByteString → α → Prop} {bytes : ByteString} {as : List α}
    (h : SepBy Item bytes as) (hitem : ∀ bytes a, Item bytes a → bytes ≠ []) : bytes ≠ [] := by
  cases h with
  | one h => exact hitem _ _ h
  | cons h hrest => simp

end Json

end MakeBelieve.Library
