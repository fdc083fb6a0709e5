import Mathlib.Tactic.SplitIfs
import Mathlib.Data.List.Basic

namespace MakeBelieve.Library

abbrev ByteString := List UInt8

/-- The bytes of a literal of ASCII characters. -/
def ascii (literal : String) : ByteString := literal.toList.map fun c => c.toNat.toUInt8

namespace Utf8

/-- The bytes of a text. -/
def encode (text : List Char) : ByteString := text.flatMap String.utf8EncodeChar

/-- The character whose encoding a byte string starts with. -/
def firstChar (bytes : ByteString) : Option Char := bytes.toByteArray.utf8DecodeChar? 0

/-- The text of a byte string, with U+FFFD for each byte no character's encoding starts at. -/
def lossy : ByteString → List Char
  | [] => []
  | byte :: rest =>
    match firstChar (byte :: rest) with
    | some c => c :: lossy (rest.drop (c.utf8Size - 1))
    | none => '\uFFFD' :: lossy rest
termination_by bytes => bytes.length
decreasing_by all_goals (simp only [List.length_drop, List.length_cons]; omega)

@[simp] theorem encode_nil : encode [] = [] := rfl

@[simp] theorem encode_cons (c : Char) (text : List Char) :
    encode (c :: text) = String.utf8EncodeChar c ++ encode text := rfl

@[simp] theorem encode_append (a b : List Char) : encode (a ++ b) = encode a ++ encode b := by
  simp [encode]

theorem encodeChar_ne_nil (c : Char) : String.utf8EncodeChar c ≠ [] := by
  intro h
  have hlen := congrArg List.length h
  have hpos := c.utf8Size_pos
  simp only [String.length_utf8EncodeChar, List.length_nil] at hlen
  omega

theorem firstChar_encode (c : Char) (rest : ByteString) :
    firstChar (String.utf8EncodeChar c ++ rest) = some c := by
  rw [firstChar, List.toByteArray_append]
  exact ByteArray.utf8DecodeChar?_utf8EncodeChar_append

theorem eq_encode_of_firstChar {bytes : ByteString} {c : Char} (h : firstChar bytes = some c) :
    ∃ rest, bytes = String.utf8EncodeChar c ++ rest := by
  have hsplit := ByteArray.eq_of_utf8DecodeChar?_eq_some h
  have hlists := congrArg (fun b : ByteArray => b.data.toList) hsplit
  simp only [ByteArray.data_append, Array.toList_append, List.data_toByteArray,
    List.toList_toArray] at hlists
  exact ⟨_, hlists⟩

/-- A byte string starts with a character exactly when it starts with its encoding. -/
theorem firstChar_eq_some_iff {bytes : ByteString} {c : Char} :
    firstChar bytes = some c ↔ ∃ rest, bytes = String.utf8EncodeChar c ++ rest := by
  constructor
  · exact eq_encode_of_firstChar
  · rintro ⟨rest, rfl⟩
    exact firstChar_encode c rest

theorem lossy_encodeChar_append (c : Char) (rest : ByteString) :
    lossy (String.utf8EncodeChar c ++ rest) = c :: lossy rest := by
  obtain ⟨byte, tail, htail⟩ := List.exists_cons_of_ne_nil (encodeChar_ne_nil c)
  have hlen : tail.length = c.utf8Size - 1 := by
    have h := congrArg List.length htail
    simp only [String.length_utf8EncodeChar, List.length_cons] at h
    omega
  have hfirst := firstChar_encode c rest
  rw [htail, List.cons_append] at hfirst ⊢
  simp only [lossy, hfirst, ← hlen, List.drop_left]

theorem lossy_of_firstChar_none {byte : UInt8} {rest : ByteString}
    (h : firstChar (byte :: rest) = none) : lossy (byte :: rest) = '\uFFFD' :: lossy rest := by
  simp only [lossy, h]

@[simp] theorem lossy_nil : lossy [] = [] := by simp [lossy]

theorem lossy_encode_append (text : List Char) (rest : ByteString) :
    lossy (encode text ++ rest) = text ++ lossy rest := by
  induction text with
  | nil => rfl
  | cons c text ih => rw [encode_cons, List.append_assoc, lossy_encodeChar_append, ih]; rfl

/-- Reading back what was encoded loses nothing. -/
@[simp] theorem lossy_encode (text : List Char) : lossy (encode text) = text := by
  simpa using lossy_encode_append text []

theorem encodeChar_ascii {c : UInt8} (hc : c < 0x80) :
    String.utf8EncodeChar (Char.ofUInt8 c) = [c] := by
  obtain ⟨⟨n⟩⟩ := c
  revert n
  decide +kernel

/-- A byte string that is the encoding of some text. -/
def Valid (bytes : ByteString) : Prop := ∃ text, bytes = encode text

theorem valid_nil : Valid [] := ⟨[], rfl⟩

theorem valid_encodeChar (c : Char) : Valid (String.utf8EncodeChar c) := ⟨[c], by simp⟩

theorem Valid.append {bytes rest : ByteString} (h : Valid bytes) (hrest : Valid rest) :
    Valid (bytes ++ rest) := by
  obtain ⟨text, rfl⟩ := h
  obtain ⟨text', rfl⟩ := hrest
  exact ⟨text ++ text', by simp⟩

theorem Valid.cons_ascii {byte : UInt8} {bytes : ByteString} (hbyte : byte < 0x80)
    (h : Valid bytes) : Valid (byte :: bytes) := by
  have hone := valid_encodeChar (Char.ofUInt8 byte)
  rw [encodeChar_ascii hbyte] at hone
  exact hone.append h

/-- A byte string goes on with one character at most. -/
theorem encodeChar_append_inj {c d : Char} {rest rest' : ByteString}
    (h : String.utf8EncodeChar c ++ rest = String.utf8EncodeChar d ++ rest') :
    c = d ∧ rest = rest' := by
  have hfirst := firstChar_encode c rest
  rw [h, firstChar_encode] at hfirst
  obtain rfl := Option.some.inj hfirst
  exact ⟨rfl, List.append_cancel_left h⟩

section Sequences

/-- The sequences of more than one byte, by the ranges their bytes lie in. -/
inductive Sequence : ByteString → Nat → Prop
  | two {a b : UInt8} (ha : 0xc2 ≤ a.toNat ∧ a.toNat ≤ 0xdf)
      (hb : 0x80 ≤ b.toNat ∧ b.toNat < 0xc0) : Sequence [a, b] 2
  | three {a b c : UInt8} (ha : 0xe0 ≤ a.toNat ∧ a.toNat ≤ 0xef)
      (hb : 0x80 ≤ b.toNat ∧ b.toNat < 0xc0) (hc : 0x80 ≤ c.toNat ∧ c.toNat < 0xc0)
      (hlow : a.toNat = 0xe0 → 0xa0 ≤ b.toNat) (hhigh : a.toNat = 0xed → b.toNat ≤ 0x9f) :
      Sequence [a, b, c] 3
  | four {a b c d : UInt8} (ha : 0xf0 ≤ a.toNat ∧ a.toNat ≤ 0xf4)
      (hb : 0x80 ≤ b.toNat ∧ b.toNat < 0xc0) (hc : 0x80 ≤ c.toNat ∧ c.toNat < 0xc0)
      (hd : 0x80 ≤ d.toNat ∧ d.toNat < 0xc0) (hlow : a.toNat = 0xf0 → 0x90 ≤ b.toNat)
      (hhigh : a.toNat = 0xf4 → b.toNat ≤ 0x8f) : Sequence [a, b, c, d] 4

theorem sequence_encodeChar {c : Char} (hc : 0x80 ≤ c.toNat) :
    Sequence (String.utf8EncodeChar c) c.utf8Size := by
  have hvalid : c.toNat < 0xd800 ∨ 0xdfff < c.toNat ∧ c.toNat < 0x110000 := c.valid
  have hval : c.val.toNat = c.toNat := rfl
  have hlow : ¬c.toNat ≤ 0x7f := by omega
  simp only [String.utf8EncodeChar, Char.utf8Size, UInt32.le_iff_toNat_le]
  change Sequence (if c.toNat ≤ _ then _ else if c.toNat ≤ _ then _ else if c.toNat ≤ _ then _ else _)
    (if c.toNat ≤ 0x7f then _ else if c.toNat ≤ 0x7ff then _ else if c.toNat ≤ 0xffff then _ else _)
  simp only [if_neg hlow]
  split_ifs with htwo hthree
  · refine .two ?_ ?_ <;> simp only [UInt8.toNat_ofNat'] <;> omega
  · refine .three ?_ ?_ ?_ ?_ ?_ <;> simp only [UInt8.toNat_ofNat'] <;> omega
  · refine .four ?_ ?_ ?_ ?_ ?_ ?_ <;> simp only [UInt8.toNat_ofNat'] <;> omega

theorem exists_toNat {n : Nat} (h : n < 0xd800 ∨ 0xdfff < n ∧ n < 0x110000) :
    ∃ c : Char, c.toNat = n := by
  refine ⟨Char.ofNat n, ?_⟩
  have hvalid : n.isValidChar := h
  rw [Char.ofNat, dif_pos hvalid]
  rfl

/-- A sequence is the encoding of a character. -/
theorem exists_char {bytes : ByteString} {n : Nat} (h : Sequence bytes n) :
    ∃ c : Char, 0x80 ≤ c.toNat ∧ bytes = String.utf8EncodeChar c := by
  cases h with
  | @two a b ha hb =>
    obtain ⟨x, hx⟩ := exists_toNat (n := (a.toNat - 0xc0) * 64 + (b.toNat - 0x80)) (by omega)
    have hval : x.val.toNat = x.toNat := rfl
    refine ⟨x, by omega, ?_⟩
    simp only [String.utf8EncodeChar, hval]
    rw [if_neg (by omega), if_pos (by omega)]
    simp only [List.cons.injEq, ← UInt8.toNat_inj, UInt8.toNat_ofNat', and_true]
    omega
  | @three a b c ha hb hc hlow hhigh =>
    obtain ⟨x, hx⟩ := exists_toNat
      (n := (a.toNat - 0xe0) * 4096 + (b.toNat - 0x80) * 64 + (c.toNat - 0x80)) (by omega)
    have hval : x.val.toNat = x.toNat := rfl
    refine ⟨x, by omega, ?_⟩
    simp only [String.utf8EncodeChar, hval]
    rw [if_neg (by omega), if_neg (by omega), if_pos (by omega)]
    simp only [List.cons.injEq, ← UInt8.toNat_inj, UInt8.toNat_ofNat', and_true]
    omega
  | @four a b c d ha hb hc hd hlow hhigh =>
    obtain ⟨x, hx⟩ := exists_toNat (n := (a.toNat - 0xf0) * 262144 + (b.toNat - 0x80) * 4096 +
      (c.toNat - 0x80) * 64 + (d.toNat - 0x80)) (by omega)
    have hval : x.val.toNat = x.toNat := rfl
    refine ⟨x, by omega, ?_⟩
    simp only [String.utf8EncodeChar, hval]
    rw [if_neg (by omega), if_neg (by omega), if_neg (by omega)]
    simp only [List.cons.injEq, ← UInt8.toNat_inj, UInt8.toNat_ofNat', and_true]
    omega

end Sequences

end Utf8

end MakeBelieve.Library
