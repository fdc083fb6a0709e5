import MakeBelieve.Tracer.Text
import MakeBelieve.Library.Json
import Mathlib.Tactic.Push

namespace MakeBelieve.Tracer

open Library Library.Utf8 Library.Json

section Sequences

theorem continuation_iff (byte : UInt8) :
    byte &&& 0xc0 = 0x80 ↔ 0x80 ≤ byte.toNat ∧ byte.toNat < 0xc0 := by
  obtain ⟨⟨n⟩⟩ := byte
  revert n
  decide +kernel

theorem utf8SequenceLength_drop (text : ByteString) (i : Nat) :
    utf8SequenceLength text i = utf8SequenceLength (text.drop i) 0 := by
  have hlength (k : Nat) : i + k < text.length ↔ 0 + k < (text.drop i).length := by
    rw [List.length_drop]
    omega
  have hbyte (k : Nat) : text.getD (i + k) 0 = (text.drop i).getD (0 + k) 0 := by
    simp [List.getD_eq_getElem?_getD, List.getElem?_drop]
  simp only [utf8SequenceLength, hlength, hbyte]

theorem utf8SequenceLength_sequence {bytes rest : ByteString} {n : Nat} (h : Sequence bytes n) :
    utf8SequenceLength (bytes ++ rest) 0 = n := by
  simp only [utf8SequenceLength, continuation_iff]
  simp only [UInt8.le_iff_toNat_le, UInt8.lt_iff_toNat_lt, ← UInt8.toNat_inj]
  cases h with
  | two ha hb => simp [ha, hb]
  | three ha hb hc hlow hhigh =>
    simp [ha, hb, hc]
    split_ifs <;> omega
  | four ha hb hc hd hlow hhigh =>
    simp [ha, hb, hc, hd]
    split_ifs <;> omega

theorem exists_sequence {text : ByteString} (h : utf8SequenceLength text 0 ≠ 0) :
    ∃ bytes rest, text = bytes ++ rest ∧ Sequence bytes (utf8SequenceLength text 0) := by
  simp only [utf8SequenceLength, continuation_iff] at h ⊢
  simp only [UInt8.le_iff_toNat_le, UInt8.lt_iff_toNat_lt, ← UInt8.toNat_inj] at h ⊢
  split_ifs at h ⊢ with hone htwo hlead hcont hrange hlead hcont hrange
  all_goals try exact absurd rfl h
  · obtain ⟨hlength, hb⟩ := htwo
    rcases text with _ | ⟨a, _ | ⟨b, rest⟩⟩
    · simp at hlength
    · simp at hlength
    · exact ⟨[a, b], rest, rfl, .two hone hb⟩
  · push Not at hcont hrange
    obtain ⟨⟨-, hb⟩, hlength, hc⟩ := hcont
    rcases text with _ | ⟨a, _ | ⟨b, _ | ⟨c, rest⟩⟩⟩
    · simp at hlength
    · simp at hlength
    · simp at hlength
    · exact ⟨[a, b, c], rest, rfl, .three hlead hb hc hrange.1 hrange.2⟩
  · push Not at hcont hrange
    obtain ⟨⟨-, hb⟩, ⟨-, hc⟩, hlength, hd⟩ := hcont
    rcases text with _ | ⟨a, _ | ⟨b, _ | ⟨c, _ | ⟨d, rest⟩⟩⟩⟩
    · simp at hlength
    · simp at hlength
    · simp at hlength
    · simp at hlength
    · exact ⟨[a, b, c, d], rest, rfl, .four hlead hb hc hd hrange.1 hrange.2⟩

/-- A character above ASCII is a sequence of its length. -/
theorem utf8SequenceLength_encodeChar {c : Char} (hc : 0x80 ≤ c.toNat) (rest : ByteString) :
    utf8SequenceLength (String.utf8EncodeChar c ++ rest) 0 = c.utf8Size :=
  utf8SequenceLength_sequence (sequence_encodeChar hc)

/-- Where there is a sequence, the text goes on with a character above ASCII. -/
theorem exists_char_of_length {text : ByteString} {i : Nat} (h : utf8SequenceLength text i ≠ 0) :
    ∃ c : Char, 0x80 ≤ c.toNat ∧ utf8SequenceLength text i = (String.utf8EncodeChar c).length ∧
      text.drop i = String.utf8EncodeChar c ++ text.drop (i + utf8SequenceLength text i) := by
  rw [utf8SequenceLength_drop] at h ⊢
  obtain ⟨bytes, rest, hsplit, hseq⟩ := exists_sequence h
  obtain ⟨c, hc, rfl⟩ := exists_char hseq
  have hlength : utf8SequenceLength (text.drop i) 0 = (String.utf8EncodeChar c).length := by
    rw [hsplit, utf8SequenceLength_encodeChar hc, String.length_utf8EncodeChar]
  refine ⟨c, hc, hlength, ?_⟩
  rw [← List.drop_drop, hlength, hsplit, List.drop_left]

/-- Where there is none, a byte above ASCII starts no character. -/
theorem firstChar_eq_none {text : ByteString} {i : Nat} (hi : i < text.length) (hc : ¬text[i] < 0x80)
    (h : utf8SequenceLength text i = 0) : firstChar (text.drop i) = none := by
  rw [utf8SequenceLength_drop] at h
  rw [Option.eq_none_iff_forall_ne_some]
  intro c hfirst
  obtain ⟨rest, hrest⟩ := firstChar_eq_some_iff.mp hfirst
  have hlow : c.toNat < 0x80 := by
    by_contra hhigh
    rw [hrest, utf8SequenceLength_encodeChar (by omega)] at h
    have hpos := c.utf8Size_pos
    omega
  have hhead : (text.drop i)[0]? = some (UInt8.ofNat c.toNat) := by
    have hval : c.val.toNat = c.toNat := rfl
    rw [hrest, String.utf8EncodeChar, hval, if_pos (by omega)]
    rfl
  rw [List.getElem?_drop, Nat.add_zero, List.getElem?_eq_getElem hi, Option.some_inj] at hhead
  rw [hhead, UInt8.lt_iff_toNat_lt, UInt8.toNat_ofNat'] at hc
  have hlimit : (0x80 : UInt8).toNat = 0x80 := rfl
  omega

end Sequences

section Strings

theorem hex_digit {c : UInt8} (hc : c < 0x10) :
    Hex ((ascii "0123456789abcdef").getD c.toNat 0) c.toNat := by
  left
  have hlt : c.toNat < (ascii "0123456789abcdef").length := by
    rw [UInt8.lt_iff_toNat_lt] at hc
    exact hc
  rw [List.getD_eq_getElem?_getD, List.getElem?_eq_getElem hlt]
  rfl

theorem nibbles (c : UInt8) :
    c >>> 4 < 0x10 ∧ c &&& 0xf < 0x10 ∧ c.toNat = 16 * (c >>> 4).toNat + (c &&& 0xf).toNat := by
  obtain ⟨⟨n⟩⟩ := c
  revert n
  decide +kernel

/-- An escaped character reads as itself. -/
theorem chars_appendEscaped (c : UInt8) :
    ∃ escaped, (∀ out, appendEscaped out c = out ++ escaped) ∧ ∀ bytes text, Chars bytes text →
      Chars (escaped ++ bytes) (Char.ofUInt8 c :: text) := by
  unfold appendEscaped
  split_ifs with hquote hslash hline hreturn htab
  · subst hquote
    exact ⟨_, fun _ => rfl, fun _ _ => @Chars.escape '\x22' 0x22 _ _ (by decide)⟩
  · subst hslash
    exact ⟨_, fun _ => rfl, fun _ _ => @Chars.escape '\x5c' 0x5c _ _ (by decide)⟩
  · subst hline
    exact ⟨_, fun _ => rfl, fun _ _ => @Chars.escape '\n' 0x6e _ _ (by decide)⟩
  · subst hreturn
    exact ⟨_, fun _ => rfl, fun _ _ => @Chars.escape '\r' 0x72 _ _ (by decide)⟩
  · subst htab
    exact ⟨_, fun _ => rfl, fun _ _ => @Chars.escape '\t' 0x74 _ _ (by decide)⟩
  · obtain ⟨hhigh, hlow, hsum⟩ := nibbles c
    have hzero : Hex 0x30 0 := .inl rfl
    have hunit := CodeUnit.mk hzero hzero (hex_digit hhigh) (hex_digit hlow)
    simp only [Nat.mul_zero, Nat.zero_add, ← hsum] at hunit
    refine ⟨_, fun out => List.append_assoc .., fun bytes text h => ?_⟩
    exact .unicode hunit h

theorem replaced {bytes : ByteString} {text : List Char} (h : Chars bytes text) :
    Chars (ascii "\\ufffd" ++ bytes) ('\uFFFD' :: text) := by
  have hf : Hex 0x66 0xf := .inl rfl
  have hd : Hex 0x64 0xd := .inl rfl
  exact .unicode (CodeUnit.mk hf hf hf hd) h

theorem unescaped_of_ascii {c : UInt8} (hc : 0x20 ≤ c ∧ c < 0x80 ∧ c ≠ 0x22 ∧ c ≠ 0x5c) :
    Unescaped (Char.ofUInt8 c) := by
  revert hc
  obtain ⟨⟨n⟩⟩ := c
  revert n
  decide +kernel

theorem unescaped_of_le {c : Char} (hc : 0x80 ≤ c.toNat) : Unescaped c := by
  refine ⟨by omega, ?_, ?_⟩ <;> rintro rfl <;> exact absurd hc (by decide)

/-- What a byte string is read as, one character and what is left after it at a time. -/
theorem drop_of_ascii {text : ByteString} {i : Nat} (hi : i < text.length) (hc : text[i] < 0x80) :
    text.drop i = String.utf8EncodeChar (Char.ofUInt8 text[i]) ++ text.drop (i + 1) := by
  rw [encodeChar_ascii hc, List.drop_eq_getElem_cons hi]
  rfl

theorem take_run {text : ByteString} {run i : Nat} {plain : List Char}
    (hrun : text.drop run = encode plain ++ text.drop i)
    (hlength : run + (encode plain).length = i) :
    (text.drop run).take (i - run) = encode plain := by
  have htaken : i - run = (encode plain).length := by omega
  rw [htaken, hrun, List.take_left]

/-- What a piece of the text reads as, after the run before it. -/
theorem chars_after_run {text : ByteString} {run i : Nat} {plain : List Char} {c : Char}
    {out result rest piece : ByteString} (hplain : AllUnescaped plain)
    (hrun : text.drop run = encode plain ++ text.drop i)
    (hread : lossy (text.drop i) = c :: lossy rest)
    (hpiece : ∀ bytes text, Chars bytes text → Chars (piece ++ bytes) (c :: text))
    (h : ∃ body, result = out ++ encode plain ++ piece ++ body ∧ Chars body (lossy rest)) :
    ∃ body, result = out ++ body ∧ Chars body (lossy (text.drop run)) := by
  obtain ⟨body, hresult, hbody⟩ := h
  refine ⟨encode plain ++ (piece ++ body), by simp [hresult], ?_⟩
  rw [hrun, lossy_encode_append, hread]
  exact .text_append hplain (hpiece body _ hbody)

/-- The invariant of the loop: the run up to `i` is a text that needs no escaping. -/
theorem chars_appendRuns (text out : ByteString) (run i : Nat) (plain : List Char)
    (hplain : AllUnescaped plain) (hrun : text.drop run = encode plain ++ text.drop i)
    (hlength : run + (encode plain).length = i) :
    ∃ body, appendRuns text out run i = out ++ body ∧ Chars body (lossy (text.drop run)) := by
  fun_induction appendRuns text out run i generalizing plain with
  | case1 out run i hi c hc ih =>
    have hascii := encodeChar_ascii hc.2.1
    have hgrown : encode (plain ++ [Char.ofUInt8 c]) = encode plain ++ [c] := by
      rw [encode_append, encode_cons, hascii]
      rfl
    apply ih (plain ++ [Char.ofUInt8 c])
    · intro d hd
      rcases List.mem_append.mp hd with hd | hd
      · exact hplain d hd
      · rw [List.mem_singleton.mp hd]
        exact unescaped_of_ascii hc
    · rw [hgrown, List.append_assoc, ← hascii, hrun, drop_of_ascii hi hc.2.1]
    · rw [hgrown, List.length_append, ← Nat.add_assoc, hlength]
      rfl
  | case2 out run i hi c hc out' hascii ih =>
    have hout : out' = out ++ encode plain := congrArg (out ++ ·) (take_run hrun hlength)
    obtain ⟨escaped, happend, hescaped⟩ := chars_appendEscaped c
    have hread : lossy (text.drop i) = Char.ofUInt8 c :: lossy (text.drop (i + 1)) := by
      rw [drop_of_ascii hi hascii, lossy_encodeChar_append]
    have hrest := ih [] allUnescaped_nil rfl rfl
    rw [happend, hout] at hrest ⊢
    exact chars_after_run hplain hrun hread hescaped hrest
  | case3 out run i hi c hc out' length hascii hsequence ih =>
    have hout : out' = out ++ encode plain := congrArg (out ++ ·) (take_run hrun hlength)
    obtain ⟨d, hd, hlen, hdrop⟩ := exists_char_of_length hsequence
    have hread : lossy (text.drop i) = d :: lossy (text.drop (i + length)) := by
      rw [hdrop, lossy_encodeChar_append]
    have hrest := ih [] allUnescaped_nil rfl rfl
    have htaken : (text.drop i).take length = String.utf8EncodeChar d := by
      rw [hdrop, show length = _ from hlen, List.take_left]
    rw [htaken, hout] at hrest ⊢
    exact chars_after_run hplain hrun hread (fun _ _ => .unescaped (unescaped_of_le hd)) hrest
  | case4 out run i hi c hc out' length hascii hsequence ih =>
    have hout : out' = out ++ encode plain := congrArg (out ++ ·) (take_run hrun hlength)
    have hnone := firstChar_eq_none hi hascii (of_not_not hsequence)
    have hread : lossy (text.drop i) = '\uFFFD' :: lossy (text.drop (i + 1)) := by
      rw [List.drop_eq_getElem_cons hi] at hnone ⊢
      exact lossy_of_firstChar_none hnone
    have hrest := ih [] allUnescaped_nil rfl rfl
    rw [hout] at hrest ⊢
    exact chars_after_run hplain hrun hread (fun _ _ => replaced) hrest
  | case5 out run i hi =>
    have hend : text.drop i = [] := List.drop_eq_nil_of_le (by omega)
    rw [hend, List.append_nil] at hrun
    refine ⟨_, rfl, ?_⟩
    rw [hrun, lossy_encode]
    exact .text hplain

/-- A text is another with the text of a value after it. -/
def Writes (text out : ByteString) (value : Json) : Prop :=
  ∃ bytes, text = out ++ bytes ∧ Value bytes value

/-- What is appended is a string that reads as the text, each invalid byte replaced. -/
theorem writes_appendJsonString (out text : ByteString) :
    Writes (appendJsonString out text) out (.str (lossy text)) := by
  obtain ⟨body, hbody, hchars⟩ :=
    chars_appendRuns text (out ++ ascii "\"") 0 0 [] allUnescaped_nil rfl rfl
  refine ⟨quoted body, ?_, .str hchars⟩
  rw [appendJsonString, hbody]
  simp [quoted, ascii]

/-- The lengths that `utf8SequenceLength` gives: of a character above ASCII, where one starts. -/
theorem utf8SequenceLength_iff (text : ByteString) (i n : Nat) :
    utf8SequenceLength text i = n ∧ n ≠ 0 ↔
      ∃ (c : Char) (rest : ByteString), 0x80 ≤ c.toNat ∧ c.utf8Size = n ∧
        text.drop i = String.utf8EncodeChar c ++ rest := by
  constructor
  · rintro ⟨rfl, hn⟩
    obtain ⟨c, hc, hlength, hdrop⟩ := exists_char_of_length hn
    exact ⟨c, _, hc, by rw [hlength, String.length_utf8EncodeChar], hdrop⟩
  · rintro ⟨c, rest, hc, rfl, hdrop⟩
    have hpos := c.utf8Size_pos
    rw [utf8SequenceLength_drop, hdrop, utf8SequenceLength_encodeChar hc]
    omega

/-- Whatever the bytes, what is appended is a JSON string of valid UTF-8, which spells the text of
them with U+FFFD for each byte at which no character starts; so a text is spelt as it is. The
sequences told from such bytes are those of the characters above ASCII. -/
theorem appendJsonString_spells :
    (∀ out text : ByteString, ∃ body, appendJsonString out text = out ++ quoted body ∧ Valid body ∧
      ∀ spelt, Chars body spelt ↔ spelt = lossy text) ∧
    (∀ text : List Char, lossy (encode text) = text) ∧
    (∀ (c : Char) (rest : ByteString), lossy (String.utf8EncodeChar c ++ rest) = c :: lossy rest) ∧
    (∀ (byte : UInt8) (rest : ByteString),
      (∀ (c : Char) (after : ByteString), byte :: rest ≠ String.utf8EncodeChar c ++ after) →
        lossy (byte :: rest) = '\uFFFD' :: lossy rest) ∧
    ∀ (text : ByteString) (i n : Nat), utf8SequenceLength text i = n ∧ n ≠ 0 ↔
      ∃ (c : Char) (rest : ByteString), 0x80 ≤ c.toNat ∧ c.utf8Size = n ∧
        text.drop i = String.utf8EncodeChar c ++ rest := by
  refine ⟨?_, lossy_encode, lossy_encodeChar_append, ?_, utf8SequenceLength_iff⟩
  · intro out text
    obtain ⟨body, hbody, hchars⟩ :=
      chars_appendRuns text (out ++ ascii "\"") 0 0 [] allUnescaped_nil rfl rfl
    refine ⟨body, ?_, hchars.valid, ?_⟩
    · rw [appendJsonString, hbody]
      simp [quoted, ascii]
    · intro spelt
      constructor
      · intro hspelt
        exact hspelt.unique hchars
      · rintro rfl
        exact hchars
  · intro byte rest hnone
    apply lossy_of_firstChar_none
    rw [Option.eq_none_iff_forall_ne_some]
    intro c hfirst
    obtain ⟨after, hafter⟩ := firstChar_eq_some_iff.mp hfirst
    exact hnone c after hafter

end Strings

end MakeBelieve.Tracer
