import TypedJson.Text.Ascii
import TypedJson.Text.Utf8

set_option autoImplicit false
set_option relaxedAutoImplicit false

namespace TypedJson.Utf8

theorem lt_of_char (c : Char) : c.toNat < 0x110000 := by
  obtain h | h := c.valid
  · exact Nat.lt_trans h (by decide)
  · exact h.2

theorem encode_ne_nil {cs : List Char} (h : cs ≠ []) : encode cs ≠ [] := by
  obtain ⟨c, cs, rfl⟩ := List.exists_cons_of_ne_nil h
  have character : String.utf8EncodeChar c ≠ [] := by
    intro empty
    have size := String.length_utf8EncodeChar c
    rw [empty] at size
    have positive := c.utf8Size_pos
    rw [← size] at positive
    exact absurd positive (by decide)
  rw [encode_cons]
  exact List.append_ne_nil_of_left_ne_nil character _

theorem toNat_char {n : Nat} (h : n.isValidChar) : (Char.ofNat n).toNat = n := by
  rw [Char.ofNat, dif_pos h]
  rfl

theorem encode_ascii {c : Char} (h : c.toNat < 0x80) :
    String.utf8EncodeChar c = [c.toNat.toUInt8] := by
  have hv : c.val.toNat ≤ 0x7F := Nat.le_of_lt_succ h
  unfold String.utf8EncodeChar
  simp only [hv, if_true]
  rfl

theorem sequenceLength?_eq_some_iff {b : UInt8} {n : Nat} :
    sequenceLength? b = some n ↔
      0xC2 ≤ b.toNat ∧ b.toNat ≤ 0xDF ∧ n = 2 ∨ 0xE0 ≤ b.toNat ∧ b.toNat ≤ 0xEF ∧ n = 3 ∨
        0xF0 ≤ b.toNat ∧ b.toNat ≤ 0xF4 ∧ n = 4 := by
  simp only [sequenceLength?, UInt8.le_iff_toNat_le, UInt8.reduceToNat]
  constructor
  · intro h
    repeat' split at h
    all_goals
      cases h
      try omega
  · intro h
    repeat' split
    all_goals
      simp only [Option.some.injEq, reduceCtorEq]
      omega

theorem toNat_ofNat {n : Nat} (h : n < 256) : (UInt8.ofNat n).toNat = n := by
  rw [UInt8.toNat_ofNat']
  exact Nat.mod_eq_of_lt h

theorem encode_multibyte {c : Char} (h : 0x80 ≤ c.toNat) :
    ∃ b bs, String.utf8EncodeChar c = b :: bs ∧ bs ≠ [] ∧ 0x80 ≤ b.toNat ∧
      sequenceLength? b = some (bs.length + 1) := by
  have lt : c.val.toNat < 0x110000 := lt_of_char c
  have le : 0x80 ≤ c.val.toNat := h
  unfold String.utf8EncodeChar
  simp only [Nat.not_le.mpr le, if_false]
  split
  · refine ⟨_, _, rfl, by simp, ?_, sequenceLength?_eq_some_iff.mpr (.inl ⟨?_, ?_, rfl⟩)⟩
    all_goals
      rw [toNat_ofNat (by omega)]
      omega
  · split
    · refine ⟨_, _, rfl, by simp, ?_, sequenceLength?_eq_some_iff.mpr (.inr (.inl ⟨?_, ?_, rfl⟩))⟩
      all_goals
        rw [toNat_ofNat (by omega)]
        omega
    · refine ⟨_, _, rfl, by simp, ?_, sequenceLength?_eq_some_iff.mpr (.inr (.inr ⟨?_, ?_, rfl⟩))⟩
      all_goals
        rw [toNat_ofNat (by omega)]
        omega

theorem encode_continued {c : Char} (h : 0x80 ≤ c.toNat) :
    ∃ b bs, String.utf8EncodeChar c = b :: bs ∧ 0xC0 ≤ b.toNat ∧
      ∀ d ∈ bs, 0x80 ≤ d.toNat ∧ d.toNat ≤ 0xBF := by
  have lt : c.val.toNat < 0x110000 := lt_of_char c
  have le : 0x80 ≤ c.val.toNat := h
  unfold String.utf8EncodeChar
  simp only [Nat.not_le.mpr le, if_false]
  repeat' split
  all_goals
    refine ⟨_, _, rfl, ?_, ?_⟩
    · rw [toNat_ofNat (by omega)]
      omega
    · simp only [List.mem_cons, List.not_mem_nil, or_false, forall_eq_or_imp, forall_eq]
      repeat rw [toNat_ofNat (by omega)]
      omega

theorem le_of_encode {c : Char} {b : UInt8} {bs : List UInt8}
    (h : String.utf8EncodeChar c = b :: bs) (hb : 0x80 ≤ b.toNat) : 0x80 ≤ c.toNat := by
  refine Nat.not_lt.mp fun hc => ?_
  rw [encode_ascii hc] at h
  obtain ⟨rfl, -⟩ := List.cons.inj h
  rw [Nat.toUInt8_eq, toNat_ofNat (by omega)] at hb
  omega

theorem le_of_encode_append {c : Char} {bs : List UInt8} {b : UInt8}
    (h : String.utf8EncodeChar c = bs ++ [b]) (hbs : bs ≠ []) : 0x80 ≤ c.toNat := by
  refine Nat.not_lt.mp fun hc => ?_
  rw [encode_ascii hc] at h
  have length := congrArg List.length h
  have := List.length_pos_iff.mpr hbs
  simp only [List.length_append, List.length_singleton] at length
  omega

theorem encode_eq_cons {cs : List Char} {b : UInt8} {bs : List UInt8} (h : encode cs = b :: bs) :
    (b.toNat < 0x80 ∧ ∃ cs, encode cs = bs) ∨ ∃ n, sequenceLength? b = some n := by
  cases cs with
  | nil => cases h
  | cons c cs =>
      rw [encode_cons] at h
      by_cases ascii : c.toNat < 0x80
      · rw [encode_ascii ascii] at h
        obtain ⟨rfl, rest⟩ := List.cons.inj h
        refine .inl ⟨?_, cs, rest⟩
        rw [Nat.toUInt8_eq, toNat_ofNat (Nat.lt_trans ascii (by decide))]
        exact ascii
      · obtain ⟨first, more, character, -, -, length⟩ := encode_multibyte (Nat.not_lt.mp ascii)
        rw [character] at h
        obtain ⟨rfl, -⟩ := List.cons.inj h
        exact .inr ⟨_, length⟩

theorem encode_length (c : Char) : ∃ b bs, String.utf8EncodeChar c = b :: bs ∧
    (sequenceLength? b).getD 1 = bs.length + 1 := by
  by_cases ascii : c.toNat < 0x80
  · refine ⟨_, [], encode_ascii ascii, ?_⟩
    cases length : sequenceLength? c.toNat.toUInt8 with
    | none => rfl
    | some n =>
        have outside := sequenceLength?_eq_some_iff.mp length
        rw [Nat.toUInt8_eq, toNat_ofNat (Nat.lt_trans ascii (by decide))] at outside
        omega
  · obtain ⟨b, bs, character, -, -, length⟩ := encode_multibyte (Nat.not_lt.mp ascii)
    exact ⟨b, bs, character, by rw [length]; rfl⟩

theorem decodeWithin_encode {fuel : Nat} {cs : List Char} (h : (encode cs).length ≤ fuel) :
    decodeWithin fuel (encode cs) = cs := by
  induction cs generalizing fuel with
  | nil => cases fuel <;> rfl
  | cons c cs ih =>
      obtain ⟨b, bs, character, length⟩ := encode_length c
      have bytes : encode (c :: cs) = b :: (bs ++ encode cs) := by
        rw [encode_cons, character, List.cons_append]
      rw [bytes, List.length_cons, List.length_append] at h
      obtain ⟨fuel, rfl⟩ : ∃ n, fuel = n + 1 := ⟨fuel - 1, by omega⟩
      have first : (b :: (bs ++ encode cs)).take (bs.length + 1) = b :: bs := by
        rw [List.take_succ_cons, List.take_left]
      have rest : (b :: (bs ++ encode cs)).drop (bs.length + 1) = encode cs := by
        rw [List.drop_succ_cons, List.drop_left]
      rw [bytes, decodeWithin, length, first, rest, ← character, decodeOne?_eq_some_iff.mpr rfl]
      exact congrArg (c :: ·) (ih (by omega))

theorem encode_inj {cs ds : List Char} (h : encode cs = encode ds) : cs = ds := by
  have decoded := decodeWithin_encode (Nat.le_refl (encode cs).length)
  rw [h, decodeWithin_encode (Nat.le_refl _)] at decoded
  exact decoded.symm

theorem decode_encode (cs : List Char) : decode (encode cs) = String.ofList cs := by
  rw [decode, decodeWithin_encode (Nat.le_refl _)]

/-! Characters are found again wherever one looks. -/

theorem mem_encode {cs : List Char} {b : UInt8} (h : b ∈ encode cs) :
    ∃ c ∈ cs, c.toNat < 0x80 ∧ b.toNat = c.toNat ∨ 0x80 ≤ c.toNat ∧ 0x80 ≤ b.toNat := by
  obtain ⟨c, hc, hb⟩ := List.mem_flatMap.mp h
  refine ⟨c, hc, ?_⟩
  by_cases ascii : c.toNat < 0x80
  · rw [encode_ascii ascii, List.mem_singleton] at hb
    rw [hb, Nat.toUInt8_eq, toNat_ofNat (Nat.lt_trans ascii (by decide))]
    exact .inl ⟨ascii, rfl⟩
  · obtain ⟨first, bs, character, lead, continued⟩ := encode_continued (Nat.not_lt.mp ascii)
    refine .inr ⟨Nat.not_lt.mp ascii, ?_⟩
    rw [character] at hb
    rcases List.mem_cons.mp hb with rfl | hb
    · exact Nat.le_trans (by decide) lead
    · exact (continued b hb).1

/-- No character is the beginning of another one. -/
theorem eq_of_encode_append {c d : Char} {bs bs' : List UInt8}
    (h : String.utf8EncodeChar c ++ bs = String.utf8EncodeChar d ++ bs') : c = d ∧ bs = bs' := by
  obtain ⟨b, more, character, length⟩ := encode_length c
  obtain ⟨b', more', character', length'⟩ := encode_length d
  have first : b = b' := by
    rw [character, character'] at h
    exact (List.cons.inj h).1
  have same : (String.utf8EncodeChar c).length = (String.utf8EncodeChar d).length := by
    rw [character, character', List.length_cons, List.length_cons, ← length, ← length', first]
  obtain ⟨encoding, rest⟩ := List.append_inj h same
  have decoded := decodeOne?_eq_some_iff.mpr encoding
  rw [decodeOne?_eq_some_iff.mpr rfl] at decoded
  exact ⟨(Option.some.inj decoded).symm, rest⟩

theorem lead_of_encode {c : Char} {b : UInt8} {bs : List UInt8}
    (h : String.utf8EncodeChar c = b :: bs) : b.toNat < 0x80 ∨ 0xC0 ≤ b.toNat := by
  by_cases ascii : b.toNat < 0x80
  · exact .inl ascii
  · obtain ⟨first, more, character, lead, -⟩ :=
      encode_continued (le_of_encode h (Nat.not_lt.mp ascii))
    cases h.symm.trans character
    exact .inr lead

theorem continuation_of_encode {c : Char} {b b' : UInt8} {bs bs' : List UInt8}
    (h : String.utf8EncodeChar c = b :: (bs ++ b' :: bs')) :
    0x80 ≤ b'.toNat ∧ b'.toNat < 0xC0 := by
  have multibyte : 0x80 ≤ c.toNat := by
    refine Nat.not_lt.mp fun ascii => ?_
    rw [encode_ascii ascii] at h
    have length := congrArg List.length h
    simp at length
  obtain ⟨first, more, character, -, continuation⟩ := encode_continued multibyte
  cases h.symm.trans character
  obtain ⟨lo, hi⟩ := continuation b' (List.mem_append_right _ List.mem_cons_self)
  exact ⟨lo, Nat.lt_succ_of_le hi⟩

/-- The bytes of a character occur in those of a text only where the character itself does. -/
theorem mem_of_infix {c : Char} {cs : List Char}
    (h : String.utf8EncodeChar c <:+: encode cs) : c ∈ cs := by
  obtain ⟨lead, more, encoded, -⟩ := encode_length c
  obtain ⟨before, behind, split⟩ := h
  induction cs generalizing before with
  | nil =>
      have empty := (List.append_eq_nil_iff.mp (List.append_eq_nil_iff.mp split).1).2
      cases encoded.symm.trans empty
  | cons d cs ih =>
      rw [encode_cons, List.append_assoc] at split
      obtain ⟨rest, rfl, within⟩ | ⟨cut, character, within⟩ :=
        List.append_eq_append_iff.mp split.symm
      · -- the bytes begin behind the first character
        exact List.mem_cons_of_mem d (ih rest (by rw [within, List.append_assoc]))
      · cases before with
        | nil =>
            obtain ⟨rfl, -⟩ := eq_of_encode_append split
            exact List.mem_cons_self
        | cons b before =>
            cases cut with
            | nil => exact List.mem_cons_of_mem d (ih [] within)
            | cons b' cut =>
                -- they would begin inside the first character
                obtain ⟨lo, hi⟩ := continuation_of_encode character
                rw [encoded] at within
                obtain ⟨rfl, -⟩ := List.cons.inj within
                have outside := lead_of_encode encoded
                omega

end TypedJson.Utf8

namespace TypedJson.Ascii

theorem toNat_toChar {b : UInt8} (h : b.toNat < 0x80) : (toChar b).toNat = b.toNat :=
  Utf8.toNat_char (.inl (Nat.lt_trans h (by decide)))

theorem encode_toChar {b : UInt8} (h : b.toNat < 0x80) :
    String.utf8EncodeChar (toChar b) = [b] := by
  rw [Utf8.encode_ascii (by rw [toNat_toChar h]; exact h), toNat_toChar h]
  simp

theorem toChar_inj {b d : UInt8} (h : toChar b = toChar d) : b = d := by
  have code (b : UInt8) : (toChar b).toNat = b.toNat :=
    Utf8.toNat_char (.inl (Nat.lt_trans b.toNat_lt (by decide)))
  have same : (toChar b).toNat = (toChar d).toNat := congrArg Char.toNat h
  rw [code, code] at same
  exact UInt8.toNat_inj.mp same

theorem toChar_toUInt8 {c : Char} (h : c.toNat < 0x80) : toChar c.toNat.toUInt8 = c := by
  rw [toChar, Nat.toUInt8_eq, Utf8.toNat_ofNat (by omega), Char.ofNat_toNat]

end TypedJson.Ascii
