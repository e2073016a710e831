import DocPath.Text.Utf8

/-!
# Text as bytes and back

Every text is decoded from its own bytes. The decoder owes that to the ranges it allows for
second bytes: they hold whatever a character has there.
-/

namespace DocPath.Text.Utf8

variable {n m : Nat} {bs : List UInt8}

theorem lead_of_one (h : n < 128) : lead (UInt8.ofNat n) = .char (Char.ofNat n) := by
  have hn := UInt8.toNat_ofNat_of_lt' (n := n) (show n < 256 by omega)
  simp only [lead, UInt8.lt_iff_toNat_lt, hn, UInt8.reduceToNat]
  rw [if_pos h]

theorem lead_of_two (h : 194 ≤ n) (h' : n < 224) :
    lead (UInt8.ofNat n) = .more ⟨1, 0x80, 0xBF, n % 32⟩ := by
  have hn := UInt8.toNat_ofNat_of_lt' (n := n) (show n < 256 by omega)
  simp only [lead, UInt8.lt_iff_toNat_lt, hn, UInt8.reduceToNat]
  rw [if_neg (by omega), if_neg (by omega), if_pos h']

theorem lead_of_three (h : 225 ≤ n) (h' : n < 240) (hne : n ≠ 237) :
    lead (UInt8.ofNat n) = .more ⟨2, 0x80, 0xBF, n % 16⟩ := by
  have hn := UInt8.toNat_ofNat_of_lt' (n := n) (show n < 256 by omega)
  simp only [lead, UInt8.lt_iff_toNat_lt, ← UInt8.toNat_inj, hn, UInt8.reduceToNat]
  rw [if_neg (by omega), if_neg (by omega), if_neg (by omega), if_neg (by omega), if_neg hne,
    if_pos h']

theorem lead_of_four (h : 241 ≤ n) (h' : n < 244) :
    lead (UInt8.ofNat n) = .more ⟨3, 0x80, 0xBF, n % 8⟩ := by
  have hn := UInt8.toNat_ofNat_of_lt' (n := n) (show n < 256 by omega)
  simp only [lead, UInt8.lt_iff_toNat_lt, ← UInt8.toNat_inj, hn, UInt8.reduceToNat]
  rw [if_neg (by omega), if_neg (by omega), if_neg (by omega), if_neg (by omega),
    if_neg (by omega), if_neg (by omega), if_neg (by omega), if_pos h']

/-- A byte that goes on with a character and allows for more of it. -/
theorem decodeFrom_more {k bits : Nat} {low high : UInt8} (hlow : low.toNat ≤ m + 128)
    (hhigh : m + 128 ≤ high.toNat) (hm : m < 64) :
    decodeFrom (some ⟨k + 2, low, high, bits⟩) (UInt8.ofNat (m + 128) :: bs) =
      decodeFrom (some ⟨k + 1, 0x80, 0xBF, bits * 64 + m⟩) bs := by
  have hn := UInt8.toNat_ofNat_of_lt' (n := m + 128) (show m + 128 < 256 by omega)
  have fits : low ≤ UInt8.ofNat (m + 128) ∧ UInt8.ofNat (m + 128) ≤ high := by
    rw [UInt8.le_iff_toNat_le, UInt8.le_iff_toNat_le, hn]
    exact ⟨hlow, hhigh⟩
  rw [decodeFrom, if_pos fits, hn]
  have hbits : (m + 128) % 64 = m := by omega
  simp only [hbits]

/-- The byte that ends a character. -/
theorem decodeFrom_last {bits : Nat} {low high : UInt8} (hlow : low.toNat ≤ m + 128)
    (hhigh : m + 128 ≤ high.toNat) (hm : m < 64) :
    decodeFrom (some ⟨1, low, high, bits⟩) (UInt8.ofNat (m + 128) :: bs) =
      Char.ofNat (bits * 64 + m) :: decodeFrom none bs := by
  have hn := UInt8.toNat_ofNat_of_lt' (n := m + 128) (show m + 128 < 256 by omega)
  have fits : low ≤ UInt8.ofNat (m + 128) ∧ UInt8.ofNat (m + 128) ≤ high := by
    rw [UInt8.le_iff_toNat_le, UInt8.le_iff_toNat_le, hn]
    exact ⟨hlow, hhigh⟩
  rw [decodeFrom, if_pos fits, hn]
  have hbits : (m + 128) % 64 = m := by omega
  simp only [hbits]

section character

variable {c : Char}

theorem encodeChar_of_one (h : c.toNat ≤ 127) : encodeChar c = [UInt8.ofNat c.toNat] := if_pos h

theorem encodeChar_of_two (h : 127 < c.toNat) (h' : c.toNat ≤ 2047) :
    encodeChar c =
      [UInt8.ofNat (c.toNat / 64 % 32 + 192), UInt8.ofNat (c.toNat % 64 + 128)] :=
  (if_neg (Nat.not_le.mpr h)).trans (if_pos h')

theorem encodeChar_of_three (h : 2047 < c.toNat) (h' : c.toNat ≤ 65535) :
    encodeChar c =
      [UInt8.ofNat (c.toNat / 4096 % 16 + 224), UInt8.ofNat (c.toNat / 64 % 64 + 128),
        UInt8.ofNat (c.toNat % 64 + 128)] :=
  (if_neg (Nat.not_le.mpr (Nat.lt_trans (by decide) h))).trans
    ((if_neg (Nat.not_le.mpr h)).trans (if_pos h'))

theorem encodeChar_of_four (h : 65535 < c.toNat) :
    encodeChar c =
      [UInt8.ofNat (c.toNat / 262144 % 8 + 240), UInt8.ofNat (c.toNat / 4096 % 64 + 128),
        UInt8.ofNat (c.toNat / 64 % 64 + 128), UInt8.ofNat (c.toNat % 64 + 128)] :=
  (if_neg (Nat.not_le.mpr (Nat.lt_trans (by decide) h))).trans
    ((if_neg (Nat.not_le.mpr (Nat.lt_trans (by decide) h))).trans (if_neg (Nat.not_le.mpr h)))

theorem decodeFrom_one (h : c.toNat ≤ 127) :
    decodeFrom none (encodeChar c ++ bs) = c :: decodeFrom none bs := by
  rw [encodeChar_of_one h, List.singleton_append, decodeFrom, lead_of_one (by omega)]
  simp only [Char.ofNat_toNat]

theorem decodeFrom_two (h : 127 < c.toNat) (h' : c.toNat ≤ 2047) :
    decodeFrom none (encodeChar c ++ bs) = c :: decodeFrom none bs := by
  rw [encodeChar_of_two h h', List.cons_append, List.singleton_append, decodeFrom,
    lead_of_two (by omega) (by omega)]
  dsimp only
  rw [decodeFrom_last (Nat.le_add_left _ _) (show _ ≤ 191 by omega) (by omega)]
  have hbits : (c.toNat / 64 % 32 + 192) % 32 * 64 + c.toNat % 64 = c.toNat := by omega
  rw [hbits, Char.ofNat_toNat]

/-- A first byte leaves room for every second one that a character of three bytes has. -/
theorem lead_three (h : 2047 < c.toNat) (h' : c.toNat ≤ 65535) :
    ∃ low high, lead (UInt8.ofNat (c.toNat / 4096 % 16 + 224)) =
        .more ⟨2, low, high, c.toNat / 4096⟩ ∧
      low.toNat ≤ c.toNat / 64 % 64 + 128 ∧ c.toNat / 64 % 64 + 128 ≤ high.toNat := by
  by_cases hfirst : c.toNat / 4096 = 0
  · refine ⟨0xA0, 0xBF, by rw [hfirst]; rfl, ?_, ?_⟩
    · change 160 ≤ _
      omega
    · change _ ≤ 191
      omega
  · by_cases hsurrogate : c.toNat / 4096 = 13
    · have hc : c.toNat < 0xD800 ∨ 0xDFFF < c.toNat ∧ c.toNat < 0x110000 := c.valid
      refine ⟨0x80, 0x9F, by rw [hsurrogate]; rfl, Nat.le_add_left _ _, ?_⟩
      change _ ≤ 159
      omega
    · refine ⟨0x80, 0xBF, ?_, Nat.le_add_left _ _, ?_⟩
      · rw [lead_of_three (by omega) (by omega) (by omega)]
        have hbits : (c.toNat / 4096 % 16 + 224) % 16 = c.toNat / 4096 := by omega
        rw [hbits]
      · change _ ≤ 191
        omega

theorem decodeFrom_three (h : 2047 < c.toNat) (h' : c.toNat ≤ 65535) :
    decodeFrom none (encodeChar c ++ bs) = c :: decodeFrom none bs := by
  obtain ⟨low, high, hlead, hlow, hhigh⟩ := lead_three h h'
  rw [encodeChar_of_three h h', List.cons_append, List.cons_append, List.singleton_append,
    decodeFrom, hlead]
  dsimp only
  rw [decodeFrom_more (k := 0) hlow hhigh (by omega),
    decodeFrom_last (Nat.le_add_left _ _) (show _ ≤ 191 by omega) (by omega)]
  have hbits : (c.toNat / 4096 * 64 + c.toNat / 64 % 64) * 64 + c.toNat % 64 = c.toNat := by omega
  rw [hbits, Char.ofNat_toNat]

theorem lead_four (h : 65535 < c.toNat) :
    ∃ low high, lead (UInt8.ofNat (c.toNat / 262144 % 8 + 240)) =
        .more ⟨3, low, high, c.toNat / 262144⟩ ∧
      low.toNat ≤ c.toNat / 4096 % 64 + 128 ∧ c.toNat / 4096 % 64 + 128 ≤ high.toNat := by
  have hc : c.toNat < 0xD800 ∨ 0xDFFF < c.toNat ∧ c.toNat < 0x110000 := c.valid
  by_cases hfirst : c.toNat / 262144 = 0
  · refine ⟨0x90, 0xBF, by rw [hfirst]; rfl, ?_, ?_⟩
    · change 144 ≤ _
      omega
    · change _ ≤ 191
      omega
  · by_cases hlast : c.toNat / 262144 = 4
    · refine ⟨0x80, 0x8F, by rw [hlast]; rfl, Nat.le_add_left _ _, ?_⟩
      change _ ≤ 143
      omega
    · refine ⟨0x80, 0xBF, ?_, Nat.le_add_left _ _, ?_⟩
      · rw [lead_of_four (by omega) (by omega)]
        have hbits : (c.toNat / 262144 % 8 + 240) % 8 = c.toNat / 262144 := by omega
        rw [hbits]
      · change _ ≤ 191
        omega

theorem decodeFrom_four (h : 65535 < c.toNat) :
    decodeFrom none (encodeChar c ++ bs) = c :: decodeFrom none bs := by
  obtain ⟨low, high, hlead, hlow, hhigh⟩ := lead_four h
  have hlt : c.toNat < 0xD800 ∨ 0xDFFF < c.toNat ∧ c.toNat < 0x110000 := c.valid
  rw [encodeChar_of_four h, List.cons_append, List.cons_append, List.cons_append,
    List.singleton_append, decodeFrom, hlead]
  dsimp only
  rw [decodeFrom_more (k := 1) hlow hhigh (by omega),
    decodeFrom_more (k := 0) (Nat.le_add_left _ _) (show _ ≤ 191 by omega) (by omega),
    decodeFrom_last (Nat.le_add_left _ _) (show _ ≤ 191 by omega) (by omega)]
  have hbits : ((c.toNat / 262144 * 64 + c.toNat / 4096 % 64) * 64 + c.toNat / 64 % 64) * 64 +
      c.toNat % 64 = c.toNat := by omega
  rw [hbits, Char.ofNat_toNat]

end character

/-- A character is decoded from its bytes, whatever comes after them. -/
theorem decodeFrom_encodeChar (c : Char) (bs : List UInt8) :
    decodeFrom none (encodeChar c ++ bs) = c :: decodeFrom none bs := by
  by_cases h₁ : c.toNat ≤ 127
  · exact decodeFrom_one h₁
  · by_cases h₂ : c.toNat ≤ 2047
    · exact decodeFrom_two (Nat.not_le.mp h₁) h₂
    · by_cases h₃ : c.toNat ≤ 65535
      · exact decodeFrom_three (Nat.not_le.mp h₂) h₃
      · exact decodeFrom_four (Nat.not_le.mp h₃)

theorem decode_encode (cs : List Char) : decode (encode cs) = cs := by
  induction cs with
  | nil => rfl
  | cons c cs ih =>
    rw [decode, encode, List.flatMap_cons, decodeFrom_encodeChar]
    exact congrArg (c :: ·) ih

theorem decodeString_encode (s : String) : decodeString (encode s.toList) = s := by
  rw [decodeString, decode_encode, String.ofList_toList]

theorem encode_ne_nil {cs : List Char} (h : cs ≠ []) : encode cs ≠ [] := by
  intro hnil
  have hdecode := decode_encode cs
  rw [hnil] at hdecode
  exact h hdecode.symm

theorem encodeChar_ne_nil (c : Char) : encodeChar c ≠ [] := by
  have h := encode_ne_nil (List.cons_ne_nil c [])
  rwa [encode, List.flatMap_singleton] at h

theorem encode_append (cs ds : List Char) : encode (cs ++ ds) = encode cs ++ encode ds :=
  List.flatMap_append

theorem encode_cons (c : Char) (cs : List Char) : encode (c :: cs) = encodeChar c ++ encode cs :=
  List.flatMap_cons

theorem encode_singleton (c : Char) : encode [c] = encodeChar c := List.append_nil _

/-- No byte of a character beyond ASCII lies in the range of ASCII. -/
theorem le_of_mem_encodeChar {c : Char} (h : 127 < c.toNat) {b : UInt8} (hb : b ∈ encodeChar c) :
    128 ≤ b.toNat := by
  have high : ∀ m, m < 128 → 128 ≤ (UInt8.ofNat (m + 128)).toNat := by
    intro m hm
    rw [UInt8.toNat_ofNat_of_lt' (show m + 128 < 256 by omega)]
    exact Nat.le_add_left _ _
  by_cases h₂ : c.toNat ≤ 2047
  · rw [encodeChar_of_two h h₂] at hb
    simp only [List.mem_cons, List.not_mem_nil, or_false] at hb
    rcases hb with rfl | rfl
    · exact high (c.toNat / 64 % 32 + 64) (by omega)
    · exact high _ (by omega)
  · by_cases h₃ : c.toNat ≤ 65535
    · rw [encodeChar_of_three (Nat.not_le.mp h₂) h₃] at hb
      simp only [List.mem_cons, List.not_mem_nil, or_false] at hb
      rcases hb with rfl | rfl | rfl
      · exact high (c.toNat / 4096 % 16 + 96) (by omega)
      · exact high _ (by omega)
      · exact high _ (by omega)
    · rw [encodeChar_of_four (Nat.not_le.mp h₃)] at hb
      simp only [List.mem_cons, List.not_mem_nil, or_false] at hb
      rcases hb with rfl | rfl | rfl | rfl
      · exact high (c.toNat / 262144 % 8 + 112) (by omega)
      · exact high _ (by omega)
      · exact high _ (by omega)
      · exact high _ (by omega)

end DocPath.Text.Utf8
