import DocPath.Path.Literal
import DocPath.Proofs.Decimal.Digits
import DocPath.Proofs.Text.Escaping

/-!
# Literals that are read as they were written

Integers and quoted strings, with whatever comes after them. Reading an integer ends with the
byte that follows its digits, which must be no digit.
-/

namespace DocPath

open Text.Utf8

variable {offset : Nat} {rest : List UInt8}

/-- A reader that has succeeded hands its result on. -/
theorem bind_of_ok {α β : Type} {x : Except Failure α} {a : α} (h : x = .ok a)
    {k : α → Except Failure β} : (x >>= k) = k a := by
  rw [h]
  rfl

theorem Cursor.takeWhile_append {p : UInt8 → Bool} {bytes : List UInt8} (h : ∀ b ∈ bytes, p b)
    (hrest : ∀ b ∈ rest.head?, p b = false) (offset : Nat) :
    (⟨offset, bytes ++ rest⟩ : Cursor).takeWhile p = (bytes, ⟨offset + bytes.length, rest⟩) := by
  have stops : rest.takeWhile p = [] ∧ rest.dropWhile p = rest := by
    cases rest with
    | nil => exact ⟨rfl, rfl⟩
    | cons b rest =>
      have hb := hrest b rfl
      exact ⟨List.takeWhile_cons_of_neg (by simp [hb]), List.dropWhile_cons_of_neg (by simp [hb])⟩
  have hbytes : (bytes ++ rest).takeWhile p = bytes ++ rest.takeWhile p :=
    List.takeWhile_append_of_pos h
  rw [stops.1, List.append_nil] at hbytes
  rw [Cursor.takeWhile, hbytes, List.dropWhile_append_of_pos h, stops.2]

theorem encode_cons_ascii {c : Char} (h : c.toNat ≤ 127) (cs : List Char) :
    encode (c :: cs) = byteOf c :: encode cs := by
  rw [encode_cons, encodeChar_of_one h]
  rfl

def digitByte (d : Nat) : UInt8 := UInt8.ofNat (d + 48)

theorem encodeChar_digitChar {d : Nat} (h : d < 10) :
    encodeChar (Nat.digitChar d) = [digitByte d] := by
  interval_cases d <;> rfl

theorem digitByte_toNat {d : Nat} (h : d < 10) : (digitByte d).toNat = d + 48 :=
  UInt8.toNat_ofNat_of_lt' (show d + 48 < 256 by omega)

theorem isDigitByte_digitByte {d : Nat} (h : d < 10) : isDigitByte (digitByte d) := by
  interval_cases d <;> rfl

theorem encode_digit {d : Nat} (h : d < 10) (ds : List Char) :
    encode (Nat.digitChar d :: ds) = digitByte d :: encode ds := by
  rw [encode_cons, encodeChar_digitChar h, List.singleton_append]

section digits

variable {negative : Bool} {ds : List Char} {d m n : Nat}

theorem isDigitByte_of_mem_encode (hds : ∀ c ∈ ds, c.isDigit) : ∀ b ∈ encode ds, isDigitByte b := by
  induction ds with
  | nil => exact nofun
  | cons c ds ih =>
    obtain ⟨hc, htail⟩ := List.forall_mem_cons.mp hds
    obtain ⟨d, hd, rfl⟩ := Decimal.exists_digitChar hc
    rw [encode_digit hd]
    exact List.forall_mem_cons.mpr ⟨isDigitByte_digitByte hd, ih htail⟩

theorem length_encode_digits (hds : ∀ c ∈ ds, c.isDigit) : (encode ds).length = ds.length := by
  induction ds with
  | nil => rfl
  | cons c ds ih =>
    obtain ⟨hc, htail⟩ := List.forall_mem_cons.mp hds
    obtain ⟨d, hd, rfl⟩ := Decimal.exists_digitChar hc
    rw [encode_digit hd, List.length_cons, List.length_cons, ih htail]

theorem isDigitByte_of_mem_natDigits (n : Nat) :
    ∀ b ∈ encode (Decimal.natDigits n), isDigitByte b :=
  isDigitByte_of_mem_encode (Decimal.isDigit_of_mem_natDigits n)

theorem natDigits_ne_nil (n : Nat) : encode (Decimal.natDigits n) ≠ [] :=
  encode_ne_nil (Decimal.natDigits_ne_nil n)

def signed (negative : Bool) (n : Nat) : Int := if negative then -n else n

def InInt64 (n : Int) : Prop := Int64.minValue.toInt ≤ n ∧ n ≤ Int64.maxValue.toInt

instance (n : Int) : Decidable (InInt64 n) := inferInstanceAs (Decidable (_ ∧ _))

theorem inInt64_iff {n : Int} : InInt64 n ↔ ∃ i : Int64, i.toInt = n := by
  constructor
  · intro h
    have hmax : Int64.maxValue.toInt = 9223372036854775807 := rfl
    have hhigh := h.2
    exact ⟨Int64.ofInt n, Int64.toInt_ofInt_of_le h.1 (by omega)⟩
  · rintro ⟨i, rfl⟩
    exact ⟨i.minValue_le_toInt, i.toInt_le⟩

/-- What is nearer to zero is in the range as well. -/
theorem InInt64.of_le (h : InInt64 (signed negative n)) (hle : m ≤ n) :
    InInt64 (signed negative m) := by
  have hmin : Int64.minValue.toInt = -9223372036854775808 := rfl
  have hmax : Int64.maxValue.toInt = 9223372036854775807 := rfl
  unfold InInt64 signed at *
  cases negative <;> simp only [Bool.false_eq_true, if_true, if_false] at h ⊢ <;> omega

theorem signed_zero (negative : Bool) : signed negative 0 = 0 := by
  cases negative <;> rfl

/-- One digit more, if the integer stays in the range. -/
theorem appendDigits_digit (hd : d < 10) (m count : Nat) (more : List UInt8) :
    appendDigits negative (signed negative m) count (digitByte d :: more) =
      if InInt64 (signed negative (10 * m + d)) then
        appendDigits negative (signed negative (10 * m + d)) (count + 1) more
      else .error (count + 1) := by
  have value : (if negative then 10 * signed negative m - (((d + 48 : Nat) : Int) - 48)
      else 10 * signed negative m + (((d + 48 : Nat) : Int) - 48)) =
        signed negative (10 * m + d) := by
    cases negative <;> simp only [signed, Bool.false_eq_true, if_true, if_false] <;> omega
  rw [appendDigits, digitByte_toNat hd, value]
  rfl

/-- The integer does not leave the range while digits are appended, if the whole is in it. -/
theorem appendDigits_of_inInt64 (hds : ∀ c ∈ ds, c.isDigit)
    (h : InInt64 (signed negative (Decimal.digitsValue m ds))) (count : Nat) :
    appendDigits negative (signed negative m) count (encode ds) =
      .ok (Int64.ofInt (signed negative (Decimal.digitsValue m ds))) := by
  induction ds generalizing m count with
  | nil => rfl
  | cons c ds ih =>
    obtain ⟨hc, htail⟩ := List.forall_mem_cons.mp hds
    obtain ⟨d, hd, rfl⟩ := Decimal.exists_digitChar hc
    rw [Decimal.digitsValue_cons hd] at h ⊢
    rw [encode_digit hd, appendDigits_digit hd, if_pos (h.of_le (Decimal.le_digitsValue _ _))]
    exact ih htail h (count + 1)

/-- Where the whole is not in the range, appending ends at the first digit that leaves it. -/
theorem appendDigits_of_not_inInt64 (hds : ∀ c ∈ ds, c.isDigit) (hm : InInt64 (signed negative m))
    (h : ¬InInt64 (signed negative (Decimal.digitsValue m ds))) (count : Nat) :
    ∃ before c after, ds = before ++ c :: after ∧
      InInt64 (signed negative (Decimal.digitsValue m before)) ∧
      ¬InInt64 (signed negative (Decimal.digitsValue m (before ++ [c]))) ∧
      appendDigits negative (signed negative m) count (encode ds) =
        .error (count + (before ++ [c]).length) := by
  induction ds generalizing m count with
  | nil => exact absurd hm h
  | cons c ds ih =>
    obtain ⟨hc, htail⟩ := List.forall_mem_cons.mp hds
    obtain ⟨d, hd, rfl⟩ := Decimal.exists_digitChar hc
    rw [encode_digit hd, appendDigits_digit hd]
    by_cases hnext : InInt64 (signed negative (10 * m + d))
    · rw [Decimal.digitsValue_cons hd] at h
      obtain ⟨before, c, after, rfl, hbefore, hover, herror⟩ := ih htail hnext h (count + 1)
      refine ⟨Nat.digitChar d :: before, c, after, rfl, ?_, ?_, ?_⟩
      · rwa [Decimal.digitsValue_cons hd]
      · rwa [List.cons_append, Decimal.digitsValue_cons hd]
      · rw [if_pos hnext, herror, List.cons_append, List.length_cons, Nat.add_assoc,
          Nat.add_comm 1]
    · refine ⟨[], _, ds, rfl, hm, ?_, if_neg hnext⟩
      rwa [List.nil_append, Decimal.digitsValue_cons hd]

theorem readInt_eq {c after : Cursor} {digits : List UInt8}
    (hpeek : decide (c.peek? = some (byteOf '-')) = negative)
    (htake : (if negative then c.skip 1 else c).takeWhile isDigitByte = (digits, after))
    (hne : digits ≠ []) :
    readInt c =
      match appendDigits negative 0 0 digits with
      | .ok i => .ok (i, after.next)
      | .error count =>
        .error ⟨.integerOverflow, (if negative then c.skip 1 else c).offset + count⟩ := by
  subst hpeek
  have hempty : digits.isEmpty = false := List.isEmpty_eq_false_iff.mpr hne
  simp only [decide_eq_true_eq] at htake ⊢
  rw [readInt]
  simp only [htake]
  rw [hempty]
  rfl

def minusSign (negative : Bool) : List Char := if negative then ['-'] else []

/-- All digits are read before the integer is known to be in the range. -/
theorem readInt_encode (negative : Bool) (hne : ds ≠ []) (hds : ∀ c ∈ ds, c.isDigit)
    (hrest : ∀ b ∈ rest.head?, isDigitByte b = false) (offset : Nat) :
    readInt ⟨offset, encode (minusSign negative ++ ds) ++ rest⟩ =
      match appendDigits negative (signed negative 0) 0 (encode ds) with
      | .ok i => .ok (i, (⟨offset + (minusSign negative ++ ds).length, rest⟩ : Cursor).next)
      | .error count =>
        .error ⟨.integerOverflow, offset + (minusSign negative).length + count⟩ := by
  have hbytes := isDigitByte_of_mem_encode hds
  have hbytes_ne := encode_ne_nil hne
  have htake : ∀ offset, Cursor.takeWhile ⟨offset, encode ds ++ rest⟩ isDigitByte =
      (encode ds, ⟨offset + ds.length, rest⟩) := fun offset => by
    rw [Cursor.takeWhile_append hbytes hrest, length_encode_digits hds]
  rw [signed_zero]
  cases negative with
  | true =>
    have hread := readInt_eq (c := ⟨offset, byteOf '-' :: (encode ds ++ rest)⟩) rfl
      (htake (offset + 1)) hbytes_ne
    rw [Nat.add_assoc, Nat.add_comm 1] at hread
    exact hread
  | false =>
    have hpeek : (⟨offset, encode ds ++ rest⟩ : Cursor).peek? ≠ some (byteOf '-') := by
      obtain ⟨b, bs, hbs⟩ := List.exists_cons_of_ne_nil hbytes_ne
      have hb : isDigitByte b := hbytes b (by simp [hbs])
      intro h
      rw [hbs] at h
      rw [Option.some.inj h] at hb
      cases hb
    exact readInt_eq (decide_eq_false hpeek) (htake offset) hbytes_ne

/-- Digits are read as the integer that they denote. -/
theorem readInt_of_toInt_eq {i : Int64} (hne : ds ≠ []) (hds : ∀ c ∈ ds, c.isDigit)
    (hrest : ∀ b ∈ rest.head?, isDigitByte b = false)
    (h : i.toInt = signed negative (Decimal.digitsValue 0 ds)) (offset : Nat) :
    readInt ⟨offset, encode (minusSign negative ++ ds) ++ rest⟩ =
      .ok (i, (⟨offset + (minusSign negative ++ ds).length, rest⟩ : Cursor).next) := by
  rw [readInt_encode negative hne hds hrest,
    appendDigits_of_inInt64 hds (inInt64_iff.mpr ⟨i, h⟩), ← h, Int64.ofInt_toInt]

end digits

/-- An integer is read back from its text, together with the byte that ends it. -/
theorem readInt_writeInt (i : Int64) {b : UInt8} (hb : isDigitByte b = false) (offset : Nat)
    (rest : List UInt8) :
    ∃ offset', readInt ⟨offset, encode (Decimal.writeInt i.toInt) ++ b :: rest⟩ =
      .ok (i, some b, ⟨offset', rest⟩) := by
  have denoted : i.toInt =
      signed (i.toInt < 0) (Decimal.digitsValue 0 (Decimal.natDigits i.toInt.natAbs)) := by
    rw [Decimal.digitsValue_natDigits, signed]
    split
    · rename_i hneg
      have := of_decide_eq_true hneg
      omega
    · rename_i hpos
      have := of_decide_eq_false (Bool.eq_false_iff.mpr hpos)
      omega
  have hrest : ∀ b' ∈ (b :: rest).head?, isDigitByte b' = false := by
    rintro _ ⟨⟩
    exact hb
  rw [Decimal.writeInt_eq]
  exact ⟨_, readInt_of_toInt_eq (Decimal.natDigits_ne_nil _) (Decimal.isDigit_of_mem_natDigits _)
    hrest denoted offset⟩

/-- An integer of any number of digits, leading zeros included, is read together with the byte after
it as what it denotes, if 64 bits hold that. Otherwise reading fails, with the first digit that
takes the integer out of the range, and not before. -/
theorem readInt_digits (negative : Bool) {ds : List Char} (hne : ds ≠ [])
    (hds : ∀ c ∈ ds, c.isDigit) (hrest : ∀ b ∈ rest.head?, isDigitByte b = false) (offset : Nat) :
    let text := minusSign negative ++ ds
    let denoted := signed negative (Decimal.digitsValue 0 ds)
    (InInt64 denoted → ∃ i : Int64, i.toInt = denoted ∧
      readInt ⟨offset, encode text ++ rest⟩ =
        .ok (i, (⟨offset + text.length, rest⟩ : Cursor).next)) ∧
    (¬InInt64 denoted → ∃ before c after, ds = before ++ c :: after ∧
      InInt64 (signed negative (Decimal.digitsValue 0 before)) ∧
      ¬InInt64 (signed negative (Decimal.digitsValue 0 (before ++ [c]))) ∧
      readInt ⟨offset, encode text ++ rest⟩ =
        .error ⟨.integerOverflow, offset + (minusSign negative ++ before ++ [c]).length⟩) := by
  intro text denoted
  refine ⟨fun h => ?_, fun h => ?_⟩
  · obtain ⟨i, hi⟩ := inInt64_iff.mp h
    exact ⟨i, hi, readInt_of_toInt_eq hne hds hrest hi offset⟩
  · have hstart : InInt64 (signed negative 0) := by
      rw [signed_zero]
      decide
    obtain ⟨before, c, after, hsplit, hbefore, hover, herror⟩ :=
      appendDigits_of_not_inInt64 hds hstart h 0
    refine ⟨before, c, after, hsplit, hbefore, hover, ?_⟩
    rw [readInt_encode negative hne hds hrest, herror]
    simp [Nat.add_assoc]

theorem readInt_digits_at_least :
    (∃ i : Int64, i.toInt = -9223372036854775808 ∧
      readInt ⟨0, encode "-009223372036854775808".toList ++ [byteOf ']']⟩ =
        .ok (i, some (byteOf ']'), ⟨23, []⟩)) ∧
    ∃ offset, readInt ⟨0, encode "-9223372036854775809".toList ++ [byteOf ']']⟩ =
      .error ⟨.integerOverflow, offset⟩ := by
  have hrest : ∀ b ∈ [byteOf ']'].head?, isDigitByte b = false := by
    rintro _ ⟨⟩
    rfl
  have reads {ds : List Char} (hne : ds ≠ []) (hds : ds.all Char.isDigit) :=
    readInt_digits true hne (List.all_eq_true.mp hds) hrest 0
  constructor
  · exact (@reads "009223372036854775808".toList (by decide) rfl).1 (by decide)
  · obtain ⟨before, c, after, -, -, -, overflows⟩ :=
      (@reads "9223372036854775809".toList (by decide) rfl).2 (by decide)
    exact ⟨_, overflows⟩

/-- Bytes between quotes that stand for `decoded` whatever comes after them. Reading them takes
no more calls than there are bytes. -/
def Unquotes (quote : UInt8) (bs decoded : List UInt8) : Prop :=
  ∃ calls ≤ bs.length, ∀ (offset fuel : Nat) (rest more : List UInt8) (c : Cursor),
    readQuotedBytes fuel quote ⟨offset + bs.length, rest⟩ = .ok (more, c) →
      readQuotedBytes (fuel + calls) quote ⟨offset, bs ++ rest⟩ = .ok (decoded ++ more, c)

namespace Unquotes

variable {quote : UInt8} {bs bs' decoded decoded' : List UInt8}

theorem nil : Unquotes quote [] [] := ⟨0, Nat.le_refl 0, fun _ _ _ _ _ h => h⟩

theorem append (h : Unquotes quote bs decoded) (h' : Unquotes quote bs' decoded') :
    Unquotes quote (bs ++ bs') (decoded ++ decoded') := by
  obtain ⟨calls, hle, reads⟩ := h
  obtain ⟨calls', hle', reads'⟩ := h'
  refine ⟨calls' + calls, by rw [List.length_append]; omega, fun offset fuel rest more c hc => ?_⟩
  rw [List.append_assoc, List.append_assoc, ← Nat.add_assoc]
  apply reads
  apply reads'
  rwa [Nat.add_assoc, ← List.length_append]

/-- A byte that is neither the quote nor a backslash stands for itself. -/
theorem byte {b : UInt8} (hquote : b ≠ quote) (hb : b ≠ byteOf '\\') : Unquotes quote [b] [b] := by
  refine ⟨1, Nat.le_refl 1, fun offset fuel rest more c hc => ?_⟩
  rw [List.singleton_append, readQuotedBytes]
  simp only [Cursor.next]
  rw [if_neg hquote, if_neg hb]
  exact bind_of_ok hc

theorem bytes (h : ∀ b ∈ bs, b ≠ quote ∧ b ≠ byteOf '\\') : Unquotes quote bs bs := by
  induction bs with
  | nil => exact nil
  | cons b bs ih =>
    have hb := h b List.mem_cons_self
    exact append (byte hb.1 hb.2) (ih fun b' hb' => h b' (List.mem_cons_of_mem b hb'))

theorem escape (hquote : byteOf '\\' ≠ quote)
    (h : ∀ offset rest, readEscape ⟨offset, bs ++ rest⟩ =
      .ok (decoded, ⟨offset + bs.length, rest⟩)) :
    Unquotes quote (byteOf '\\' :: bs) decoded := by
  refine ⟨1, Nat.succ_le_succ (Nat.zero_le _), fun offset fuel rest more c hc => ?_⟩
  rw [List.cons_append, readQuotedBytes]
  simp only [Cursor.next]
  rw [if_neg hquote, if_pos trivial, bind_of_ok (h _ _)]
  rw [List.length_cons, ← Nat.add_assoc, Nat.add_right_comm] at hc
  exact bind_of_ok hc

/-- A string is read up to the quote that ends it. -/
theorem readQuoted (h : Unquotes quote bs decoded) (offset : Nat) (rest : List UInt8) :
    readQuoted quote ⟨offset, bs ++ quote :: rest⟩ =
      .ok (decodeString decoded, ⟨offset + bs.length + 1, rest⟩) := by
  obtain ⟨calls, hle, reads⟩ := h
  have close : ∀ fuel, readQuotedBytes (fuel + 1) quote ⟨offset + bs.length, quote :: rest⟩ =
      .ok ([], ⟨offset + bs.length + 1, rest⟩) := by
    intro fuel
    rw [readQuotedBytes]
    exact if_pos rfl
  have enough : (bs ++ quote :: rest).length + 1 =
      bs.length - calls + rest.length + 1 + 1 + calls := by
    rw [List.length_append, List.length_cons]
    omega
  rw [DocPath.readQuoted, enough, bind_of_ok (reads _ _ _ _ _ (close _)), List.append_nil]

end Unquotes

/-- A digit that is read as this number, whatever comes after it. -/
structure ReadsHex (d : Char) (v : Nat) : Prop where
  below : v < 16
  ascii : encodeChar d = [byteOf d]
  reads : ∀ offset rest, readHex ⟨offset, byteOf d :: rest⟩ = .ok (v, ⟨offset + 1, rest⟩)

structure ReadsCode (ds : List Char) (n : Nat) : Prop where
  below : n < 0x10000
  length : (encode ds).length = 4
  reads : ∀ offset rest, readHex4 ⟨offset, encode ds ++ rest⟩ = .ok (n, ⟨offset + 4, rest⟩)

theorem readsHex_hexDigit (n : Nat) : ReadsHex (Text.Quoted.hexDigit n) (n % 16) := by
  rw [Text.Quoted.hexDigit]
  have hn : n % 16 < 16 := Nat.mod_lt n (by decide)
  generalize n % 16 = d at hn
  interval_cases d <;> exact ⟨by decide, rfl, fun _ _ => rfl⟩

theorem ReadsHex.code {d₃ d₂ d₁ d₀ : Char} {v₃ v₂ v₁ v₀ : Nat} (h₃ : ReadsHex d₃ v₃)
    (h₂ : ReadsHex d₂ v₂) (h₁ : ReadsHex d₁ v₁) (h₀ : ReadsHex d₀ v₀) :
    ReadsCode [d₃, d₂, d₁, d₀] (((v₃ * 16 + v₂) * 16 + v₁) * 16 + v₀) := by
  have hbytes : encode [d₃, d₂, d₁, d₀] = [byteOf d₃, byteOf d₂, byteOf d₁, byteOf d₀] := by
    simp only [encode_cons, h₃.ascii, h₂.ascii, h₁.ascii, h₀.ascii]
    rfl
  have below := And.intro (And.intro h₃.below h₂.below) (And.intro h₁.below h₀.below)
  refine ⟨by omega, by rw [hbytes]; rfl, fun offset rest => ?_⟩
  rw [hbytes]
  simp only [readHex4, List.cons_append, List.nil_append]
  rw [bind_of_ok (h₃.reads _ _), bind_of_ok (h₂.reads _ _), bind_of_ok (h₁.reads _ _),
    bind_of_ok (h₀.reads _ _)]

namespace ReadsCode

variable {ds : List Char} {n : Nat}

/-- A code outside the surrogates is read as its character, whatever comes after it. -/
theorem readCodeEscape (h : ReadsCode ds n) (hn : n < 0xD800 ∨ 0xE000 ≤ n) (offset : Nat)
    (rest : List UInt8) :
    readCodeEscape ⟨offset, encode ds ++ rest⟩ = .ok (Char.ofNat n, ⟨offset + 4, rest⟩) := by
  have hbelow := h.below
  rw [DocPath.readCodeEscape, bind_of_ok (h.reads offset rest)]
  dsimp only
  rw [if_neg (by omega), charOrReplacement, if_pos (by omega)]

theorem unquotes {quote : UInt8} (hquote : byteOf '\\' ≠ quote) (h : ReadsCode ds n)
    (hn : n < 0xD800 ∨ 0xE000 ≤ n) :
    Unquotes quote (encode ('\\' :: 'u' :: ds)) (encodeChar (Char.ofNat n)) := by
  change Unquotes quote (byteOf '\\' :: byteOf 'u' :: encode ds) _
  refine .escape hquote fun offset rest => ?_
  rw [List.length_cons, h.length]
  exact bind_of_ok (h.readCodeEscape hn (offset + 1) rest)

end ReadsCode

/-- A character below the surrogates is read back from its code. -/
theorem unquotes_codeEscape {quote : UInt8} (hquote : byteOf '\\' ≠ quote) {ch : Char}
    (h : ch.toNat < 0xD800) :
    Unquotes quote (encode (Text.Quoted.codeEscape ch.toNat)) (encodeChar ch) := by
  have hcode := (readsHex_hexDigit (ch.toNat / 4096)).code (readsHex_hexDigit (ch.toNat / 256))
    (readsHex_hexDigit (ch.toNat / 16)) (readsHex_hexDigit ch.toNat)
  have value : ((ch.toNat / 4096 % 16 * 16 + ch.toNat / 256 % 16) * 16 + ch.toNat / 16 % 16) * 16 +
      ch.toNat % 16 = ch.toNat := by
    omega
  rw [value] at hcode
  have hchar := hcode.unquotes hquote (Or.inl h)
  rwa [Char.ofNat_toNat] at hchar

/-- A byte of ASCII occurs in its own character only. -/
theorem eq_of_byteOf_mem {ch d : Char} (hd : d.toNat ≤ 127) (h : byteOf d ∈ encodeChar ch) :
    ch = d := by
  have hbyte : (byteOf d).toNat = d.toNat :=
    UInt8.toNat_ofNat_of_lt' (Nat.lt_of_le_of_lt hd (by decide))
  by_cases hc : ch.toNat ≤ 127
  · rw [encodeChar_of_one hc] at h
    have hnat := congrArg UInt8.toNat (List.mem_singleton.mp h)
    rw [hbyte, UInt8.toNat_ofNat_of_lt' (Nat.lt_of_le_of_lt hc (by decide))] at hnat
    exact (Char.toNat_inj.mp hnat).symm
  · have := le_of_mem_encodeChar (Nat.not_le.mp hc) h
    omega

section quoted

variable {quote : Char}

/-- A character that is neither the quote nor a backslash stands for itself. -/
theorem unquotes_plain {ch : Char} (hq : quote.toNat ≤ 127) (hquote : ch ≠ quote)
    (hbackslash : ch ≠ '\\') :
    Unquotes (byteOf quote) (encode [ch]) (encodeChar ch) := by
  have plain : encode [ch] = encodeChar ch := List.append_nil _
  rw [plain]
  refine .bytes fun b hb => ⟨?_, ?_⟩
  · rintro rfl
    exact hquote (eq_of_byteOf_mem hq hb)
  · rintro rfl
    exact hbackslash (eq_of_byteOf_mem (by decide) hb)

/-- The written form of a character between quotes stands for that character. -/
theorem unquotes_escape (hq : quote = '\'' ∨ quote = '"') (ch : Char) :
    Unquotes (byteOf quote) (encode (Text.Quoted.escape quote ch)) (encodeChar ch) := by
  have ascii : quote.toNat ≤ 127 := by rcases hq with rfl | rfl <;> decide
  have hbyte : byteOf '\\' ≠ byteOf quote := by rcases hq with rfl | rfl <;> decide
  rw [Text.Quoted.escape]
  split_ifs with hb ht hn hf hr hbackslash hmark hquote hcode
  · subst hb
    exact .escape hbyte fun _ _ => rfl
  · subst ht
    exact .escape hbyte fun _ _ => rfl
  · subst hn
    exact .escape hbyte fun _ _ => rfl
  · subst hf
    exact .escape hbyte fun _ _ => rfl
  · subst hr
    exact .escape hbyte fun _ _ => rfl
  · subst hbackslash
    exact .escape hbyte fun _ _ => rfl
  · subst hquote
    refine .escape hbyte fun _ _ => ?_
    rcases hq with rfl | rfl <;> rfl
  · exact unquotes_plain ascii hquote hbackslash
  · refine unquotes_codeEscape hbyte ?_
    have below : '\u2028'.toNat = 8232 ∧ '\u2029'.toNat = 8233 := ⟨rfl, rfl⟩
    rcases hcode with h | rfl | rfl <;> omega
  · refine unquotes_plain ascii ?_ hbackslash
    rintro rfl
    exact hmark (hq.elim (Or.inr ∘ Or.inl) Or.inl)

theorem unquotes_name (hq : quote = '\'' ∨ quote = '"') (cs : List Char) :
    Unquotes (byteOf quote) (encode (cs.flatMap (Text.Quoted.escape quote))) (encode cs) := by
  induction cs with
  | nil => exact .nil
  | cons ch cs ih =>
    rw [List.flatMap_cons, encode_append, encode_cons]
    exact (unquotes_escape hq ch).append ih

theorem encode_write (hq : quote = '\'' ∨ quote = '"') (cs : List Char) (bs : List UInt8) :
    encode (Text.Quoted.write quote cs) ++ bs =
      byteOf quote :: (encode (cs.flatMap (Text.Quoted.escape quote)) ++ byteOf quote :: bs) := by
  rw [Text.Quoted.write_eq, encode_cons, encode_append, List.append_assoc, List.append_assoc]
  rcases hq with rfl | rfl <;> rfl

/-- A quoted name is read back up to its closing quote. -/
theorem readQuoted_write (hq : quote = '\'' ∨ quote = '"') (name : String) (offset : Nat)
    (rest : List UInt8) :
    ∃ offset', readQuoted (byteOf quote)
      ⟨offset, encode (name.toList.flatMap (Text.Quoted.escape quote)) ++ byteOf quote :: rest⟩ =
        .ok (name, ⟨offset', rest⟩) := by
  have hread := (unquotes_name hq name.toList).readQuoted offset rest
  rw [decodeString_encode] at hread
  exact ⟨_, hread⟩

end quoted

end DocPath
