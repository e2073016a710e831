import DocPath.Path.Literal
import DocPath.Proofs.Decimal.Layout
import DocPath.Proofs.Path.RoundTrip

/-!
# Numbers that are read as they were written

The text of an integer of 64 bits is read back, and so is the text of a finite double from which
the double can be computed. What follows must not go on with a number.
-/

namespace DocPath

open Text.Utf8

variable {offset : Nat} {rest : List UInt8}

namespace Decimal

/-- Digits without a sign are read as what they denote. -/
theorem readInt64_unsigned {ds : List Char} (hne : ds ≠ []) (hds : ∀ d ∈ ds, d.isDigit)
    (h : digitsValue 0 ds < Nat.pow 2 63) :
    readInt64 ds = .ok (Int64.ofInt (digitsValue 0 ds)) := by
  obtain ⟨d, ds, rfl⟩ := List.exists_cons_of_ne_nil hne
  have hd : d ≠ '-' := by
    rintro rfl
    cases hds '-' List.mem_cons_self
  have hall : (d :: ds).all Char.isDigit := List.all_eq_true.mpr hds
  unfold readInt64
  simp [hd, h, -List.all_cons, hall]

theorem readInt64_minus {ds : List Char} (hne : ds ≠ []) (hds : ∀ d ∈ ds, d.isDigit)
    (h : digitsValue 0 ds ≤ Nat.pow 2 63) :
    readInt64 ('-' :: ds) = .ok (Int64.ofInt (-(digitsValue 0 ds : Int))) := by
  have hall : ds.all Char.isDigit := List.all_eq_true.mpr hds
  unfold readInt64
  simp [hne, h, hall]

/-- An integer of 64 bits is read from its text. -/
theorem readInt64_writeInt (i : Int64) : readInt64 (writeInt i.toInt) = .ok i := by
  have limits : Int64.minValue.toInt = -2 ^ 63 ∧ Int64.maxValue.toInt = 2 ^ 63 - 1 := ⟨rfl, rfl⟩
  have hlow : -2 ^ 63 ≤ i.toInt := limits.1 ▸ i.minValue_le_toInt
  have hhigh : i.toInt ≤ 2 ^ 63 - 1 := limits.2 ▸ i.toInt_le
  have hne := natDigits_ne_nil i.toInt.natAbs
  have hds := isDigit_of_mem_natDigits i.toInt.natAbs
  have value := digitsValue_natDigits i.toInt.natAbs
  rw [writeInt]
  split
  · rw [readInt64_minus hne hds (by rw [value, Nat.pow_eq]; omega), value,
      show -(i.toInt.natAbs : Int) = i.toInt by omega, Int64.ofInt_toInt]
  · rw [readInt64_unsigned hne hds (by rw [value, Nat.pow_eq]; omega), value,
      show (i.toInt.natAbs : Int) = i.toInt by omega, Int64.ofInt_toInt]

end Decimal

@[simp] theorem Cursor.skip_one (offset : Nat) (b : UInt8) (bs : List UInt8) :
    (⟨offset, b :: bs⟩ : Cursor).skip 1 = ⟨offset + 1, bs⟩ := rfl

theorem charOf_byteOf {c : Char} (h : c.toNat ≤ 127) : charOf (byteOf c) = c := by
  have htoNat : (byteOf c).toNat = c.toNat :=
    UInt8.toNat_ofNat_of_lt' (Nat.lt_of_le_of_lt h (by decide))
  rw [charOf, htoNat, Char.ofNat_toNat]

/-- Text in ASCII is known from its bytes. -/
theorem map_charOf_encode {cs : List Char} (h : ∀ c ∈ cs, c.toNat ≤ 127) :
    (encode cs).map charOf = cs := by
  induction cs with
  | nil => rfl
  | cons c cs ih =>
    obtain ⟨hc, htail⟩ := List.forall_mem_cons.mp h
    rw [encode_cons_ascii hc, List.map_cons, charOf_byteOf hc, ih htail]

theorem toNat_le_of_isDigit {c : Char} (h : c.isDigit) : c.toNat ≤ 127 := by
  obtain ⟨d, hd, rfl⟩ := Decimal.exists_digitChar h
  rw [Decimal.digitChar_toNat hd]
  omega

theorem isDigitByte_byteOf {c : Char} (h : c.isDigit) : isDigitByte (byteOf c) := by
  obtain ⟨d, hd, rfl⟩ := Decimal.exists_digitChar h
  interval_cases d <;> rfl

theorem toNat_le_of_mem_writeInt (i : Int) : ∀ c ∈ Decimal.writeInt i, c.toNat ≤ 127 := by
  have hdigits : ∀ c ∈ Decimal.natDigits i.natAbs, c.toNat ≤ 127 := fun c hc =>
    toNat_le_of_isDigit (Decimal.isDigit_of_mem_natDigits _ c hc)
  rw [Decimal.writeInt]
  split
  · exact List.forall_mem_cons.mpr ⟨by decide, hdigits⟩
  · exact hdigits

theorem map_charOf_digits {ds : List Char} (h : ∀ d ∈ ds, d.isDigit) :
    (encode ds).map charOf = ds :=
  map_charOf_encode fun d hd => toNat_le_of_isDigit (h d hd)

/-- The text of an integer is a byte with digits after it. -/
theorem encode_writeInt_digits (i : Int) :
    ∃ b bs, encode (Decimal.writeInt i) = b :: bs ∧ beginsInt b ∧ (∀ d ∈ bs, isDigitByte d) ∧
      (b :: bs).map charOf = Decimal.writeInt i := by
  have hmap := map_charOf_digits (Decimal.isDigit_of_mem_natDigits i.natAbs)
  have hall := isDigitByte_of_mem_natDigits i.natAbs
  rw [Decimal.writeInt]
  split
  · exact ⟨byteOf '-', _, encode_cons _ _, rfl, hall, congrArg ('-' :: ·) hmap⟩
  · obtain ⟨d, ds, hds⟩ := List.exists_cons_of_ne_nil (natDigits_ne_nil i.natAbs)
    rw [hds] at hall hmap
    obtain ⟨hd, hall⟩ := List.forall_mem_cons.mp hall
    exact ⟨d, ds, hds, by simp [beginsInt, hd], hall, hmap⟩

/-- What follows ends a number: no digit, point or exponent. -/
def EndsNumeral (rest : List UInt8) : Prop :=
  ∀ b ∈ rest.head?, isDigitByte b = false ∧ b ≠ byteOf '.' ∧ b ≠ byteOf 'e' ∧ b ≠ byteOf 'E'

/-- What follows may be the exponent of a number, but no digit or fraction of it. -/
def EndsFraction (rest : List UInt8) : Prop :=
  ∀ b ∈ rest.head?, isDigitByte b = false ∧ b ≠ byteOf '.'

theorem EndsNumeral.endsFraction (h : EndsNumeral rest) : EndsFraction rest :=
  fun b hb => ⟨(h b hb).1, (h b hb).2.1⟩

theorem readFraction_of_endsFraction (h : EndsFraction rest) (offset : Nat) :
    readFraction ⟨offset, rest⟩ = ([], ⟨offset, rest⟩) := by
  cases rest with
  | nil => rfl
  | cons b rest =>
    simp only [readFraction, Cursor.peek?, List.head?_cons, (h b rfl).2, if_false]

theorem readExponent_of_endsNumeral (h : EndsNumeral rest) (offset : Nat) :
    readExponent ⟨offset, rest⟩ = .ok ([], ⟨offset, rest⟩) := by
  cases rest with
  | nil => rfl
  | cons b rest =>
    obtain ⟨-, -, he, hE⟩ := h b rfl
    simp only [readExponent, Cursor.peek?, List.head?_cons, he, hE, or_self, if_false]

/-- An integer is read up to what ends it. -/
theorem readNumber_writeInt (i : Int64) (hrest : EndsNumeral rest) (offset : Nat) :
    ∃ offset', readNumber ⟨offset, encode (Decimal.writeInt i.toInt) ++ rest⟩ =
      .ok (.int i, ⟨offset', rest⟩) := by
  obtain ⟨b, bs, htext, -, hbs, hmap⟩ := encode_writeInt_digits i.toInt
  have htake := Cursor.takeWhile_append hbs (fun b hb => (hrest b hb).1) (offset + 1)
  have fraction := readFraction_of_endsFraction hrest.endsFraction (offset + 1 + bs.length)
  have exponent := readExponent_of_endsNumeral hrest (offset + 1 + bs.length)
  have value := Decimal.readInt64_writeInt i
  rw [← hmap, List.map_cons] at value
  refine ⟨offset + 1 + bs.length, ?_⟩
  rw [htext, List.cons_append, readNumber]
  simp only [Cursor.skip_one, List.take_succ_cons, List.take_zero, htake, fraction]
  simp [exponent, bind, Except.bind, value]

namespace Decimal

theorem FloatTail.toNat_le {first : Char} {cs whole fraction exponent : List Char}
    (h : FloatTail cs whole fraction exponent) (hfirst : first = '-' ∨ first.isDigit) :
    ∀ c ∈ first :: cs, c.toNat ≤ 127 := by
  have digits : ∀ {ds : List Char}, (∀ d ∈ ds, d.isDigit) → ∀ d ∈ ds, d.toNat ≤ 127 :=
    fun hds d hd => toNat_le_of_isDigit (hds d hd)
  rw [h.text]
  refine List.forall_mem_cons.mpr ⟨?_, List.forall_mem_append.mpr ⟨digits h.isDigit,
    List.forall_mem_append.mpr ⟨?_, ?_⟩⟩⟩
  · rcases hfirst with rfl | hfirst
    · decide
    · exact toNat_le_of_isDigit hfirst
  · rcases h.isFraction with hnil | ⟨ds, hds, hdigits⟩
    · simp [hnil]
    · rw [hds]
      exact List.forall_mem_cons.mpr ⟨by decide, digits hdigits⟩
  · rcases h.isExponent with hnil | ⟨i, hi⟩
    · simp [hnil]
    · rw [hi]
      exact List.forall_mem_cons.mpr ⟨by decide, toNat_le_of_mem_writeInt i⟩

end Decimal

open Decimal (IsFraction IsExponent)

theorem endsFraction_exponent {cs : List Char} (h : IsExponent cs) (hrest : EndsNumeral rest) :
    EndsFraction (encode cs ++ rest) := by
  rcases h with rfl | ⟨i, rfl⟩
  · exact hrest.endsFraction
  · rw [encode_cons_ascii (by decide)]
    rintro _ ⟨⟩
    decide

theorem notDigit_fraction {cs : List Char} (h : IsFraction cs) (hrest : EndsFraction rest) :
    ∀ b ∈ (encode cs ++ rest).head?, isDigitByte b = false := by
  rcases h with rfl | ⟨ds, rfl, -⟩
  · exact fun b hb => (hrest b hb).1
  · rw [encode_cons_ascii (by decide)]
    rintro _ ⟨⟩
    rfl

theorem readFraction_write {cs : List Char} (h : IsFraction cs) (hrest : EndsFraction rest)
    (offset : Nat) :
    ∃ offset', readFraction ⟨offset, encode cs ++ rest⟩ = (encode cs, ⟨offset', rest⟩) := by
  rcases h with rfl | ⟨ds, rfl, hds⟩
  · exact ⟨offset, readFraction_of_endsFraction hrest offset⟩
  · have htake := Cursor.takeWhile_append (isDigitByte_of_mem_encode hds)
      (fun b hb => (hrest b hb).1) (offset + 1)
    refine ⟨offset + 1 + (encode ds).length, ?_⟩
    rw [encode_cons_ascii (by decide), List.cons_append, readFraction]
    simp only [Cursor.peek?, List.head?_cons, if_true, Cursor.skip_one, htake]

/-- The sign of an exponent is read back with the digits after it. -/
theorem readSign_write (i : Int) (hrest : EndsNumeral rest) (offset : Nat) :
    ∃ sign digits offset₁ offset₂, encode (Decimal.writeInt i) = sign ++ digits ∧ digits ≠ [] ∧
      readSign ⟨offset, encode (Decimal.writeInt i) ++ rest⟩ = (sign, ⟨offset₁, digits ++ rest⟩) ∧
      (⟨offset₁, digits ++ rest⟩ : Cursor).takeWhile isDigitByte = (digits, ⟨offset₂, rest⟩) := by
  have hall := isDigitByte_of_mem_natDigits i.natAbs
  obtain ⟨d, ds, hds⟩ := List.exists_cons_of_ne_nil (natDigits_ne_nil i.natAbs)
  rw [hds] at hall
  have htake := Cursor.takeWhile_append hall (fun b hb => (hrest b hb).1)
  rw [Decimal.writeInt]
  split
  · rw [encode_cons_ascii (by decide), hds]
    exact ⟨[byteOf '-'], d :: ds, offset + 1, _, rfl, List.cons_ne_nil _ _, rfl, htake _⟩
  · have hd := hall d List.mem_cons_self
    have hsign : ¬(d = byteOf '+' ∨ d = byteOf '-') := by
      rintro (rfl | rfl) <;> cases hd
    rw [hds]
    refine ⟨[], d :: ds, offset, _, rfl, List.cons_ne_nil _ _, ?_, htake _⟩
    simp only [readSign, List.cons_append, Cursor.peek?, List.head?_cons, hsign, if_false]

theorem readExponent_write {cs : List Char} (h : IsExponent cs) (hrest : EndsNumeral rest)
    (offset : Nat) :
    ∃ offset', readExponent ⟨offset, encode cs ++ rest⟩ = .ok (encode cs, ⟨offset', rest⟩) := by
  rcases h with rfl | ⟨i, rfl⟩
  · exact ⟨offset, readExponent_of_endsNumeral hrest offset⟩
  · obtain ⟨sign, digits, offset₁, offset₂, htext, hne, hsign, htake⟩ :=
      readSign_write i hrest (offset + 1)
    refine ⟨offset₂, ?_⟩
    rw [encode_cons_ascii (by decide), List.cons_append, readExponent]
    simp only [Cursor.peek?, List.head?_cons, true_or, if_true, Cursor.skip_one, hsign, htake,
      List.isEmpty_eq_false_iff.mpr hne, Bool.false_eq_true, if_false]
    rw [htext, List.cons_append]

/-- A finite double is read up to what ends it, if its text denotes it. -/
theorem readNumber_writeFloat {x : Float} (hfinite : x.isFinite)
    (hvalue : Decimal.readFloat? (Decimal.writeFloat x) = some x) :
    ∃ b bs, encode (Decimal.writeFloat x) = b :: bs ∧ beginsInt b ∧
      ∀ rest, EndsNumeral rest → ∀ offset, ∃ offset', readNumber ⟨offset, b :: (bs ++ rest)⟩ =
        .ok (.float x, ⟨offset', rest⟩) := by
  obtain ⟨first, tail, whole, fraction, exponent, htext, hfirst, htail⟩ :=
    Decimal.writeFloat_of_isFinite hfinite
  have hascii := htail.toNat_le hfirst
  have hmap := map_charOf_encode hascii
  have hbytes : encode (first :: tail) =
      byteOf first :: (encode whole ++ encode fraction ++ encode exponent) := by
    rw [encode_cons_ascii (hascii first List.mem_cons_self), htail.text, encode_append,
      encode_append, List.append_assoc]
  have hnumber : ¬((encode fraction).isEmpty ∧ (encode exponent).isEmpty) := by
    rw [List.isEmpty_iff, List.isEmpty_iff]
    rintro ⟨hf, he⟩
    exact htail.noInteger.elim (encode_ne_nil · hf) (encode_ne_nil · he)
  rw [htext] at hvalue ⊢
  rw [hbytes] at hmap ⊢
  refine ⟨byteOf first, _, rfl, ?_, fun rest hrest offset => ?_⟩
  · rcases hfirst with rfl | hdigit
    · rfl
    · simp [beginsInt, isDigitByte_byteOf hdigit]
  have hends := endsFraction_exponent htail.isExponent hrest
  have htake := Cursor.takeWhile_append (isDigitByte_of_mem_encode htail.isDigit)
    (notDigit_fraction htail.isFraction hends) (offset + 1)
  obtain ⟨offset₁, hfraction⟩ := readFraction_write htail.isFraction hends
    (offset + 1 + (encode whole).length)
  obtain ⟨offset₂, hexponent⟩ := readExponent_write htail.isExponent hrest offset₁
  refine ⟨offset₂, ?_⟩
  rw [List.append_assoc, List.append_assoc, readNumber]
  simp only [List.take_succ_cons, List.take_zero, Cursor.skip_one, htake, hfraction]
  rw [bind_of_ok hexponent]
  simp only [hnumber, if_false, List.cons_append, List.nil_append, hmap, hvalue]

end DocPath
