import DocPath.Proofs.Decimal.Digits

/-!
# The text of a float

The text of a finite double is that of a number with a point or an exponent, so that it is never
taken for an integer. Nothing is said here of the number that it denotes.
-/

namespace DocPath.Decimal

open Float.Model (UnpackedFloat)

def IsFraction (cs : List Char) : Prop := cs = [] ∨ ∃ ds, cs = '.' :: ds ∧ ∀ d ∈ ds, d.isDigit

/-- The mark of an exponent with an integer after it, or nothing. -/
def IsExponent (cs : List Char) : Prop := cs = [] ∨ ∃ i, cs = 'e' :: writeInt i

/-- What follows the sign or the first digit of a float: digits, a fraction and an exponent, of
which the last two are not both missing. -/
structure FloatTail (cs whole fraction exponent : List Char) : Prop where
  text : cs = whole ++ (fraction ++ exponent)
  isDigit : ∀ d ∈ whole, d.isDigit
  isFraction : IsFraction fraction
  isExponent : IsExponent exponent
  noInteger : fraction ≠ [] ∨ exponent ≠ []

def IsUnsigned (cs : List Char) : Prop :=
  ∃ d tail whole fraction exponent, cs = d :: tail ∧ d.isDigit ∧
    FloatTail tail whole fraction exponent

theorem isDigit_of_onGrid? {b : Binary} {n : Nat} {d : Digits} (h : b.onGrid? n = some d) :
    ∀ c ∈ d.digits, c.isDigit := by
  have pick : ∀ {m : Nat} {place : Int},
      some (⟨natDigits m, place⟩ : Digits) = some d → ∀ c ∈ d.digits, c.isDigit := by
    rintro m place ⟨⟩
    exact isDigit_of_mem_natDigits m
  unfold Binary.onGrid? at h
  extract_lets place up unit exact low high closed down above downFits aboveFits grid at h
  split at h
  · split at h
    · exact pick h
    · exact pick h
  · split at h
    · exact pick h
    · cases h

theorem isDigit_of_mem_digits (b : Binary) : ∀ c ∈ b.digits.digits, c.isDigit := by
  unfold Binary.digits
  cases h : (List.range 17).findSome? fun i => b.onGrid? (i + 1) with
  | none => exact isDigit_of_mem_natDigits 0
  | some d =>
    obtain ⟨i, -, hi⟩ := List.exists_of_findSome?_eq_some h
    exact isDigit_of_onGrid? hi

theorem isDigit_of_mem_dropTrailingZeros {ds : List Char} (h : ∀ c ∈ ds, c.isDigit) :
    ∀ c ∈ dropTrailingZeros ds, c.isDigit := by
  intro c hc
  rw [dropTrailingZeros, List.mem_reverse] at hc
  exact h c (List.mem_reverse.mp ((List.dropWhile_suffix _).mem hc))

theorem isDigit_of_mem_zeros {n : Nat} : ∀ c ∈ List.replicate n '0', c.isDigit := by
  intro c hc
  rw [List.eq_of_mem_replicate hc]
  rfl

theorem toList_toString_int (i : Int) : (toString i).toList = writeInt i := by
  rw [Int.toString_eq_repr]
  cases i with
  | ofNat n => simp [Int.repr, writeInt, natDigits]
  | negSucc n => simp [Int.repr, writeInt, natDigits, Int.negSucc_lt_zero]

theorem isDigit_of_mem_zero : ∀ c ∈ ['0'], c.isDigit := List.forall_mem_singleton.mpr rfl

/-- Digits with a point among them. -/
theorem isUnsigned_point {whole ds : List Char} (hne : whole ≠ []) (hwhole : ∀ d ∈ whole, d.isDigit)
    (hds : ∀ d ∈ ds, d.isDigit) : IsUnsigned (whole ++ '.' :: ds) := by
  obtain ⟨d, whole, rfl⟩ := List.exists_cons_of_ne_nil hne
  obtain ⟨hd, hwhole⟩ := List.forall_mem_cons.mp hwhole
  exact ⟨d, _, whole, '.' :: ds, [], rfl, hd, (List.append_nil _).symm ▸ rfl, hwhole,
    .inr ⟨ds, rfl, hds⟩, .inl rfl, .inl (List.cons_ne_nil _ _)⟩

theorem isUnsigned_exponent {d : Char} (hd : d.isDigit) {fraction : List Char}
    (hfraction : IsFraction fraction) (i : Int) :
    IsUnsigned (d :: (fraction ++ 'e' :: (toString i).toList)) :=
  ⟨d, _, [], fraction, _, rfl, hd, rfl, nofun, hfraction, .inr ⟨i, by rw [toList_toString_int]⟩,
    .inr (List.cons_ne_nil _ _)⟩

theorem isUnsigned_layout {d : Digits} (h : ∀ c ∈ d.digits, c.isDigit) : IsUnsigned (layout d) := by
  have hds := isDigit_of_mem_dropTrailingZeros h
  unfold layout
  dsimp only
  generalize dropTrailingZeros d.digits = ds at hds ⊢
  split
  · split
    · exact isUnsigned_point (List.cons_ne_nil '0' []) isDigit_of_mem_zero
        (List.forall_mem_append.mpr ⟨isDigit_of_mem_zeros, hds⟩)
    · rename_i hpoint
      refine isUnsigned_point ?_ (List.forall_mem_append.mpr
        ⟨fun c hc => hds c (List.mem_of_mem_take hc), isDigit_of_mem_zeros⟩) ?_
      · -- as many digits as the point asks for, which is one at least
        refine List.ne_nil_of_length_pos ?_
        rw [List.length_append, List.length_take, List.length_replicate]
        omega
      · split
        · exact isDigit_of_mem_zero
        · exact fun c hc => hds c (List.mem_of_mem_drop hc)
  · match ds, hds with
    | [], _ =>
      exact isUnsigned_point (List.cons_ne_nil '0' []) isDigit_of_mem_zero isDigit_of_mem_zero
    | [c], hds => exact isUnsigned_exponent (hds c List.mem_cons_self) (.inl rfl) _
    | c :: c' :: cs, hds =>
      obtain ⟨hc, hcs⟩ := List.forall_mem_cons.mp hds
      exact isUnsigned_exponent hc (.inr ⟨c' :: cs, rfl, hcs⟩) _

theorem toNat_unpackExponent (bits : BitVec Float.Model.Format.binary64.numBits) :
    (UnpackedFloat.unpackExponent bits).toNat = bits.toNat / 2 ^ 52 % 2 ^ 11 := by
  simp [UnpackedFloat.unpackExponent, BitVec.extractLsb_toNat, Nat.shiftRight_eq_div_pow]

/-- The exponent field of a finite double is not the largest one. -/
theorem magnitude_lt_of_isFinite {x : Float} (h : x.isFinite) :
    x.toBits.toNat % Nat.pow 2 63 < 2047 * Nat.pow 2 52 := by
  have hne : x.toBits.toNat / 2 ^ 52 % 2 ^ 11 ≠ 2047 := by
    intro heq
    let bits : BitVec Float.Model.Format.binary64.numBits := x.toBits.toBitVec
    have hfield : UnpackedFloat.unpackExponent bits =
        -BitVec.ofNat Float.Model.Format.binary64.exponentBits 1 := by
      refine BitVec.eq_of_toNat_eq ?_
      rw [toNat_unpackExponent]
      exact heq
    change (UnpackedFloat.unpack .binary64 bits).isFinite at h
    unfold UnpackedFloat.unpack at h
    dsimp only at h
    rw [if_pos hfield] at h
    split at h <;> cases h
  have hbits : x.toBits.toNat < 2 ^ 64 := x.toBits.toNat_lt
  simp only [Nat.pow_eq]
  omega

/-- The text of a finite double is a sign or a digit with the rest of a float after it. -/
theorem writeFloat_of_isFinite {x : Float} (h : x.isFinite) :
    ∃ first tail whole fraction exponent, writeFloat x = first :: tail ∧
      (first = '-' ∨ first.isDigit) ∧ FloatTail tail whole fraction exponent := by
  have hlt := magnitude_lt_of_isFinite h
  have body : IsUnsigned (if x.toBits.toNat % Nat.pow 2 63 = 0 then "0.0".toList
      else layout (Binary.ofFloat x).digits) := by
    split
    · exact isUnsigned_point (List.cons_ne_nil '0' []) isDigit_of_mem_zero isDigit_of_mem_zero
    · exact isUnsigned_layout (isDigit_of_mem_digits _)
  obtain ⟨d, tail, whole, fraction, exponent, htext, hd, htail⟩ := body
  unfold writeFloat
  dsimp only
  rw [if_neg (Nat.not_lt_of_lt hlt), if_neg (Nat.ne_of_lt hlt), htext]
  split
  · exact ⟨'-', d :: tail, d :: whole, fraction, exponent, rfl, .inl rfl,
      congrArg (d :: ·) htail.text, List.forall_mem_cons.mpr ⟨hd, htail.isDigit⟩,
      htail.isFraction, htail.isExponent, htail.noInteger⟩
  · exact ⟨d, tail, whole, fraction, exponent, rfl, .inr hd, htail⟩

end DocPath.Decimal
