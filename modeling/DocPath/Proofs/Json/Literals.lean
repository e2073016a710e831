import DocPath.Json.Reader
import DocPath.Proofs.Decimal.Digits
import DocPath.Text.Quoted

/-!
# JSON literals that are read as they were written

The characters of strings and the integers, with whatever comes after them. The end of a number is
told by what follows it.
-/

namespace DocPath.Json

variable {cs rest : List Char}

theorem hexValue?_hexDigit (n : Nat) : hexValue? (Text.Quoted.hexDigit n) = some (n % 16) := by
  rw [Text.Quoted.hexDigit]
  have hn : n % 16 < 16 := Nat.mod_lt n (by decide)
  generalize n % 16 = d at hn
  interval_cases d <;> rfl

/-- The digits of an escape by code, below 2^16, have that code for their value. -/
theorem hexValue4?_codeEscape {n : Nat} (h : n < 0x10000) :
    hexValue4? (Text.Quoted.hexDigit (n / 4096)) (Text.Quoted.hexDigit (n / 256))
      (Text.Quoted.hexDigit (n / 16)) (Text.Quoted.hexDigit n) = some n := by
  have code : ((n / 4096 % 16 * 16 + n / 256 % 16) * 16 + n / 16 % 16) * 16 + n % 16 = n := by
    omega
  simp only [hexValue4?, hexValue?_hexDigit, Option.bind_eq_bind, Option.bind_some, code]

/-- Text that stands for one character of a string whatever comes after it. -/
def Spells (text : List Char) (c : Char) : Prop :=
  ∀ rest, readString? (text ++ rest) = (readString? rest).map fun p => (c :: p.1, p.2)

theorem spells_short {mark c : Char} (hmark : mark ≠ 'u') (h : shortEscape? mark = some c) :
    Spells ['\\', mark] c := by
  intro rest
  rw [List.cons_append, List.singleton_append, readString?]
  · rw [h]
    cases readString? rest <;> rfl
  · exact fun _ _ _ _ _ h _ => hmark h

variable {d₃ d₂ d₁ d₀ e₃ e₂ e₁ e₀ : Char} {n high low : Nat}

/-- The code of a character outside the surrogates. -/
theorem spells_hex (h : hexValue4? d₃ d₂ d₁ d₀ = some n) (hn : n < 0xD800 ∨ 0xE000 ≤ n) :
    Spells ['\\', 'u', d₃, d₂, d₁, d₀] (Char.ofNat n) := by
  intro rest
  simp only [List.cons_append, List.nil_append]
  rw [readString?, h]
  simp only [Option.bind_eq_bind, Option.bind_some]
  rw [if_neg (by omega), if_neg (by omega)]
  cases readString? rest <;> rfl

theorem spells_pair (h : hexValue4? d₃ d₂ d₁ d₀ = some high)
    (h' : hexValue4? e₃ e₂ e₁ e₀ = some low) (hhigh : 0xD800 ≤ high ∧ high < 0xDC00)
    (hlow : 0xDC00 ≤ low ∧ low < 0xE000) :
    Spells ['\\', 'u', d₃, d₂, d₁, d₀, '\\', 'u', e₃, e₂, e₁, e₀]
      (Char.ofNat (0x10000 + (high - 0xD800) * 1024 + (low - 0xDC00))) := by
  intro rest
  simp only [List.cons_append, List.nil_append]
  rw [readString?, h]
  simp only [Option.bind_eq_bind, Option.bind_some, if_pos hhigh, h', if_pos hlow]
  cases readString? rest <;> rfl

theorem spells_plain {c : Char} (hquote : c ≠ '"') (hbackslash : c ≠ '\\')
    (hcontrol : 32 ≤ c.toNat) : Spells [c] c := by
  intro rest
  rw [List.singleton_append, readString?]
  · rw [guard, if_pos ⟨hcontrol, hbackslash⟩]
    cases readString? rest <;> rfl
  all_goals simp_all

/-- What may follow a number that has neither point nor exponent. -/
def EndsNumber (rest : List Char) : Prop :=
  ∀ c ∈ rest.head?, c.isDigit = false ∧ c ≠ '.' ∧ c ≠ 'e' ∧ c ≠ 'E'

theorem EndsNumber.nil : EndsNumber [] := nofun

theorem EndsNumber.cons {c : Char} (h : c.isDigit = false ∧ c ≠ '.' ∧ c ≠ 'e' ∧ c ≠ 'E') :
    EndsNumber (c :: rest) := by
  rintro _ ⟨⟩
  exact h

namespace Number

/-- Digits are split from what ends them. -/
theorem split_digits {ds : List Char} (hds : ∀ c ∈ ds, c.isDigit) (hrest : EndsNumber rest) :
    (ds ++ rest).takeWhile Char.isDigit = ds ∧ (ds ++ rest).dropWhile Char.isDigit = rest := by
  have stops : rest.takeWhile Char.isDigit = [] ∧ rest.dropWhile Char.isDigit = rest := by
    cases rest with
    | nil => exact ⟨rfl, rfl⟩
    | cons c rest =>
      have hc : c.isDigit = false := (hrest c rfl).1
      exact ⟨List.takeWhile_cons_of_neg (by simp [hc]), List.dropWhile_cons_of_neg (by simp [hc])⟩
  constructor
  · rw [List.takeWhile_append_of_pos hds, stops.1, List.append_nil]
  · rw [List.dropWhile_append_of_pos hds, stops.2]

/-- A digit below a number's limit is gathered. -/
theorem gather_digit {n : Nat} (h : n < Nat.pow 2 64) (more : List Char) :
    gather (n / 10) (Nat.digitChar (n % 10) :: more) = gather n more := by
  have hdigit : 10 * (n / 10) + ((Nat.digitChar (n % 10)).toNat - 48) = n := by
    rw [Decimal.digitChar_toNat (Nat.mod_lt n (by decide))]
    omega
  rw [gather, hdigit]
  exact if_pos h

theorem gather_natDigits {n : Nat} (h : n < Nat.pow 2 64) (more : List Char) :
    gather 0 (Decimal.natDigits n ++ more) = gather n more := by
  induction n using Nat.strongRecOn generalizing more with
  | ind n ih =>
    rw [Decimal.natDigits_eq, List.append_assoc, List.singleton_append]
    by_cases hn : n < 10
    · have hzero : n / 10 = 0 := Nat.div_eq_of_lt hn
      have hgather := gather_digit h more
      rw [hzero] at hgather
      rw [if_pos hn, List.nil_append, hgather]
    · rw [if_neg hn, ih (n / 10) (by omega) (by omega), gather_digit h]

def integer (negative : Bool) (n : Nat) : Parts := ⟨negative, Decimal.natDigits n, none, none⟩

theorem length_natDigits_of_head {n : Nat} (h : (Decimal.natDigits n).head? = some '0') :
    (Decimal.natDigits n).length = 1 := by
  have hn : n = 0 := by
    by_contra hn
    exact Decimal.head_natDigits_ne hn h
  rw [hn]
  rfl

theorem splitMinus_natDigits (negative : Bool) (n : Nat) (rest : List Char) :
    splitMinus ((if negative then ['-'] else []) ++ (Decimal.natDigits n ++ rest)) =
      (negative, Decimal.natDigits n ++ rest) := by
  cases negative with
  | true => rfl
  | false =>
    obtain ⟨d, ds, hds⟩ := List.exists_cons_of_ne_nil (Decimal.natDigits_ne_nil n)
    have hd : d.isDigit := Decimal.isDigit_of_mem_natDigits n d (by simp [hds])
    simp only [Bool.false_eq_true, if_false, List.nil_append, hds, List.cons_append]
    rw [splitMinus]
    rintro _ h
    cases h
    cases hd

theorem readFraction?_of_endsNumber (h : EndsNumber rest) :
    readFraction? rest = some (none, rest) := by
  rw [readFraction?]
  rintro more rfl
  exact (h _ rfl).2.1 rfl

theorem readExponent?_of_endsNumber (h : EndsNumber rest) :
    readExponent? rest = some (none, rest) := by
  rw [readExponent?]
  · rintro more rfl
    exact (h _ rfl).2.2.1 rfl
  · rintro more rfl
    exact (h _ rfl).2.2.2 rfl

/-- An integer is read up to what ends it. -/
theorem read?_integer (negative : Bool) (n : Nat) (hrest : EndsNumber rest) :
    Parts.read? ((if negative then ['-'] else []) ++ (Decimal.natDigits n ++ rest)) =
      some (integer negative n, rest) := by
  obtain ⟨htake, hdrop⟩ := split_digits (Decimal.isDigit_of_mem_natDigits n) hrest
  have hguard : Decimal.natDigits n ≠ [] ∧
      ((Decimal.natDigits n).head? = some '0' → (Decimal.natDigits n).length = 1) :=
    ⟨Decimal.natDigits_ne_nil n, length_natDigits_of_head⟩
  simp only [Parts.read?, splitMinus_natDigits, htake, hdrop, guard, if_pos hguard,
    readFraction?_of_endsNumber hrest, Option.pure_def, Option.bind_eq_bind, Option.bind_some,
    readExponent?_of_endsNumber hrest, integer]

/-- What an integer of 64 bits is read as. -/
theorem value?_integer (i : Int64) :
    (integer (i.toInt < 0) i.toInt.natAbs).value? = some (.int i) := by
  have limits : Int64.minValue.toInt = -2 ^ 63 ∧ Int64.maxValue.toInt = 2 ^ 63 - 1 := ⟨rfl, rfl⟩
  have hlow : -2 ^ 63 ≤ i.toInt := limits.1 ▸ i.minValue_le_toInt
  have hhigh : i.toInt ≤ 2 ^ 63 - 1 := limits.2 ▸ i.toInt_le
  have hgather : gather 0 (Decimal.natDigits i.toInt.natAbs) = (i.toInt.natAbs, []) := by
    have h := gather_natDigits (n := i.toInt.natAbs) (by rw [Nat.pow_eq]; omega) []
    rwa [List.append_nil] at h
  simp only [Parts.value?, integer, hgather, List.isEmpty_nil, Option.isNone_none, and_self,
    if_true, Nat.pow_eq]
  by_cases hneg : i.toInt < 0
  · rw [if_pos (decide_eq_true hneg), if_neg (by omega),
      show -(i.toInt.natAbs : Int) = i.toInt by omega, Int64.ofInt_toInt]
  · rw [if_neg (by simpa using hneg), if_pos (by omega),
      show (i.toInt.natAbs : Int) = i.toInt by omega, Int64.ofInt_toInt]

end Number
end DocPath.Json
