import DocPath.Decimal.Literal
import DocPath.Decimal.Shortest
import Mathlib.Tactic.IntervalCases

/-!
# Decimal digits

The digits of a natural number are those of its tenth and then its last digit. What readers of
numbers need to know about them follows from that. Any digits denote a number that the next digit
multiplies by ten and adds to; those of a number denote it.
-/

namespace DocPath.Decimal

variable {d : Nat}

theorem digitChar_isDigit (h : d < 10) : (Nat.digitChar d).isDigit := by
  interval_cases d <;> rfl

theorem digitChar_toNat (h : d < 10) : (Nat.digitChar d).toNat = d + 48 := by
  interval_cases d <;> rfl

/-- The last digit of a number comes after those of its tenth. -/
theorem natDigits_eq (n : Nat) :
    natDigits n =
      (if n < 10 then [] else natDigits (n / 10)) ++ [Nat.digitChar (n % 10)] := by
  rw [natDigits, Nat.toDigits_eq_if (by decide)]
  split
  · rename_i h
    rw [Nat.mod_eq_of_lt h]
    rfl
  · rfl

theorem natDigits_ne_nil (n : Nat) : natDigits n ≠ [] := by
  rw [natDigits_eq]
  exact List.append_ne_nil_of_right_ne_nil _ (List.cons_ne_nil _ _)

theorem isDigit_of_mem_natDigits (n : Nat) : ∀ c ∈ natDigits n, c.isDigit := by
  induction n using Nat.strongRecOn with
  | ind n ih =>
    rw [natDigits_eq]
    intro c hc
    rcases List.mem_append.mp hc with hc | hc
    · split at hc
      · cases hc
      · exact ih (n / 10) (by omega) c hc
    · rw [List.mem_singleton.mp hc]
      exact digitChar_isDigit (Nat.mod_lt n (by decide))

/-- A number that is not zero has no leading zero. -/
theorem head_natDigits_ne {n : Nat} (h : n ≠ 0) : (natDigits n).head? ≠ some '0' := by
  induction n using Nat.strongRecOn with
  | ind n ih =>
    rw [natDigits_eq]
    by_cases hn : n < 10
    · rw [if_pos hn, Nat.mod_eq_of_lt hn]
      intro hzero
      have hnat := congrArg Char.toNat (Option.some.inj hzero)
      rw [digitChar_toNat hn] at hnat
      exact h (Nat.add_right_cancel hnat)
    · rw [if_neg hn, List.head?_append, Option.or_of_isSome]
      · exact ih (n / 10) (by omega) (by omega)
      · exact List.isSome_head?.mpr (natDigits_ne_nil _)

theorem exists_digitChar {c : Char} (h : c.isDigit) : ∃ d < 10, c = Nat.digitChar d := by
  have bounds := Bool.and_eq_true_iff.mp h
  have low : 48 ≤ c.toNat := of_decide_eq_true bounds.1
  have high : c.toNat ≤ 57 := of_decide_eq_true bounds.2
  have hd : c.toNat - 48 < 10 := by omega
  refine ⟨c.toNat - 48, hd, Char.toNat_inj.mp ?_⟩
  rw [digitChar_toNat hd, Nat.sub_add_cancel low]

theorem digitsValue_cons (h : d < 10) (start : Nat) (ds : List Char) :
    digitsValue start (Nat.digitChar d :: ds) = digitsValue (10 * start + d) ds := by
  rw [digitsValue, List.foldl_cons, digitChar_toNat h, Nat.add_sub_cancel]
  rfl

theorem digitsValue_append (start : Nat) (cs ds : List Char) :
    digitsValue start (cs ++ ds) = digitsValue (digitsValue start cs) ds :=
  List.foldl_append

theorem le_digitsValue (start : Nat) (ds : List Char) : start ≤ digitsValue start ds := by
  induction ds generalizing start with
  | nil => exact Nat.le_refl start
  | cons c ds ih => exact Nat.le_trans (by omega) (ih (10 * start + (c.toNat - 48)))

/-- The digits of a number denote it. -/
theorem digitsValue_natDigits (n : Nat) : digitsValue 0 (natDigits n) = n := by
  induction n using Nat.strongRecOn with
  | ind n ih =>
    have last : 10 * (n / 10) + ((Nat.digitChar (n % 10)).toNat - 48) = n := by
      rw [digitChar_toNat (Nat.mod_lt n (by decide))]
      omega
    rw [natDigits_eq, digitsValue_append]
    by_cases hn : n < 10
    · rw [Nat.div_eq_of_lt hn] at last
      rw [if_pos hn]
      exact last
    · rw [if_neg hn, ih (n / 10) (by omega)]
      exact last

theorem writeInt_eq (i : Int) :
    writeInt i = (if decide (i < 0) then ['-'] else []) ++ natDigits i.natAbs := by
  by_cases h : i < 0
  · rw [writeInt, if_pos h, if_pos (decide_eq_true h)]
    rfl
  · rw [writeInt, if_neg h, if_neg (by simpa using h)]
    rfl

/-- The text of an integer begins with a minus sign or a digit. -/
theorem writeInt_eq_cons (i : Int) :
    ∃ c cs, writeInt i = c :: cs ∧ (c = '-' ∨ c.isDigit) := by
  rw [writeInt]
  split
  · exact ⟨_, _, rfl, Or.inl rfl⟩
  · obtain ⟨d, ds, hds⟩ := List.exists_cons_of_ne_nil (natDigits_ne_nil i.natAbs)
    exact ⟨d, ds, hds, Or.inr (isDigit_of_mem_natDigits i.natAbs d (by simp [hds]))⟩

end DocPath.Decimal
