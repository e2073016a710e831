import DocPath.Proofs.Json.Literals

/-!
# The grammar of strings

Strings as RFC 8259 has them, told without the reader: every character stands for itself, or
is written by a short escape, by its code or by the codes of two surrogates. The reader takes
these texts and no others.
-/

namespace DocPath.Json

inductive CharText : List Char → Char → Prop where
  | raw {c : Char} (printed : 0x20 ≤ c.toNat) (not_quote : c ≠ '"') (not_backslash : c ≠ '\\') :
    CharText [c] c
  | short {mark c : Char} (means : shortEscape? mark = some c) : CharText ['\\', mark] c
  | code {d₃ d₂ d₁ d₀ : Char} {n : Nat} (digits : hexValue4? d₃ d₂ d₁ d₀ = some n)
    (not_surrogate : n < 0xD800 ∨ 0xE000 ≤ n) :
    CharText ['\\', 'u', d₃, d₂, d₁, d₀] (Char.ofNat n)
  | pair {d₃ d₂ d₁ d₀ e₃ e₂ e₁ e₀ : Char} {high low : Nat}
    (digits : hexValue4? d₃ d₂ d₁ d₀ = some high) (digits' : hexValue4? e₃ e₂ e₁ e₀ = some low)
    (is_high : 0xD800 ≤ high ∧ high < 0xDC00) (is_low : 0xDC00 ≤ low ∧ low < 0xE000) :
    CharText ['\\', 'u', d₃, d₂, d₁, d₀, '\\', 'u', e₃, e₂, e₁, e₀]
      (Char.ofNat (0x10000 + (high - 0xD800) * 0x400 + (low - 0xDC00)))

/-- The texts between the quotes of a string, and the characters they stand for. -/
inductive StringText : List Char → List Char → Prop where
  | nil : StringText [] []
  | cons {text more : List Char} {c : Char} {cs : List Char} (head : CharText text c)
    (tail : StringText more cs) : StringText (text ++ more) (c :: cs)

variable {text cs rest : List Char} {c : Char}

theorem CharText.spells (h : CharText text c) : Spells text c := by
  cases h with
  | raw printed not_quote not_backslash => exact spells_plain not_quote not_backslash printed
  | @short mark c means =>
    refine spells_short ?_ means
    rintro rfl
    cases means
  | code digits not_surrogate => exact spells_hex digits not_surrogate
  | pair digits digits' is_high is_low => exact spells_pair digits digits' is_high is_low

/-- A string of the grammar is read up to its closing quote. -/
theorem StringText.readString? (h : StringText text cs) (rest : List Char) :
    readString? (text ++ '"' :: rest) = some (cs, rest) := by
  induction h with
  | nil => rfl
  | cons head _ ih =>
    rw [List.append_assoc, head.spells, ih]
    rfl

/-- That a text, where it is read as the rest of a string, is of the grammar up to a quote. -/
def Sound (input : List Char) : Prop :=
  ∀ {cs rest : List Char}, Json.readString? input = some (cs, rest) →
    ∃ text, input = text ++ '"' :: rest ∧ StringText text cs

theorem Sound.more {more : List Char} (h : Sound more) (head : CharText text c)
    (hread : ((Json.readString? more).bind fun p => some (c :: p.1, p.2)) = some (cs, rest)) :
    ∃ body, text ++ more = body ++ '"' :: rest ∧ StringText body cs := by
  obtain ⟨⟨ds, rest'⟩, hmore, heq⟩ := Option.bind_eq_some_iff.mp hread
  obtain ⟨rfl, rfl⟩ := Prod.mk.inj (Option.some.inj heq)
  obtain ⟨body, rfl, hbody⟩ := h hmore
  exact ⟨text ++ body, (List.append_assoc _ _ _).symm, .cons head hbody⟩

/-- What is read as a string is one of the grammar. -/
theorem readString?_sound (input : List Char) : Sound input := by
  intro cs rest h
  fun_induction Json.readString? input generalizing cs rest with
  | case1 => cases h
  | case2 rest' =>
    obtain ⟨rfl, rfl⟩ := Prod.mk.inj (Option.some.inj h)
    exact ⟨[], rfl, .nil⟩
  | case3 a b c d more ihpair ih =>
    obtain ⟨n, hn, h⟩ := Option.bind_eq_some_iff.mp h
    split at h
    · rename_i hhigh
      split at h
      · rename_i e f g i more'
        obtain ⟨low, hdigits, h⟩ := Option.bind_eq_some_iff.mp h
        split at h
        · rename_i hlow
          exact Sound.more ihpair (.pair hn hdigits hhigh hlow) h
        · cases h
      · cases h
    · rename_i hhigh
      split at h
      · cases h
      · rename_i hlow
        exact Sound.more ih (.code hn (by omega)) h
  | case4 mark more _ ih =>
    obtain ⟨c, hc, h⟩ := Option.bind_eq_some_iff.mp h
    exact Sound.more ih (.short hc) h
  | case5 c more hquote _ _ ih =>
    by_cases hc : 32 ≤ c.toNat ∧ c ≠ '\\'
    · rw [guard, if_pos hc] at h
      exact Sound.more ih (.raw hc.1 hquote hc.2) h
    · rw [guard, if_neg hc] at h
      cases h

/-- The reader takes the strings of the grammar and no others. -/
theorem readString?_eq_some_iff {input : List Char} :
    Json.readString? input = some (cs, rest) ↔
      ∃ text, input = text ++ '"' :: rest ∧ StringText text cs := by
  constructor
  · exact fun h => readString?_sound input h
  · rintro ⟨text, rfl, h⟩
    exact h.readString? rest

end DocPath.Json
