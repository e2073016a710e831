import DocPath.Pattern.Matching
import Mathlib.Data.List.Basic

/-!
# What a pattern matches

The stretches of a text that a pattern matches are written down here by recursion on the pattern,
with no bound on repetition but its own. The lists of ends that the search computes are these
stretches: a repetition that goes on without moving can be left out, so as many rounds as there
are positions are enough.
-/

namespace DocPath.Pattern

/-- So many stretches in a row, from `i` to `j`. -/
def InRow (stretch : Nat → Nat → Prop) : Nat → Nat → Nat → Prop
  | 0, i, j => i = j
  | n + 1, i, j => ∃ k, stretch i k ∧ InRow stretch n k j

/-- Whether a pattern matches a text from the position `i` to the position `j`. -/
def Node.Spans (text : Array Char) : Node → Nat → Nat → Prop
  | .empty, i, j => j = i
  | .char set, i, j => (∃ c, text[i]? = some c ∧ set.contains c) ∧ j = i + 1
  | .place p, i, j => p.holds (charBefore text i) text[i]? ∧ j = i
  | .seq a b, i, j => ∃ k, a.Spans text i k ∧ b.Spans text k j
  | .alt a b, i, j => a.Spans text i j ∨ b.Spans text i j
  | .times body low high, i, j =>
    ∃ n, low ≤ n ∧ (∀ h ∈ high, n ≤ h) ∧ InRow (body.Spans text) n i j

def Node.Ordered : Node → Prop
  | .empty | .char _ | .place _ => True
  | .seq a b | .alt a b => a.Ordered ∧ b.Ordered
  | .times body low high => body.Ordered ∧ ∀ h ∈ high, low ≤ h

variable {text : Array Char} {i j k m n : Nat}

section rows

variable {stretch : Nat → Nat → Prop}

theorem inRow_add : InRow stretch (m + n) i j ↔ ∃ k, InRow stretch m i k ∧ InRow stretch n k j := by
  induction m generalizing i with
  | zero => simp [InRow]
  | succ m ih =>
    rw [Nat.succ_add]
    simp only [InRow, ih]
    constructor
    · rintro ⟨l, hl, k, hk, hj⟩
      exact ⟨k, ⟨l, hl, hk⟩, hj⟩
    · rintro ⟨k, ⟨l, hl, hk⟩, hj⟩
      exact ⟨l, hl, k, hk, hj⟩

/-- Stretches that are left out when they do not move are no more than the positions passed. -/
theorem InRow.shorten (forward : ∀ i j, stretch i j → i ≤ j) (h : InRow stretch n i j) :
    ∃ m ≤ n, m ≤ j - i ∧ InRow stretch m i j := by
  induction n generalizing i with
  | zero => exact ⟨0, Nat.le_refl _, Nat.zero_le _, h⟩
  | succ n ih =>
    obtain ⟨k, hk, hrest⟩ := h
    obtain ⟨m, hmn, hmj, hm⟩ := ih hrest
    rcases Nat.lt_or_eq_of_le (forward i k hk) with hlt | rfl
    · by_cases hkj : k ≤ j
      · exact ⟨m + 1, by omega, by omega, k, hk, hm⟩
      · -- nothing lies between `k` and a position before it
        obtain rfl : m = 0 := by omega
        cases hm
        omega
    · exact ⟨m, by omega, hmj, hm⟩

theorem InRow.preserves {P : Nat → Prop} (step : ∀ i j, stretch i j → P i → P j)
    (h : InRow stretch n i j) (hi : P i) : P j := by
  induction n generalizing i with
  | zero => exact h ▸ hi
  | succ n ih =>
    obtain ⟨k, hk, hrest⟩ := h
    exact ih hrest (step i k hk hi)

end rows

namespace Node

theorem Spans.le (n : Node) (h : n.Spans text i j) : i ≤ j := by
  induction n generalizing i j with
  | empty => exact Nat.le_of_eq h.symm
  | char set => have := h.2; omega
  | place p => exact Nat.le_of_eq h.2.symm
  | seq a b iha ihb =>
    obtain ⟨k, ha, hb⟩ := h
    exact Nat.le_trans (iha ha) (ihb hb)
  | alt a b iha ihb => exact h.elim iha ihb
  | times body low high ih =>
    obtain ⟨n, -, -, hrow⟩ := h
    exact hrow.preserves (P := fun k => i ≤ k) (fun _ _ hspan hi => Nat.le_trans hi (ih hspan))
      (Nat.le_refl i)

theorem Spans.le_size (n : Node) (h : n.Spans text i j) (hi : i ≤ text.size) : j ≤ text.size := by
  induction n generalizing i j with
  | empty => exact h ▸ hi
  | char set =>
    obtain ⟨⟨c, hc, -⟩, rfl⟩ := h
    exact (Array.getElem?_eq_some_iff.mp hc).1
  | place p => exact h.2 ▸ hi
  | seq a b iha ihb =>
    obtain ⟨k, ha, hb⟩ := h
    exact ihb hb (iha ha hi)
  | alt a b iha ihb => exact h.elim (iha · hi) (ihb · hi)
  | times body low high ih =>
    obtain ⟨n, -, -, hrow⟩ := h
    exact hrow.preserves (P := fun k => k ≤ text.size) (fun _ _ => ih) hi

end Node

theorem mem_reach {next : Nat → List Nat} {is : List Nat} :
    j ∈ reach next is ↔ ∃ i ∈ is, j ∈ next i := by
  rw [reach, List.mem_eraseDups, List.mem_flatMap]

theorem mem_rounds {next : Nat → List Nat} {is : List Nat} :
    j ∈ rounds next n is ↔ ∃ i ∈ is, InRow (fun i j => j ∈ next i) n i j := by
  induction n generalizing is with
  | zero => simp [rounds, InRow]
  | succ n ih =>
    rw [rounds, ih]
    simp only [mem_reach, InRow]
    constructor
    · rintro ⟨k, ⟨i, hi, hk⟩, hj⟩
      exact ⟨i, hi, k, hk, hj⟩
    · rintro ⟨i, hi, k, hk, hj⟩
      exact ⟨k, ⟨i, hi, hk⟩, hj⟩

theorem mem_within {next : Nat → List Nat} {is : List Nat} :
    j ∈ within next n is ↔ ∃ m ≤ n, ∃ i ∈ is, InRow (fun i j => j ∈ next i) m i j := by
  induction n generalizing is with
  | zero => simp [within, InRow]
  | succ n ih =>
    rw [within, ih]
    simp only [List.mem_eraseDups, List.mem_append, mem_reach]
    constructor
    · rintro ⟨m, hm, i, hi | ⟨l, hl, hi⟩, hj⟩
      · exact ⟨m, by omega, i, hi, hj⟩
      · exact ⟨m + 1, by omega, l, hl, i, hi, hj⟩
    · rintro ⟨m, hm, i, hi, hj⟩
      cases m with
      | zero => exact ⟨0, Nat.zero_le _, i, .inl hi, hj⟩
      | succ m =>
        obtain ⟨k, hk, hrest⟩ := hj
        exact ⟨m, by omega, k, .inr ⟨i, hi, hk⟩, hrest⟩

/-- In rows whose stretches begin in the text it is enough to know the stretches that do. -/
theorem inRow_congr {R S : Nat → Nat → Prop} (same : ∀ i ≤ text.size, ∀ j, R i j ↔ S i j)
    (inside : ∀ i j, S i j → i ≤ text.size → j ≤ text.size) (hi : i ≤ text.size) :
    InRow R n i j ↔ InRow S n i j := by
  induction n generalizing i with
  | zero => exact Iff.rfl
  | succ n ih =>
    simp only [InRow]
    refine exists_congr fun k => ?_
    rw [same i hi k]
    exact and_congr_right fun hk => ih (inside i k hk hi)

/-- The ends that are computed are those of the stretches that the pattern matches. -/
theorem Node.mem_ends {n : Node} (ordered : n.Ordered) (hi : i ≤ text.size) :
    j ∈ n.ends text i ↔ n.Spans text i j := by
  induction n generalizing i j with
  | empty => simp [ends, Spans]
  | char set =>
    rw [ends, Spans]
    cases htext : text[i]? with
    | none => simp
    | some c => simp [apply_ite (j ∈ ·)]
  | place p =>
    rw [ends, Spans]
    split <;> simp_all
  | seq a b iha ihb =>
    rw [ends, Spans, mem_reach]
    refine exists_congr fun k => ?_
    rw [iha ordered.1 hi]
    exact and_congr_right fun ha => ihb ordered.2 (ha.le_size a hi)
  | alt a b iha ihb =>
    rw [ends, Spans, List.mem_eraseDups, List.mem_append, iha ordered.1 hi, ihb ordered.2 hi]
  | times body low high ih =>
    have rows : ∀ {n i j}, i ≤ text.size →
        (InRow (fun i j => j ∈ body.ends text i) n i j ↔ InRow (body.Spans text) n i j) :=
      inRow_congr (fun i hi j => ih ordered.1 hi) fun i j hspan => hspan.le_size body
    have inside : ∀ {n i j}, InRow (body.Spans text) n i j → i ≤ text.size → j ≤ text.size :=
      fun hrow => hrow.preserves (P := fun k => k ≤ text.size) fun _ _ h => h.le_size body
    simp only [ends, Spans, mem_within, mem_rounds, List.mem_singleton, exists_eq_left]
    constructor
    · rintro ⟨m, hm, k, hk, hj⟩
      rw [rows hi] at hk
      have hk' := inside hk hi
      rw [rows hk'] at hj
      refine ⟨low + m, Nat.le_add_right _ _, fun h hh => ?_, inRow_add.mpr ⟨k, hk, hj⟩⟩
      rw [Option.mem_def] at hh
      subst hh
      have := ordered.2 h rfl
      simp only at hm
      omega
    · rintro ⟨n, hlow, hhigh, hrow⟩
      obtain ⟨m, rfl⟩ := Nat.exists_eq_add_of_le hlow
      obtain ⟨k, hk, hj⟩ := inRow_add.mp hrow
      have hk' := inside hk hi
      have hj' := inside hj hk'
      obtain ⟨m', hm, hsize, hshort⟩ := hj.shorten fun _ _ h => h.le body
      refine ⟨m', ?_, k, (rows hi).mpr hk, (rows hk').mpr hshort⟩
      cases high with
      | none => simp only; omega
      | some h =>
        have := hhigh h rfl
        simp only
        omega

/-- The search tells whether there is a stretch that the pattern matches. -/
theorem Node.occursIn_iff {n : Node} (ordered : n.Ordered) (s : String) :
    n.occursIn s ↔ ∃ i j, i ≤ s.toList.toArray.size ∧ n.Spans s.toList.toArray i j := by
  simp only [occursIn, List.any_eq_true, List.mem_range, Nat.lt_succ_iff, Bool.not_eq_true',
    List.isEmpty_eq_false_iff_exists_mem]
  refine exists_congr fun i => ?_
  rw [← exists_and_left]
  exact exists_congr fun j => and_congr_right fun hi => mem_ends ordered hi

namespace Node

/-- Whether the form of a pattern lets its stretches begin nowhere but at the start of the text. -/
def fixesStart : Node → Bool
  | .place .textStart => true
  | .seq a b => a.fixesStart || b.fixesStart
  | .alt a b => a.fixesStart && b.fixesStart
  | .times body low _ => decide (0 < low) && body.fixesStart
  | _ => false

/-- Whether the form of a pattern lets its stretches end nowhere but at the end of the text. -/
def fixesEnd : Node → Bool
  | .place .textEnd => true
  | .seq a b => a.fixesEnd || b.fixesEnd
  | .alt a b => a.fixesEnd && b.fixesEnd
  | .times body low _ => decide (0 < low) && body.fixesEnd
  | _ => false

theorem eq_zero_of_charBefore (hi : i ≤ text.size) (h : charBefore text i = none) : i = 0 := by
  cases i with
  | zero => rfl
  | succ i =>
    have := Array.getElem?_eq_none_iff.mp h
    omega

theorem Spans.start_eq (n : Node) (fixed : n.fixesStart) (hi : i ≤ text.size)
    (h : n.Spans text i j) : i = 0 := by
  induction n generalizing i j with
  | empty | char => cases fixed
  | place p =>
    cases p with
    | textStart => exact eq_zero_of_charBefore hi (Option.isNone_iff_eq_none.mp h.1)
    | _ => cases fixed
  | seq a b iha ihb =>
    obtain ⟨k, ha, hb⟩ := h
    rcases Bool.or_eq_true_iff.mp fixed with hfixed | hfixed
    · exact iha hfixed hi ha
    · have hk := ihb hfixed (ha.le_size a hi) hb
      exact Nat.le_zero.mp (hk ▸ ha.le a)
  | alt a b iha ihb =>
    obtain ⟨hfa, hfb⟩ := Bool.and_eq_true_iff.mp fixed
    exact h.elim (iha hfa hi) (ihb hfb hi)
  | times body low high ih =>
    obtain ⟨hlow, hfixed⟩ := Bool.and_eq_true_iff.mp fixed
    obtain ⟨n, hn, -, hrow⟩ := h
    cases n with
    | zero => simp_all
    | succ n =>
      obtain ⟨k, hk, -⟩ := hrow
      exact ih hfixed hi hk

theorem Spans.stop_eq (n : Node) (fixed : n.fixesEnd) (hi : i ≤ text.size)
    (h : n.Spans text i j) : j = text.size := by
  induction n generalizing i j with
  | empty | char => cases fixed
  | place p =>
    cases p with
    | textEnd =>
      have := Array.getElem?_eq_none_iff.mp (Option.isNone_iff_eq_none.mp h.1)
      have := h.2
      omega
    | _ => cases fixed
  | seq a b iha ihb =>
    obtain ⟨k, ha, hb⟩ := h
    have hk := ha.le_size a hi
    rcases Bool.or_eq_true_iff.mp fixed with hfixed | hfixed
    · have hk' := iha hfixed hi ha
      exact Nat.le_antisymm (hb.le_size b hk) (hk' ▸ hb.le b)
    · exact ihb hfixed hk hb
  | alt a b iha ihb =>
    obtain ⟨hfa, hfb⟩ := Bool.and_eq_true_iff.mp fixed
    exact h.elim (iha hfa hi) (ihb hfb hi)
  | times body low high ih =>
    obtain ⟨hlow, hfixed⟩ := Bool.and_eq_true_iff.mp fixed
    obtain ⟨n, hn, -, hrow⟩ := h
    cases n with
    | zero => simp_all
    | succ n =>
      -- the last of the stretches decides where the row ends
      obtain ⟨k, hbefore, l, hlast, rfl⟩ := inRow_add.mp hrow
      have hk := hbefore.preserves (P := fun k => k ≤ text.size) (fun _ _ h => h.le_size body) hi
      exact ih hfixed hk hlast

end Node

end DocPath.Pattern
