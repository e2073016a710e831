import DocPath.Path.Slice
import Mathlib.Algebra.Order.Ring.Int
import Mathlib.Data.List.Sort
import Mathlib.Tactic.Ring

/-!
# The positions of a slice

A slice is applied with integers of 64 bits. The sums that turn its bounds into positions never
leave their range, and one that would lead from the last position out of it only ends the loop.
So the positions are the terms of an arithmetic progression over all integers that come before
the end.
-/

namespace DocPath.Slice

variable {first step stop : Int} {i : Int64}

theorem add_mul_succ (first step : Int) (k : Nat) :
    first + step * ((k + 1 : Nat) : Int) = first + step + step * k := by
  push_cast
  ring

def progression (first step : Int) (count : Nat) : List Int :=
  (List.range count).map fun k : Nat => first + step * k

theorem progression_succ (first step : Int) (count : Nat) :
    progression first step (count + 1) = first :: progression (first + step) step count := by
  simp only [progression, List.range_succ_eq_map, List.map_cons, List.map_map]
  congr 1
  · simp
  · exact List.map_congr_left fun k _ => add_mul_succ first step k

theorem mem_progression {i : Int} {count : Nat} :
    i ∈ progression first step count ↔ ∃ k : Nat, k < count ∧ first + step * k = i := by
  simp [progression]

theorem progression_nodup (hstep : step ≠ 0) (count : Nat) :
    (progression first step count).Nodup := by
  refine List.nodup_range.map fun i j hij => ?_
  have hmul : step * i = step * j := by simpa using hij
  exact Int.ofNat_inj.mp (Int.eq_of_mul_eq_mul_left hstep hmul)

/-- Whether a position comes before an end, over all integers. -/
def Precedes (step stop i : Int) : Prop := if 0 < step then i < stop else stop < i

theorem precedes_up (hstep : 0 < step) {i : Int} : Precedes step stop i ↔ i < stop := by
  rw [Precedes, if_pos hstep]

theorem precedes_down (hstep : ¬0 < step) {i : Int} : Precedes step stop i ↔ stop < i := by
  rw [Precedes, if_neg hstep]

theorem before_iff {step stop : Int64} :
    before step stop i ↔ Precedes step.toInt stop.toInt i.toInt := by
  have hzero : (0 : Int64) < step ↔ 0 < step.toInt := Int64.lt_iff_toInt_lt
  simp only [before, Precedes, hzero]
  split <;> rw [decide_eq_true_iff, Int64.lt_iff_toInt_lt]

/-- A progression that has come to its end stays there. -/
theorem Precedes.of_add_mul {i : Int} {k : Nat} (h : Precedes step stop (i + step * k)) :
    Precedes step stop i := by
  by_cases hstep : 0 < step
  · rw [precedes_up hstep] at h ⊢
    have := Int.mul_nonneg (Int.le_of_lt hstep) (Int.natCast_nonneg k)
    omega
  · rw [precedes_down hstep] at h ⊢
    have := mul_nonpos_of_nonpos_of_nonneg (Int.not_lt.mp hstep) (Int.natCast_nonneg k)
    omega

/-- A sum that leaves the range of 64 bits is past every end. -/
theorem not_precedes_of_sumInt64? {step stop : Int64} (h : sumInt64? i step = none) :
    ¬Precedes step.toInt stop.toInt (i.toInt + step.toInt) := by
  rw [sumInt64?] at h
  have hout : ¬(Int64.minValue.toInt ≤ i.toInt + step.toInt ∧
      i.toInt + step.toInt ≤ Int64.maxValue.toInt) := by
    intro hin
    rw [if_pos hin] at h
    cases h
  have hlow := i.minValue_le_toInt
  have hhigh := i.toInt_le
  have hstop := stop.minValue_le_toInt
  have hstop' := stop.toInt_le
  by_cases hstep : 0 < step.toInt
  · rw [precedes_up hstep]
    omega
  · rw [precedes_down hstep]
    omega

theorem toNat_toUInt64 (h : 0 ≤ i.toInt) : (i.toUInt64.toNat : Int) = i.toInt := by
  rw [Int64.toNat_toUInt64_of_le (Int64.le_iff_toInt_le.mpr h)]
  exact Int.toNat_of_nonneg h

def places (positions : List Nat) : List Int := positions.map fun n : Nat => (n : Int)

theorem places_push (h : 0 ≤ i.toInt) (found : Array Nat) :
    places (found.push i.toUInt64.toNat).toList = places found.toList ++ [i.toInt] := by
  simp [places, toNat_toUInt64 h]

theorem mem_of_places {positions : List Nat} {count n : Nat}
    (h : places positions = progression first step count) :
    n ∈ positions ↔ ∃ k : Nat, k < count ∧ first + step * k = n := by
  rw [← mem_progression, ← h, places]
  exact (List.mem_map_of_injective Int.ofNat_injective).symm

/-- The loop collects the progression from its first position on, up to the end. Positions are
never negative: an upward loop starts no lower than zero, and a downward one ends at -1 or
above. -/
theorem collect_eq {step stop : Int64} (hstep : step ≠ 0) (hi : 0 < step.toInt → 0 ≤ i.toInt)
    (hstop : step.toInt < 0 → -1 ≤ stop.toInt) (found : Array Nat) :
    ∃ count, places (collect step stop hstep i found).toList =
        places found.toList ++ progression i.toInt step.toInt count ∧
      ∀ k : Nat, k < count ↔ Precedes step.toInt stop.toInt (i.toInt + step.toInt * k) := by
  have hne : step.toInt ≠ 0 := fun h => hstep (Int64.toInt_inj.mp h)
  have nonneg : ∀ j : Int64, (0 < step.toInt → 0 ≤ j.toInt) → before step stop j →
      0 ≤ j.toInt := by
    intro j hj hbefore
    by_cases hpos : 0 < step.toInt
    · exact hj hpos
    · have := (precedes_down hpos).mp (before_iff.mp hbefore)
      have := hstop (by omega)
      omega
  fun_induction collect step stop hstep i found with
  | case1 i found hbefore next hnext ih =>
    have hsum := toInt_of_sumInt64? hnext
    obtain ⟨count, hcollect, hcount⟩ := ih (by intro hpos; have := hi hpos; omega)
    rw [hsum] at hcollect hcount
    refine ⟨count + 1, ?_, fun k => ?_⟩
    · rw [hcollect, progression_succ, places_push (nonneg i hi hbefore), List.append_assoc,
        List.singleton_append]
    · cases k with
      | zero => simpa using before_iff.mp hbefore
      | succ k => rw [Nat.succ_lt_succ_iff, hcount, add_mul_succ]
  | case2 i found hbefore hnext =>
    have one : places (found.push i.toUInt64.toNat).toList =
        places found.toList ++ progression i.toInt step.toInt 1 := by
      rw [places_push (nonneg i hi hbefore)]
      simp [progression]
    refine ⟨1, one, fun k => ?_⟩
    cases k with
    | zero => simpa using before_iff.mp hbefore
    | succ k =>
      rw [add_mul_succ]
      refine iff_of_false (by omega) fun h => ?_
      exact not_precedes_of_sumInt64? hnext h.of_add_mul
  | case3 i found hbefore =>
    refine ⟨0, by simp [progression], fun k => ?_⟩
    exact iff_of_false (Nat.not_lt_zero k) fun h => hbefore (before_iff.mpr h.of_add_mul)

theorem toInt_max (a b : Int64) : (max a b).toInt = max a.toInt b.toInt := by
  change (if a ≤ b then b else a).toInt = _
  split
  · rename_i h
    exact (Int.max_eq_right (Int64.le_iff_toInt_le.mp h)).symm
  · rename_i h
    rw [Int64.le_iff_toInt_le] at h
    omega

theorem toInt_min (a b : Int64) : (min a b).toInt = min a.toInt b.toInt := by
  change (if a ≤ b then a else b).toInt = _
  split
  · rename_i h
    exact (Int.min_eq_left (Int64.le_iff_toInt_le.mp h)).symm
  · rename_i h
    rw [Int64.le_iff_toInt_le] at h
    omega

variable {s : Slice} {len : Nat}

/-- A bound as a position in a sequence of `len` elements, over all integers. -/
def fromEnd (len : Nat) (bound : Int64) : Int :=
  if bound.toInt < 0 then bound.toInt + len else bound.toInt

/-- Where a slice of `len` elements begins, and up to which position it goes. -/
def origin (s : Slice) (len : Nat) : Int :=
  if s.start.toInt < 0 then max (s.start.toInt + len) 0 else s.start.toInt

/-- The end up to which positions are selected in a sequence of `len` elements. -/
def limit (s : Slice) (len : Nat) : Int :=
  if 0 < s.step.toInt then min (fromEnd len s.stop) len else max (min (fromEnd len s.stop) len) (-1)

theorem toInt_ofNat_len (hlen : (len : Int) ≤ Int64.maxValue.toInt) :
    (Int64.ofNat len).toInt = len := by
  have hmax : Int64.maxValue.toInt = 2 ^ 63 - 1 := rfl
  exact Int64.toInt_ofNat_of_lt (by omega)

/-- No bound leaves the range of 64 bits when it is counted from the end. -/
theorem fromEnd?_eq (hlen : (len : Int) ≤ Int64.maxValue.toInt) (bound : Int64) :
    ∃ c, fromEnd? (Int64.ofNat len) bound = some c ∧ c.toInt = fromEnd len bound := by
  have hneg : bound < 0 ↔ bound.toInt < 0 := Int64.lt_iff_toInt_lt
  have hmin := bound.minValue_le_toInt
  by_cases h : bound.toInt < 0
  · have hsum : sumInt64? bound (Int64.ofNat len) = some (Int64.ofInt (bound.toInt + len)) := by
      rw [sumInt64?, toInt_ofNat_len hlen, if_pos (by omega)]
    refine ⟨_, (if_pos (hneg.mpr h)).trans hsum, ?_⟩
    rw [toInt_of_sumInt64? hsum, toInt_ofNat_len hlen, fromEnd, if_pos h]
  · exact ⟨bound, if_neg (mt hneg.mp h), (if_neg h).symm⟩

theorem origin_eq (s : Slice) (len : Nat) : s.origin len = max (fromEnd len s.start) 0 := by
  rw [origin, fromEnd]
  split <;> omega

theorem origin_nonneg (s : Slice) (len : Nat) : 0 ≤ s.origin len := by
  rw [origin_eq]
  exact Int.le_max_right _ _

/-- Applying a slice runs the loop from its origin to its limit, or not at all. -/
theorem indices?_eq (hlen : (len : Int) ≤ Int64.maxValue.toInt) (hstep : s.step ≠ 0) :
    ∃ first stop : Int64, first.toInt = s.origin len ∧ stop.toInt = s.limit len ∧
      s.indices? len = some (if (len : Int) ≤ s.origin len then []
        else (collect s.step stop hstep first #[]).toList) := by
  obtain ⟨first, hfirst, horigin⟩ := fromEnd?_eq hlen s.start
  obtain ⟨stop, hstop, hbound⟩ := fromEnd?_eq hlen s.stop
  have hzero : (0 : Int64).toInt = 0 := rfl
  have hone : (-1 : Int64).toInt = -1 := rfl
  have hpos : 0 < s.step ↔ 0 < s.step.toInt := Int64.lt_iff_toInt_lt
  have hmax : (max first 0).toInt = s.origin len := by rw [toInt_max, horigin, origin_eq, hzero]
  refine ⟨max first 0, if 0 < s.step then min stop (Int64.ofNat len)
    else max (min stop (Int64.ofNat len)) (-1), hmax, ?_, ?_⟩
  · rw [apply_ite Int64.toInt, toInt_max, toInt_min, toInt_ofNat_len hlen, hbound, hone, limit]
    simp only [hpos]
  · rw [indices?, if_neg (Int.not_lt.mpr hlen), dif_neg hstep]
    simp only [hfirst, hstop, Option.bind_eq_bind, Option.bind_some, Int64.le_iff_toInt_le, hmax,
      toInt_ofNat_len hlen]
    split <;> rfl

theorem indices?_of_le (hlen : (len : Int) ≤ Int64.maxValue.toInt)
    (h : s.step = 0 ∨ (len : Int) ≤ s.origin len) : s.indices? len = some [] := by
  by_cases hstep : s.step = 0
  · rw [indices?, if_neg (Int.not_lt.mpr hlen), dif_pos hstep]
  · obtain ⟨first, stop, -, -, hindices⟩ := indices?_eq hlen hstep
    rw [hindices, if_pos (h.resolve_left hstep)]

theorem indices_of_le (hlen : (len : Int) ≤ Int64.maxValue.toInt)
    (h : s.step = 0 ∨ (len : Int) ≤ s.origin len) : s.indices len = [] := by
  rw [indices, indices?_of_le hlen h, Option.getD_some]

/-- A slice that begins inside the sequence selects the terms of a progression that come before
its end. -/
theorem indices_of_lt (hlen : (len : Int) ≤ Int64.maxValue.toInt) (hstep : s.step ≠ 0)
    (h : s.origin len < len) :
    s.indices? len = some (s.indices len) ∧ ∃ count,
      places (s.indices len) = progression (s.origin len) s.step.toInt count ∧
      ∀ k : Nat, k < count ↔
        Precedes s.step.toInt (s.limit len) (s.origin len + s.step.toInt * k) := by
  obtain ⟨first, stop, hfirst, hstop, hindices⟩ := indices?_eq hlen hstep
  rw [if_neg (Int.not_le.mpr h)] at hindices
  have hnonneg : 0 < s.step.toInt → 0 ≤ first.toInt := fun _ => hfirst ▸ s.origin_nonneg len
  have hlow : s.step.toInt < 0 → -1 ≤ stop.toInt := by
    intro hneg
    rw [hstop, limit, if_neg (by omega)]
    exact Int.le_max_right _ _
  obtain ⟨count, hcollect, hcount⟩ := collect_eq hstep hnonneg hlow #[]
  rw [hfirst] at hcollect hcount
  rw [hstop] at hcount
  rw [indices, hindices, Option.getD_some]
  exact ⟨rfl, count, hcollect, hcount⟩

theorem indices?_eq_some (hlen : (len : Int) ≤ Int64.maxValue.toInt) :
    s.indices? len = some (s.indices len) := by
  by_cases h : s.step = 0 ∨ (len : Int) ≤ s.origin len
  · rw [indices, indices?_of_le hlen h, Option.getD_some]
  · obtain ⟨hstep, hle⟩ := not_or.mp h
    exact (indices_of_lt hlen hstep (Int.not_le.mp hle)).1

/-- What a slice selects lies in the sequence. -/
theorem lt_of_mem_indices (hlen : (len : Int) ≤ Int64.maxValue.toInt) {i : Nat}
    (hi : i ∈ s.indices len) : i < len := by
  by_cases h : s.step = 0 ∨ (len : Int) ≤ s.origin len
  · rw [indices_of_le hlen h] at hi
    cases hi
  · obtain ⟨hstep, hle⟩ := not_or.mp h
    obtain ⟨-, count, hplaces, hcount⟩ := indices_of_lt hlen hstep (Int.not_le.mp hle)
    obtain ⟨k, hk, hterm⟩ := (mem_of_places hplaces).mp hi
    by_cases hpos : 0 < s.step.toInt
    · have hlt := (precedes_up hpos).mp ((hcount k).mp hk)
      rw [limit, if_pos hpos] at hlt
      omega
    · have := mul_nonpos_of_nonpos_of_nonneg (Int.not_lt.mp hpos) (Int.natCast_nonneg k)
      omega

/-- A slice selects no position twice. -/
theorem indices_nodup (s : Slice) (len : Nat) : (s.indices len).Nodup := by
  by_cases hlen : (len : Int) ≤ Int64.maxValue.toInt
  · by_cases h : s.step = 0 ∨ (len : Int) ≤ s.origin len
    · rw [indices_of_le hlen h]
      exact List.nodup_nil
    · obtain ⟨hstep, hle⟩ := not_or.mp h
      obtain ⟨-, count, hplaces, -⟩ := indices_of_lt hlen hstep (Int.not_le.mp hle)
      have hne : s.step.toInt ≠ 0 := fun h => hstep (Int64.toInt_inj.mp h)
      exact (hplaces ▸ progression_nodup hne count).of_map _
  · rw [indices, indices?, if_pos (Int.not_le.mp hlen), Option.getD_some]
    exact List.nodup_nil

def clip (len : Nat) (bound : Int64) : Nat := (min (fromEnd len bound) len).toNat

/-- Slicing as Python has it for positive steps: both bounds are moved into the sequence, and
every so many positions are taken from the one up to the other. -/
def clipped (s : Slice) (len : Nat) : List Nat :=
  (List.range len).filter fun i =>
    clip len s.start ≤ i ∧ i < clip len s.stop ∧ s.step.toInt ∣ i - clip len s.start

theorem mem_clipped {i : Nat} :
    i ∈ s.clipped len ↔ clip len s.start ≤ i ∧ i < clip len s.stop ∧
      s.step.toInt ∣ i - clip len s.start := by
  have hclip : clip len s.stop ≤ len := by
    rw [clip]
    omega
  rw [clipped, List.mem_filter, List.mem_range, decide_eq_true_iff]
  exact and_iff_right_of_imp fun h => Nat.lt_of_lt_of_le h.2.1 hclip

/-- A progression passes a position exactly if that lies a multiple of the step above its first
one. -/
theorem exists_term_iff (hstep : 0 < step) {i : Int} :
    (∃ k : Nat, first + step * k = i) ↔ first ≤ i ∧ step ∣ i - first := by
  constructor
  · rintro ⟨k, rfl⟩
    have := Int.mul_nonneg (Int.le_of_lt hstep) (Int.natCast_nonneg k)
    exact ⟨by omega, k, by omega⟩
  · rintro ⟨hle, m, hm⟩
    have hnonneg : 0 ≤ m := by
      by_contra hneg
      have := mul_neg_of_pos_of_neg hstep (Int.not_le.mp hneg)
      omega
    exact ⟨m.toNat, by rw [Int.toNat_of_nonneg hnonneg]; omega⟩

theorem progression_increasing (first : Int) (hstep : 0 < step) (count : Nat) :
    (progression first step count).Pairwise (· < ·) := by
  refine List.pairwise_map.mpr (List.pairwise_lt_range.imp fun hij => ?_)
  have := Int.mul_lt_mul_of_pos_left (Int.ofNat_lt.mpr hij) hstep
  omega

theorem clip_start (h : s.origin len < len) : (clip len s.start : Int) = s.origin len := by
  rw [origin_eq] at h ⊢
  rw [clip]
  omega

theorem clip_start_of_le (h : (len : Int) ≤ s.origin len) : len ≤ clip len s.start := by
  rw [origin_eq] at h
  rw [clip]
  omega

theorem lt_clip_iff {i : Nat} {b : Int64} :
    i < clip len b ↔ (i : Int) < min (fromEnd len b) len := by
  rw [clip]
  omega

theorem indices_increasing (hlen : (len : Int) ≤ Int64.maxValue.toInt) (hstep : 0 < s.step.toInt)
    (hne : s.step ≠ 0) (h : s.origin len < len) : (s.indices len).Pairwise (· < ·) := by
  obtain ⟨-, count, hplaces, -⟩ := indices_of_lt hlen hne h
  have hincreasing := progression_increasing (s.origin len) hstep count
  rw [← hplaces, places, List.pairwise_map] at hincreasing
  exact hincreasing.imp Int.ofNat_lt.mp

/-- The positions of an upward slice are those of Python's slicing. -/
theorem indices_eq_clipped (hlen : (len : Int) ≤ Int64.maxValue.toInt) (hstep : 0 < s.step.toInt) :
    s.indices len = s.clipped len := by
  have hne : s.step ≠ 0 := fun h => absurd (congrArg Int64.toInt h) (Int.ne_of_gt hstep)
  by_cases h : (len : Int) ≤ s.origin len
  · rw [indices_of_le hlen (Or.inr h), eq_comm, List.eq_nil_iff_forall_not_mem]
    intro i hi
    obtain ⟨hstart, hstop, -⟩ := mem_clipped.mp hi
    rw [lt_clip_iff] at hstop
    have := clip_start_of_le h
    omega
  · rw [Int.not_le] at h
    obtain ⟨-, count, hplaces, hcount⟩ := indices_of_lt hlen hne h
    refine (indices_increasing hlen hstep hne h).eq_of_mem_iff
      (List.pairwise_lt_range.filter _) fun i => ?_
    have hcount : ∀ k : Nat, s.origin len + s.step.toInt * k = i →
        (k < count ↔ i < clip len s.stop) := by
      intro k hk
      rw [hcount, hk, precedes_up hstep, limit, if_pos hstep, lt_clip_iff]
    calc i ∈ s.indices len
        ↔ (∃ k : Nat, s.origin len + s.step.toInt * k = i) ∧ i < clip len s.stop := by
          rw [mem_of_places hplaces]
          exact ⟨fun ⟨k, hlt, hk⟩ => ⟨⟨k, hk⟩, (hcount k hk).mp hlt⟩,
            fun ⟨⟨k, hk⟩, hlt⟩ => ⟨k, (hcount k hk).mpr hlt, hk⟩⟩
      _ ↔ i ∈ s.clipped len := by
          rw [exists_term_iff hstep, mem_clipped, ← clip_start h, Int.ofNat_le, and_assoc,
            and_comm (a := _ ∣ _)]

/-- A slice is applied to any sequence that 64 bits can count without a sum leaving their range.
It selects the terms of the arithmetic progression that begins at its first bound and goes on by
its step as long as they come before its end: nothing if the step is zero or the first bound lies
behind the sequence. So every position lies in the sequence, none is selected twice, and upward
slices select what they select in Python. -/
theorem indices_eq_progression (s : Slice) {len : Nat}
    (hlen : (len : Int) ≤ Int64.maxValue.toInt) :
    s.indices? len = some (s.indices len) ∧
      (s.step = 0 ∨ (len : Int) ≤ s.origin len → s.indices len = []) ∧
      (s.step ≠ 0 → s.origin len < len → ∃ count : Nat,
        places (s.indices len) = progression (s.origin len) s.step.toInt count ∧
        (0 < s.step.toInt → ∀ k : Nat, k < count ↔
          s.origin len + s.step.toInt * k < min (fromEnd len s.stop) len) ∧
        (s.step.toInt < 0 → ∀ k : Nat, k < count ↔
          max (min (fromEnd len s.stop) len) (-1) < s.origin len + s.step.toInt * k)) ∧
      (∀ i ∈ s.indices len, i < len) ∧ (s.indices len).Nodup ∧
      (0 < s.step.toInt → s.indices len = s.clipped len) := by
  refine ⟨indices?_eq_some hlen, indices_of_le hlen, ?_, fun i => lt_of_mem_indices hlen,
    s.indices_nodup len, indices_eq_clipped hlen⟩
  intro hstep hlt
  obtain ⟨-, count, hplaces, hcount⟩ := indices_of_lt hlen hstep hlt
  refine ⟨count, hplaces, fun hpos k => ?_, fun hneg k => ?_⟩
  · rw [hcount, precedes_up hpos, limit, if_pos hpos]
  · rw [hcount, precedes_down (by omega), limit, if_neg (by omega)]

/-- A step that leads from the only position out of the range of 64 bits. -/
theorem indices_eq_progression_of_greatest_step :
    let s : Slice := ⟨-2, Int64.maxValue, Int64.maxValue⟩
    ((7 : Nat) : Int) ≤ Int64.maxValue.toInt ∧ s.origin 7 = 5 ∧ sumInt64? 5 s.step = none ∧
      s.indices? 7 = some (s.indices 7) ∧ s.indices 7 = s.clipped 7 ∧ s.indices 7 = [5] := by
  intro s
  have hlen : ((7 : Nat) : Int) ≤ Int64.maxValue.toInt := by decide
  obtain ⟨hsome, -, -, -, -, hclipped⟩ := indices_eq_progression s hlen
  have hup := hclipped (by decide)
  exact ⟨hlen, by decide, by decide, hsome, hup, hup.trans (by decide)⟩

end DocPath.Slice
