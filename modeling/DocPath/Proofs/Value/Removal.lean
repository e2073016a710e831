import DocPath.Proofs.Value.Revision
import Mathlib.Data.List.Basic

/-!
# Removing children

The children of one container are removed one by one, and each removal moves up the elements
behind it. The order from the highest position down makes the outcome a revision that leaves
out what was named.
-/

namespace DocPath

namespace Value

variable {v c : Value} {s : Step}

/-- The elements at other positions than those given, counted from `n`. -/
def without (is : List Nat) (n : Nat) (items : List Value) : List Value :=
  (items.zipIdx n).filterMap fun p => if p.2 ∈ is then none else some p.1

theorem without_cons (is : List Nat) (n : Nat) (c : Value) (items : List Value) :
    without is n (c :: items) =
      if n ∈ is then without is (n + 1) items else c :: without is (n + 1) items := by
  by_cases h : n ∈ is <;> simp [without, h]

theorem without_of_lt {is : List Nat} {n : Nat} (h : ∀ i ∈ is, i < n) (items : List Value) :
    without is n items = items := by
  induction items generalizing n with
  | nil => rfl
  | cons c items ih =>
    have hn : n ∉ is := fun hn => absurd (h n hn) (Nat.lt_irrefl n)
    rw [without_cons, if_neg hn, ih fun i hi => Nat.lt_succ_of_lt (h i hi)]

/-- A removed element shifts none that stands before it. -/
theorem without_eraseIdx {is : List Nat} {n i : Nat} (h : ∀ j ∈ is, j < n + i)
    (items : List Value) : without is n (items.eraseIdx i) = without ((n + i) :: is) n items := by
  induction items generalizing n i with
  | nil => rfl
  | cons c items ih =>
    cases i with
    | zero =>
      have later : ∀ j ∈ n :: is, j < n + 1 := by
        intro j hj
        rcases List.mem_cons.mp hj with rfl | hj
        · exact Nat.lt_succ_self j
        · exact Nat.lt_succ_of_lt (h j hj)
      rw [Nat.add_zero] at h ⊢
      rw [List.eraseIdx_zero, List.tail_cons, without_cons, if_pos List.mem_cons_self,
        without_of_lt later, without_of_lt h]
    | succ i =>
      have hn : n ∈ (n + (i + 1)) :: is ↔ n ∈ is := by simp
      have hi : n + 1 + i = n + (i + 1) := by omega
      rw [List.eraseIdx_cons_succ, without_cons, without_cons, ih (hi ▸ h), hi]
      simp only [hn]

/-- Elements of an array are removed from the highest position down. -/
theorem removeElements_eq {is : List Nat} (hdesc : is.Pairwise (· > ·)) (items : List Value)
    (had : Bool) :
    ∃ had', removeElements is (.array items, had) =
      ((.array (without is 0 items), had'), none) := by
  induction is generalizing items had with
  | nil => exact ⟨had, by rw [without_of_lt (by simp)]; rfl⟩
  | cons i is ih =>
    obtain ⟨hi, hdesc⟩ := List.pairwise_cons.mp hdesc
    have first : ∃ here, (array items).removeElement i = .ok (.array (items.eraseIdx i), here) := by
      by_cases hlt : i < items.length
      · exact ⟨true, by simp [removeElement, hlt]⟩
      · exact ⟨false, by
          simp [removeElement, hlt, List.eraseIdx_of_length_le (Nat.le_of_not_lt hlt)]⟩
    obtain ⟨here, first⟩ := first
    have erased := without_eraseIdx (n := 0) (i := i) (fun j hj => by have := hi j hj; omega) items
    obtain ⟨had', rest⟩ := ih hdesc (items.eraseIdx i) (had || here)
    refine ⟨had', ?_⟩
    rw [removeElements, first]
    simp only [rest, erased, Nat.zero_add]

theorem removeElements_of_not_ordered (hv : v.isOrdered = false) (is : List Nat) (had : Bool) :
    removeElements is (v, had) = ((v, had), none) := by
  have none : ∀ i, v.removeElement i = .ok (v, false) := by
    intro i
    cases v with
    | array items | slots refused items => cases hv
    | _ => rfl
  induction is generalizing had with
  | nil => rfl
  | cons i is ih =>
    rw [removeElements, none]
    simp only [Bool.or_false, ih]

theorem eraseRepsBy_loop_eq (a : Nat) (is acc : List Nat) :
    List.eraseRepsBy.loop (· == ·) a is acc =
      acc.reverse ++ List.eraseRepsBy.loop (· == ·) a is [] := by
  induction is generalizing a acc with
  | nil => simp [List.eraseRepsBy.loop]
  | cons b is ih =>
    simp only [List.eraseRepsBy.loop]
    split
    · exact ih a acc
    · rw [ih b (a :: acc), ih b [a]]
      simp

theorem eraseReps_cons_cons (a b : Nat) (is : List Nat) :
    (a :: b :: is).eraseReps =
      if a = b then (b :: is).eraseReps else a :: (b :: is).eraseReps := by
  simp only [List.eraseReps, List.eraseRepsBy]
  rw [List.eraseRepsBy.loop]
  by_cases h : a = b
  · subst h
    simp
  · have hb : (a == b) = false := by simp [h]
    simp only [hb, if_neg h]
    rw [eraseRepsBy_loop_eq]
    rfl

theorem mem_eraseReps {i : Nat} {is : List Nat} : i ∈ is.eraseReps ↔ i ∈ is := by
  induction is with
  | nil => rfl
  | cons a is ih =>
    cases is with
    | nil => rfl
    | cons b is =>
      rw [eraseReps_cons_cons]
      split
      · rename_i hab
        rw [ih, hab]
        simp
      · rw [List.mem_cons, ih, List.mem_cons (a := i) (b := a)]

theorem eraseReps_pairwise {is : List Nat} (h : is.Pairwise (· ≥ ·)) :
    is.eraseReps.Pairwise (· > ·) := by
  induction is with
  | nil => exact List.Pairwise.nil
  | cons a is ih =>
    cases is with
    | nil => exact List.pairwise_singleton _ a
    | cons b is =>
      obtain ⟨ha, h⟩ := List.pairwise_cons.mp h
      have hb := (List.pairwise_cons.mp h).1
      rw [eraseReps_cons_cons]
      split
      · exact ih h
      · refine List.pairwise_cons.mpr ⟨fun i hi => ?_, ih h⟩
        have hab := ha b List.mem_cons_self
        rcases List.mem_cons.mp (mem_eraseReps.mp hi) with rfl | hi
        · omega
        · have := hb i hi
          omega

theorem descending_nil : descending [] = [] := by
  rw [descending, List.mergeSort_nil]
  rfl

theorem descending_singleton (i : Nat) : descending [i] = [i] := by
  rw [descending, List.mergeSort_singleton]
  rfl

theorem mem_descending {i : Nat} {is : List Nat} : i ∈ descending is ↔ i ∈ is := by
  rw [descending, mem_eraseReps, List.mem_mergeSort]

theorem descending_pairwise (is : List Nat) : (descending is).Pairwise (· > ·) := by
  refine eraseReps_pairwise ?_
  have sorted : (is.mergeSort fun a b => decide (b ≤ a)).Pairwise fun a b => decide (b ≤ a) :=
    List.pairwise_mergeSort
    (fun a b c hab hbc => by simp only [decide_eq_true_eq] at *; omega)
    (fun a b => by simp only [Bool.or_eq_true, decide_eq_true_eq]; omega) is
  exact sorted.imp fun h => of_decide_eq_true h

theorem mem_stepKeys {name : String} {steps : List Step} :
    name ∈ stepKeys steps ↔ .key name ∈ steps := by
  simp only [stepKeys, List.mem_filterMap]
  constructor
  · rintro ⟨s, hs, h⟩
    cases s with
    | key k => cases h; exact hs
    | index i => cases h
  · exact fun h => ⟨.key name, h, rfl⟩

theorem mem_stepIndexes {i : Nat} {steps : List Step} :
    i ∈ stepIndexes steps ↔ .index i ∈ steps := by
  simp only [stepIndexes, List.mem_filterMap]
  constructor
  · rintro ⟨s, hs, h⟩
    cases s with
    | key k => cases h
    | index j => cases h; exact hs
  · exact fun h => ⟨.index i, h, rfl⟩

theorem erase_eq_filter {ms : Members} (hn : (ms.map (·.1)).Nodup) (key : String) :
    Members.erase key ms = ms.filter fun m => m.1 ≠ key := by
  rw [Members.erase]
  induction ms with
  | nil => rfl
  | cons m ms ih =>
    obtain ⟨k, c⟩ := m
    obtain ⟨hk, hn⟩ := List.nodup_cons.mp hn
    by_cases h : k = key
    · subst h
      have others : ∀ m ∈ ms, decide (m.1 ≠ k) := by
        intro m hm
        exact decide_eq_true fun e => hk (e ▸ List.mem_map_of_mem (f := (·.1)) hm)
      rw [List.eraseP_cons_of_pos (by simp), List.filter_cons_of_neg (by simp),
        List.filter_eq_self.mpr others]
    · rw [List.eraseP_cons_of_neg (by simp [h]), List.filter_cons_of_pos (by simp [h]), ih hn]

theorem removeMembers_of_not_keyed (hv : v.isKeyed = false) (keys : List String) (had : Bool) :
    removeMembers keys (v, had) = (v, had) := by
  have none : ∀ k, v.removeMember k = (v, none) := by
    intro k
    cases v with
    | object ms | keyed kind ms => cases hv
    | _ => rfl
  exact List.foldl_fixed' (fun k => by simp [none]) keys

/-- The members of an object are removed by name. -/
theorem removeMembers_eq {ms : Members} (hn : (ms.map (·.1)).Nodup) (keys : List String)
    (had : Bool) :
    ∃ had', removeMembers keys (.object ms, had) =
      (.object (ms.filter fun m => m.1 ∉ keys), had') := by
  induction keys generalizing ms had with
  | nil => exact ⟨had, by simp [removeMembers]⟩
  | cons k keys ih =>
    have hsub : List.Sublist (ms.filter fun m => m.1 ≠ k) ms := List.filter_sublist
    obtain ⟨had', h⟩ := ih (hn.sublist (hsub.map _)) (had || (ms.lookup k).isSome)
    refine ⟨had', ?_⟩
    rw [removeMembers, List.foldl_cons]
    simp only [removeMember, erase_eq_filter hn, removeMembers] at h ⊢
    rw [h, List.filter_filter]
    simp [Bool.and_comm]

/-- Removing children of a plain document leaves out those that are named and keeps the others in
their order. No removal is refused. -/
theorem removeChildren_eq_revise (hv : v.Plain) (steps : List Step) :
    ∃ had, v.removeChildren steps =
      ((v.revise fun s c => if s ∈ steps then none else some c, had), none) := by
  obtain ⟨hk, hn, -⟩ := formed_iff.mp hv
  simp only [removeChildren]
  cases v with
  | array items =>
    obtain ⟨had, h⟩ := removeElements_eq (descending_pairwise (stepIndexes steps)) items false
    refine ⟨had, ?_⟩
    rw [removeMembers_of_not_keyed rfl, h, revise, without]
    simp only [mem_descending, mem_stepIndexes]
  | object ms =>
    obtain ⟨had, h⟩ := removeMembers_eq hn (stepKeys steps) false
    refine ⟨had, ?_⟩
    rw [h, removeElements_of_not_ordered rfl, revise, ← List.filterMap_eq_filter]
    simp only [mem_stepKeys, Prod.mk.injEq, Value.object.injEq, and_true]
    refine List.filterMap_congr fun m _ => ?_
    by_cases hs : Step.key m.1 ∈ steps <;> simp [Option.guard, hs]
  | keyed kind ms | slots refused items => cases hk
  | _ =>
    refine ⟨false, ?_⟩
    rw [removeMembers_of_not_keyed rfl, removeElements_of_not_ordered rfl]
    rfl

theorem removeChildren_nil (v : Value) : v.removeChildren [] = ((v, false), none) := by
  simp [removeChildren, stepKeys, stepIndexes, descending_nil, removeElements, removeMembers]

/-- Removing one child says that something was there, if it was. -/
theorem removeChildren_singleton_had (hk : v.kind.isJson) (h : v.step? s = some c) :
    (v.removeChildren [s]).1.2 = true := by
  cases step?_eq_some_iff.mp h with
  | member hl =>
    simp [removeChildren, stepKeys, stepIndexes, removeMembers, removeElements, removeMember, hl,
      descending_nil]
  | element hi =>
    have hlt := (List.getElem?_eq_some_iff.mp hi).1
    simp [removeChildren, stepKeys, stepIndexes, removeMembers, removeElements, removeElement, hlt,
      descending_singleton]
  | field | slot => cases hk

end Value
end DocPath
