import DocPath.Value.Basic
import Mathlib.Data.List.Nodup

/-!
# Members by name

Lookups and writes in the members of a keyed container: a write in place changes what its
own name finds and nothing else, and keeps the names and their order.
-/

namespace DocPath.Members

variable {key other : String} {v w : Value} {ms : Members}

theorem any_name_iff : ms.any (·.1 == key) ↔ key ∈ ms.map (·.1) := by
  simp [List.any_eq_true, List.mem_map]

theorem replace_cons_self : replace key v ((key, w) :: ms) = (key, v) :: ms := by
  simp [replace]

theorem replace_cons_of_ne (h : other ≠ key) :
    replace key v ((other, w) :: ms) = (other, w) :: replace key v ms := by
  simp [replace, h]

theorem lookup_cons_of_ne (h : key ≠ other) :
    List.lookup key ((other, w) :: ms) = List.lookup key ms := by
  rw [List.lookup_cons, beq_false_of_ne h]

theorem lookup_isSome_iff : (ms.lookup key).isSome ↔ key ∈ ms.map (·.1) := by
  induction ms with
  | nil => simp
  | cons m ms ih =>
    obtain ⟨k, c⟩ := m
    by_cases h : key = k
    · simp [h]
    · rw [lookup_cons_of_ne h, ih]
      simp [h]

theorem replace_names (key : String) (v : Value) (ms : Members) :
    (replace key v ms).map (·.1) = ms.map (·.1) := by
  induction ms with
  | nil => rfl
  | cons m ms ih =>
    obtain ⟨k, c⟩ := m
    by_cases h : k = key
    · subst h
      simp [replace_cons_self]
    · simp [replace_cons_of_ne h, ih]

theorem lookup_replace_self (h : key ∈ ms.map (·.1)) :
    (replace key v ms).lookup key = some v := by
  induction ms with
  | nil => simp at h
  | cons m ms ih =>
    obtain ⟨k, c⟩ := m
    by_cases hk : k = key
    · subst hk
      simp [replace_cons_self]
    · have hm : key ∈ ms.map (·.1) := by simpa [Ne.symm hk] using h
      rw [replace_cons_of_ne hk, lookup_cons_of_ne (Ne.symm hk), ih hm]

theorem lookup_replace_of_ne (h : other ≠ key) :
    (replace key v ms).lookup other = ms.lookup other := by
  induction ms with
  | nil => rfl
  | cons m ms ih =>
    obtain ⟨k, c⟩ := m
    by_cases hk : k = key
    · subst hk
      rw [replace_cons_self, lookup_cons_of_ne h, lookup_cons_of_ne h]
    · rw [replace_cons_of_ne hk, List.lookup_cons, List.lookup_cons, ih]

/-- Writing what is there already changes nothing. -/
theorem replace_lookup (h : ms.lookup key = some v) : replace key v ms = ms := by
  induction ms with
  | nil => rfl
  | cons m ms ih =>
    obtain ⟨k, c⟩ := m
    by_cases hk : k = key
    · subst hk
      obtain rfl : c = v := by simpa using h
      exact replace_cons_self
    · rw [lookup_cons_of_ne (Ne.symm hk)] at h
      rw [replace_cons_of_ne hk, ih h]

theorem replace_replace (key : String) (v w : Value) (ms : Members) :
    replace key w (replace key v ms) = replace key w ms := by
  induction ms with
  | nil => rfl
  | cons m ms ih =>
    obtain ⟨k, c⟩ := m
    by_cases h : k = key
    · subst h
      simp [replace_cons_self]
    · simp [replace_cons_of_ne h, ih]

/-- The lookup for an exchange finds the member that the lookup for reading finds. -/
theorem focus?_eq (key : String) (ms : Members) :
    focus? key ms = (ms.lookup key).map fun v => (v, fun w => replace key w ms) := by
  induction ms with
  | nil => rfl
  | cons m ms ih =>
    obtain ⟨k, c⟩ := m
    by_cases h : k = key
    · subst h
      simp [focus?, replace_cons_self]
    · rw [lookup_cons_of_ne (Ne.symm h)]
      simp [focus?, h, ih, replace_cons_of_ne h, Function.comp_def]

/-- With distinct names, a lookup finds the member of that name. -/
theorem lookup_eq_some_of_mem (names : (ms.map (·.1)).Nodup) (h : (key, v) ∈ ms) :
    ms.lookup key = some v := by
  induction ms with
  | nil => simp at h
  | cons m ms ih =>
    obtain ⟨k, c⟩ := m
    simp only [List.map_cons, List.nodup_cons] at names
    rcases List.mem_cons.mp h with h | h
    · cases h
      simp
    · have hm : key ∈ ms.map (·.1) := List.mem_map_of_mem h
      have hk : key ≠ k := fun e => names.1 (e ▸ hm)
      rw [lookup_cons_of_ne hk, ih names.2 h]

theorem mem_of_lookup_eq_some (h : ms.lookup key = some v) : (key, v) ∈ ms := by
  induction ms with
  | nil => simp at h
  | cons m ms ih =>
    obtain ⟨k, c⟩ := m
    by_cases hk : key = k
    · subst hk
      obtain rfl : c = v := by simpa using h
      exact List.mem_cons_self
    · rw [lookup_cons_of_ne hk] at h
      exact List.mem_cons_of_mem _ (ih h)

theorem mem_replace {m : String × Value} (h : m ∈ replace key v ms) :
    m = (key, v) ∨ m ∈ ms := by
  induction ms with
  | nil => simp [replace] at h
  | cons n ms ih =>
    obtain ⟨k, c⟩ := n
    by_cases hk : k = key
    · subst hk
      rw [replace_cons_self] at h
      rcases List.mem_cons.mp h with h | h
      · exact Or.inl h
      · exact Or.inr (List.mem_cons_of_mem _ h)
    · rw [replace_cons_of_ne hk] at h
      rcases List.mem_cons.mp h with h | h
      · exact Or.inr (h ▸ List.mem_cons_self)
      · rcases ih h with h | h
        · exact Or.inl h
        · exact Or.inr (List.mem_cons_of_mem _ h)

theorem insert_of_not_mem (h : key ∉ ms.map (·.1)) : insert key v ms = ms ++ [(key, v)] := by
  rw [insert, if_neg (mt any_name_iff.mp h)]

/-- Pairs of distinct names are members as they stand. -/
theorem ofPairs_of_nodup (h : (ms.map (·.1)).Nodup) : ofPairs ms = ms := by
  have build : ∀ before : Members, ((before ++ ms).map (·.1)).Nodup →
      ms.foldl (fun ms p => insert p.1 p.2 ms) before = before ++ ms := by
    clear h
    induction ms with
    | nil => intro before _; exact (List.append_nil before).symm
    | cons m ms ih =>
      intro before h
      obtain ⟨k, v⟩ := m
      have hfresh : k ∉ before.map (·.1) := by
        intro hmem
        rw [List.map_append] at h
        exact (List.nodup_append.mp h).2.2 k hmem k List.mem_cons_self rfl
      rw [List.foldl_cons, insert_of_not_mem hfresh, ih _ (by simpa using h)]
      simp
  exact build [] h

end DocPath.Members

namespace DocPath.KeyedKind

variable {key : String} {ms : Members}

/-- A name that is there is found as it is written. -/
theorem resolve?_of_mem (kind : KeyedKind) (h : key ∈ ms.map (·.1)) :
    kind.resolve? ms key = some key := by
  have hany := Members.any_name_iff.mpr h
  cases kind <;> simp only [resolve?, hany, if_true]

/-- What a lookup ends at is the name of a member. -/
theorem mem_of_resolve? {kind : KeyedKind} {name : String}
    (h : kind.resolve? ms key = some name) : name ∈ ms.map (·.1) := by
  cases kind with
  | table =>
    simp only [resolve?] at h
    split at h
    · cases h
      exact Members.any_name_iff.mp ‹_›
    · cases h
  | record =>
    simp only [resolve?] at h
    split at h
    · cases h
      exact Members.any_name_iff.mp ‹_›
    · obtain ⟨m, hm, rfl⟩ := Option.map_eq_some_iff.mp h
      exact List.mem_map_of_mem (List.mem_of_find?_eq_some hm)

/-- Lookups depend on the names alone. -/
theorem resolve?_congr (kind : KeyedKind) {ms ns : Members}
    (h : ms.map (·.1) = ns.map (·.1)) (key : String) :
    kind.resolve? ms key = kind.resolve? ns key := by
  have hany : ms.any (·.1 == key) = ns.any (·.1 == key) := by
    rw [Bool.eq_iff_iff, Members.any_name_iff, Members.any_name_iff, h]
  have hfind : ∀ p : String → Bool, (ms.find? fun m => p m.1).map (·.1) =
      (ns.find? fun m => p m.1).map (·.1) := by
    intro p
    have hm : ∀ l : Members, (l.find? fun m => p m.1).map (·.1) = (l.map (·.1)).find? p := by
      intro l
      rw [List.find?_map]
      rfl
    rw [hm, hm, h]
  cases kind with
  | table => simp only [resolve?, hany]
  | record => simp only [resolve?, hany, hfind fun name => sameNameIgnoringCase name key]

end DocPath.KeyedKind
