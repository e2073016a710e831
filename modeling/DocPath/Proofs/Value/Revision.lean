import DocPath.Proofs.Value.Formed

/-!
# Revising children

A revision goes through the children of an object or an array, keeps some, exchanges others
and leaves the rest out. To exchange one child is a revision, and two revisions of which the
first leaves nothing out are one.
-/

namespace DocPath

theorem zipIdx_map_zipIdx {α β : Type} (xs : List α) (g : α × Nat → β) :
    (xs.zipIdx.map g).zipIdx = xs.zipIdx.map fun p => (g p, p.2) := by
  refine List.ext_getElem (by simp) fun i h _ => ?_
  simp

namespace Value

/-- The container with its children revised, each with its step. -/
def revise (g : Step → Value → Option Value) : Value → Value
  | .array items => .array (items.zipIdx.filterMap fun p => g (.index p.2) p.1)
  | .object ms => .object (ms.filterMap fun m => (g (.key m.1) m.2).map (m.1, ·))
  | v => v

def reviseAll (g : Step → Value → Value) (v : Value) : Value := v.revise fun s c => some (g s c)

variable {v v' c w : Value} {s : Step} {g h : Step → Value → Option Value}
  {f : Step → Value → Value} {kinds : Kind → Bool}

theorem reviseAll_array (items : List Value) :
    (array items).reviseAll f = .array (items.zipIdx.map fun p => f (.index p.2) p.1) := by
  rw [reviseAll, revise, ← List.filterMap_eq_map]
  rfl

theorem reviseAll_object (ms : Members) :
    (object ms).reviseAll f = .object (ms.map fun m => (m.1, f (.key m.1) m.2)) := by
  rw [reviseAll, revise, ← List.filterMap_eq_map]
  rfl

theorem revise_congr (hgh : ∀ e ∈ v.entries, g e.1 e.2 = h e.1 e.2) :
    v.revise g = v.revise h := by
  cases v with
  | array items =>
    rw [revise, revise]
    congr 1
    refine List.filterMap_congr fun p hp => ?_
    exact hgh (.index p.2, p.1) (List.mem_map_of_mem (f := fun p => (Step.index p.2, p.1)) hp)
  | object ms =>
    rw [revise, revise]
    congr 1
    refine List.filterMap_congr fun m hm => ?_
    rw [hgh (.key m.1, m.2) (List.mem_map_of_mem (f := fun m => (Step.key m.1, m.2)) hm)]
  | _ => rfl

theorem reviseAll_congr {f' : Step → Value → Value}
    (h : ∀ e ∈ v.entries, f e.1 e.2 = f' e.1 e.2) : v.reviseAll f = v.reviseAll f' :=
  revise_congr fun e he => congrArg some (h e he)

/-- A revision that keeps every child as it is changes nothing. -/
theorem reviseAll_id (v : Value) : (v.reviseAll fun _ c => c) = v := by
  cases v with
  | array items => rw [reviseAll_array, List.zipIdx_map_fst]
  | object ms => rw [reviseAll_object, List.map_id']
  | _ => rfl

theorem revise_kind (g : Step → Value → Option Value) (v : Value) : (v.revise g).kind = v.kind := by
  cases v <;> rfl

theorem isContainer_revise (g : Step → Value → Option Value) (v : Value) :
    (v.revise g).isContainer = v.isContainer := by
  cases v <;> rfl

theorem reviseAll_revise (v : Value) :
    (v.reviseAll f).revise g = v.revise fun s c => g s (f s c) := by
  cases v with
  | array items =>
    rw [reviseAll_array, revise, revise, zipIdx_map_zipIdx, List.filterMap_map]
    rfl
  | object ms =>
    rw [reviseAll_object, revise, revise, List.filterMap_map]
    rfl
  | _ => rfl

theorem reviseAll_reviseAll (f' : Step → Value → Value) (v : Value) :
    (v.reviseAll f).reviseAll f' = v.reviseAll fun s c => f' s (f s c) :=
  reviseAll_revise v

theorem reviseAll_entries (hk : v.kind.isJson) :
    (v.reviseAll f).entries = v.entries.map fun e => (e.1, f e.1 e.2) := by
  cases v with
  | array items =>
    rw [reviseAll_array, entries, entries, zipIdx_map_zipIdx, List.map_map, List.map_map]
    rfl
  | object ms =>
    rw [reviseAll_object, entries, entries, List.map_map, List.map_map]
    rfl
  | keyed kind ms | slots refused items => cases hk
  | _ => rfl

theorem lookup_map_members (ms : Members) (key : String) :
    (ms.map fun m => (m.1, f (.key m.1) m.2)).lookup key =
      (ms.lookup key).map (f (.key key)) := by
  induction ms with
  | nil => rfl
  | cons m ms ih =>
    obtain ⟨k, c⟩ := m
    by_cases hk : key = k
    · subst hk
      simp
    · rw [List.map_cons, Members.lookup_cons_of_ne hk, Members.lookup_cons_of_ne hk, ih]

theorem step?_reviseAll (hk : v.kind.isJson) (s : Step) :
    (v.reviseAll f).step? s = (v.step? s).map (f s) := by
  cases v with
  | array items =>
    rw [reviseAll_array]
    cases s with
    | key name => rfl
    | index i => simp [step?, Function.comp_def]
  | object ms =>
    rw [reviseAll_object]
    cases s with
    | key name => exact lookup_map_members ms name
    | index i => rfl
  | keyed kind ms | slots refused items => cases hk
  | _ => cases s <;> rfl

theorem mem_children_revise (hk : v.kind.isJson) (hc : c ∈ (v.revise g).children) :
    ∃ e ∈ v.entries, g e.1 e.2 = some c := by
  cases v with
  | array items =>
    obtain ⟨p, hp, hg⟩ := List.mem_filterMap.mp hc
    exact ⟨(.index p.2, p.1), List.mem_map_of_mem (f := fun p => (Step.index p.2, p.1)) hp, hg⟩
  | object ms =>
    obtain ⟨n, hn, rfl⟩ := List.mem_map.mp hc
    obtain ⟨m, hm, hg⟩ := List.mem_filterMap.mp hn
    obtain ⟨w, hw, rfl⟩ := Option.map_eq_some_iff.mp hg
    exact ⟨(.key m.1, m.2), List.mem_map_of_mem (f := fun m => (Step.key m.1, m.2)) hm, hw⟩
  | keyed kind ms | slots refused items => cases hk
  | _ => cases hc

theorem revise_names_sublist (v : Value) : (v.revise g).names.Sublist v.names := by
  cases v with
  | object ms =>
    simp only [revise, names]
    induction ms with
    | nil => exact List.Sublist.refl _
    | cons m ms ih =>
      rw [List.filterMap_cons]
      cases g (.key m.1) m.2 with
      | none => exact ih.cons m.1
      | some w => exact ih.cons_cons m.1
  | _ => exact List.Sublist.refl _

theorem Plain.revise (hv : v.Plain) (hg : ∀ e ∈ v.entries, ∀ w, g e.1 e.2 = some w → w.Plain) :
    (v.revise g).Plain := by
  obtain ⟨hk, hn, -⟩ := formed_iff.mp hv
  refine formed_iff.mpr ⟨revise_kind g v ▸ hk, hn.sublist (revise_names_sublist v),
    fun c hc => ?_⟩
  obtain ⟨e, he, hw⟩ := mem_children_revise hk hc
  exact hg e he c hw

theorem replace_eq_map {key : String} {ms : Members} (hn : (ms.map (·.1)).Nodup) (w : Value) :
    Members.replace key w ms = ms.map fun m => (m.1, if m.1 = key then w else m.2) := by
  induction ms with
  | nil => rfl
  | cons m ms ih =>
    obtain ⟨k, c⟩ := m
    obtain ⟨hk, hn⟩ := List.nodup_cons.mp hn
    by_cases h : k = key
    · subst h
      have others : ∀ m ∈ ms, (m.1, if m.1 = k then w else m.2) = m := by
        intro m hm
        have hne : m.1 ≠ k := fun e => hk (e ▸ List.mem_map_of_mem (f := (·.1)) hm)
        rw [if_neg hne]
      rw [Members.replace_cons_self, List.map_cons, if_pos rfl,
        List.map_congr_left others, List.map_id']
    · rw [Members.replace_cons_of_ne h, List.map_cons, ih hn, if_neg h]

/-- Exchanging a child is a revision. -/
theorem putStep?_eq_reviseAll (hk : v.kind.isJson) (hn : v.names.Nodup)
    (h : v.putStep? s w = some v') : v' = v.reviseAll fun t c => if t = s then w else c := by
  cases putStep?_eq_some_iff.mp h with
  | @member ms name w hm =>
    rw [reviseAll_object, replace_eq_map hn]
    simp only [Step.key.injEq]
  | @element items i w hi =>
    rw [reviseAll_array, Value.array.injEq]
    refine List.ext_getElem (by simp) fun j hj _ => ?_
    simp [List.getElem_set, eq_comm]
  | field | slot => cases hk

theorem mem_entries_of_step? (hk : v.kind.isJson) (h : v.step? s = some c) :
    (s, c) ∈ v.entries := by
  cases step?_eq_some_iff.mp h with
  | member hl =>
    exact List.mem_map_of_mem (f := fun m : String × Value => (Step.key m.1, m.2))
      (Members.mem_of_lookup_eq_some hl)
  | @element items i c hi =>
    have hmem : (c, i) ∈ items.zipIdx := List.mem_zipIdx_iff_getElem?.mpr hi
    exact List.mem_map_of_mem (f := fun p : Value × Nat => (Step.index p.2, p.1)) hmem
  | field | slot => cases hk

end Value
end DocPath
