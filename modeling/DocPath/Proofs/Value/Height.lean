import DocPath.Proofs.Value.Writing

/-!
# Removals do not make a document higher

The removal of children leaves a container with what it had, or with null instead. So it is as high
as it was or lower, and so is every container around it. A location is never longer than the
document is high.
-/

namespace DocPath.Value

variable {v v' c w d d' : Value} {s : Step} {l : Location} {n : Nat}

theorem heightItems_le_iff {vs : List Value} : heightItems vs ≤ n ↔ ∀ v ∈ vs, v.height ≤ n := by
  induction vs with
  | nil => simp [heightItems]
  | cons v vs ih => rw [heightItems, Nat.max_le, List.forall_mem_cons, ih]

theorem height_eq (v : Value) :
    v.height = if v.isContainer then heightItems v.children + 1 else 0 := by
  cases v with
  | object ms | keyed kind ms => simp [height, heightMembers_eq, isContainer, isKeyed, children]
  | _ => rfl

/-- A container is no higher than another one of its kind when none of its children is. -/
theorem height_le_of_children (hk : v'.kind = v.kind)
    (h : ∀ c' ∈ v'.children, c'.height = 0 ∨ ∃ c ∈ v.children, c'.height ≤ c.height) :
    v'.height ≤ v.height := by
  rw [height_eq, height_eq, isContainer_of_kind hk]
  split
  · refine Nat.succ_le_succ (heightItems_le_iff.mpr fun c' hc' => ?_)
    rcases h c' hc' with hzero | ⟨c, hc, hle⟩
    · exact hzero ▸ Nat.zero_le _
    · exact Nat.le_trans hle (height_le_heightItems hc)
  · exact Nat.le_refl 0

theorem height_putStep?_le (h : v.putStep? s w = some v') (hs : v.step? s = some c)
    (hle : w.height ≤ c.height) : v'.height ≤ v.height := by
  refine height_le_of_children (putStep?_kind h) fun c' hc' => ?_
  rcases mem_children_putStep? h hc' with rfl | hc'
  · exact .inr ⟨c, mem_children_of_step? hs, hle⟩
  · exact .inr ⟨c', hc', Nat.le_refl _⟩

/-- With a lower value at a location, the document is no higher. -/
theorem height_put?_le (h : d.put? l w = some d') (hv : d.pointer? l = some v)
    (hle : w.height ≤ v.height) : d'.height ≤ d.height := by
  induction l generalizing d d' with
  | nil =>
    cases h
    cases hv
    exact hle
  | cons s l ih =>
    rw [put?_cons] at h
    obtain ⟨c, hc, h⟩ := Option.bind_eq_some_iff.mp h
    obtain ⟨c', hc', h⟩ := Option.bind_eq_some_iff.mp h
    rw [pointer?, hc] at hv
    exact height_putStep?_le h hc (ih hc' hv)

/-- No location is longer than the document is high. -/
theorem length_add_height_le (h : d.pointer? l = some v) : l.length + v.height ≤ d.height := by
  induction l generalizing d with
  | nil =>
    cases h
    exact Nat.le_of_eq (Nat.zero_add _)
  | cons s l ih =>
    obtain ⟨c, hc, h⟩ := Option.bind_eq_some_iff.mp h
    have hlt := height_lt_of_mem_children (mem_children_of_step? hc)
    have hle := ih h
    rw [List.length_cons]
    omega

theorem Removal.height_le (h : Removal v v') : v'.height ≤ v.height := by
  refine height_le_of_children h.kind fun c hc => ?_
  cases h with
  | same => exact .inr ⟨c, hc, Nat.le_refl _⟩
  | cleared put =>
    rcases mem_children_putStep? put hc with rfl | hc
    · exact .inl rfl
    · exact .inr ⟨c, hc, Nat.le_refl _⟩
  | dropped _ _ children => exact .inr ⟨c, children.subset hc, Nat.le_refl _⟩

theorem height_removeChildren_le (v : Value) (steps : List Step) :
    (v.removeChildren steps).1.1.height ≤ v.height :=
  removeChildren_induction (P := fun w => w.height ≤ v.height)
    (fun _ _ h hw => Nat.le_trans h.height_le hw) (Nat.le_refl _) steps

end DocPath.Value
