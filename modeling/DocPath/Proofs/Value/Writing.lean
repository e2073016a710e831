import DocPath.Proofs.Value.Revision

/-!
# Writing one child

What a container is after one of its children has been written, told by what the steps lead
to. A value that is written may be anything, so that documents are taken to be plain down to
a given depth only.
-/

namespace DocPath.Value

/-- Down to the given depth, containers have the shapes of plain JSON and distinct names. -/
def PlainTo : Nat → Value → Prop
  | 0, _ => True
  | n + 1, v => v.kind.isJson ∧ v.names.Nodup ∧ ∀ s c, v.step? s = some c → c.PlainTo n

structure Alike (v v' : Value) : Prop where
  kind : v'.kind = v.kind
  length : v.isOrdered → v'.children.length = v.children.length

variable {v v' v'' c w : Value} {s t : Step} {n : Nat}

theorem isKeyed_of_kind (h : v'.kind = v.kind) : v'.isKeyed = v.isKeyed := by
  cases v <;> cases v' <;> first | rfl | cases h

theorem isOrdered_of_kind (h : v'.kind = v.kind) : v'.isOrdered = v.isOrdered := by
  cases v <;> cases v' <;> first | rfl | cases h

theorem isContainer_of_kind (h : v'.kind = v.kind) : v'.isContainer = v.isContainer := by
  rw [isContainer, isContainer, isKeyed_of_kind h, isOrdered_of_kind h]

namespace Alike

theorem refl (v : Value) : Alike v v := ⟨rfl, fun _ => rfl⟩

theorem trans (h : Alike v v') (h' : Alike v' v'') : Alike v v'' where
  kind := h'.kind.trans h.kind
  length ho := (h'.length (isOrdered_of_kind h.kind ▸ ho)).trans (h.length ho)

end Alike

theorem Plain.plainTo (h : v.Plain) (n : Nat) : v.PlainTo n := by
  induction n generalizing v with
  | zero => trivial
  | succ n ih =>
    obtain ⟨hk, hn, -⟩ := formed_iff.mp h
    exact ⟨hk, hn, fun s c hc => ih (formed_step? h hc)⟩

/-- One value has been written to the children at some steps; nothing else has changed. -/
structure Writes (ss : List Step) (w v v' : Value) : Prop where
  alike : Alike v v'
  names : v'.names.Nodup
  step? (t : Step) : v'.step? t = if t ∈ ss then some w else v.step? t

namespace Writes

variable {ss : List Step}

theorem none (w : Value) (hn : v.names.Nodup) : Writes [] w v v := ⟨.refl v, hn, fun _ => rfl⟩

theorem cons (h : Writes [s] w v v') (h' : Writes ss w v' v'') : Writes (s :: ss) w v v'' where
  alike := h.alike.trans h'.alike
  names := h'.names
  step? t := by
    rw [h'.step?, h.step?]
    by_cases hs : t = s <;> by_cases ht : t ∈ ss <;> simp [hs, ht]

/-- What was written first is not seen any more. -/
theorem again (h : Writes [s] c v v') (h' : Writes [s] w v' v'') : Writes [s] w v v'' where
  alike := h.alike.trans h'.alike
  names := h'.names
  step? t := by
    rw [h'.step?, h.step?]
    by_cases hs : t = s <;> simp [hs]

theorem step?_self (h : Writes [s] w v v') : v'.step? s = some w := by
  rw [h.step?, if_pos List.mem_cons_self]

theorem step?_of_ne (h : Writes [s] w v v') (ht : t ≠ s) : v'.step? t = v.step? t := by
  rw [h.step?, if_neg (by simpa using ht)]

end Writes

theorem children_length_reviseAll (f : Step → Value → Value) (v : Value) :
    (v.reviseAll f).children.length = v.children.length := by
  cases v with
  | array items => simp [reviseAll_array, children]
  | object ms => simp [reviseAll_object, children]
  | _ => rfl

theorem writes_of_putStep? (hk : v.kind.isJson) (hn : v.names.Nodup)
    (h : v.putStep? s w = some v') : Writes [s] w v v' where
  alike := ⟨putStep?_kind h, fun _ => by
    rw [putStep?_eq_reviseAll hk hn h, children_length_reviseAll]⟩
  names := putStep?_names h ▸ hn
  step? t := by
    by_cases ht : t = s
    · rw [ht, if_pos List.mem_cons_self]
      exact step?_putStep?_self h
    · rw [putStep?_eq_reviseAll hk hn h, step?_reviseAll hk]
      simp [ht]

theorem lookup_append_fresh {ms : Members} {name : String} (fresh : name ∉ ms.map (·.1))
    (key : String) :
    (ms ++ [(name, w)]).lookup key = if key = name then some w else ms.lookup key := by
  induction ms with
  | nil =>
    by_cases h : key = name
    · simp [h]
    · rw [List.nil_append, Members.lookup_cons_of_ne h, if_neg h]
  | cons m ms ih =>
    obtain ⟨k, c⟩ := m
    simp only [List.map_cons, List.mem_cons, not_or] at fresh
    by_cases h : key = k
    · subst h
      simp [Ne.symm fresh.1]
    · rw [List.cons_append, Members.lookup_cons_of_ne h, Members.lookup_cons_of_ne h, ih fresh.2]

/-- A write in a plain container writes the child and nothing else. -/
theorem writes_of_writeChild (hk : v.kind.isJson) (hn : v.names.Nodup)
    (h : v.writeChild s w = .ok v') : Writes [s] w v v' := by
  rcases writeChild_cases h with hput | ⟨name, rfl, hadd⟩
  · exact writes_of_putStep? hk hn hput
  · cases hadd with
    | table => cases hk
    | @object ms name w fresh =>
      refine ⟨⟨rfl, nofun⟩, ?_, fun t => ?_⟩
      · simp only [Value.names, List.map_append, List.map_cons, List.map_nil]
        rw [List.nodup_append]
        refine ⟨hn, List.nodup_singleton _, ?_⟩
        rintro a ha b hb rfl
        exact fresh (List.mem_singleton.mp hb ▸ ha)
      · cases t with
        | index i => rfl
        | key key =>
          have hfound := lookup_append_fresh (w := w) fresh key
          simpa [Value.step?, getKey?] using hfound

/-- A plain container takes any value in the place of a child. -/
theorem writeChild_of_putStep? (hk : v.kind.isJson) (h : v.putStep? s w = some v') :
    v.writeChild s w = .ok v' := by
  cases putStep?_eq_some_iff.mp h with
  | member hn => rw [writeChild, Members.insert, if_pos (Members.any_name_iff.mpr hn)]
  | element hi => rw [writeChild, if_pos hi]
  | field | slot => cases hk

theorem PlainTo.writes {ss : List Step} (hv : v.PlainTo (n + 1)) (hw : w.PlainTo n)
    (h : Writes ss w v v') : v'.PlainTo (n + 1) := by
  obtain ⟨hk, -, hc⟩ := hv
  refine ⟨h.alike.kind ▸ hk, h.names, fun t c ht => ?_⟩
  rw [h.step?] at ht
  split at ht
  · obtain rfl := Option.some.inj ht
    exact hw
  · exact hc t c ht

end DocPath.Value
