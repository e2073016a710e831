import DocPath.Proofs.Value.Members
import DocPath.Proofs.Value.Tree

/-!
# Reading and exchanging nodes

An exchange of one node of a document is described by what lookups find afterwards: the new
value at its own location, the same values as before at locations that part from it, and
the same steps at every container on the way.
-/

namespace DocPath.Value

variable {v v' c w : Value} {s t : Step}

def steps (v : Value) : List Step := v.entries.map (·.1)

def names : Value → List String
  | .object ms | .keyed _ ms => ms.map (·.1)
  | _ => []

theorem steps_eq (v : Value) :
    v.steps = if v.isOrdered then (List.range v.children.length).map .index
      else v.names.map .key := by
  cases v with
  | array items | slots refused items =>
    have h : (items.zipIdx.map Prod.snd).map Step.index =
        (List.range items.length).map Step.index := by
      rw [List.zipIdx_map_snd, List.range_eq_range']
    rw [List.map_map] at h
    simp only [steps, entries, isOrdered, children, if_true, List.map_map]
    exact h
  | _ => simp [steps, entries, names, isOrdered]

/-- Distinct names make distinct steps. -/
theorem steps_nodup (h : v.names.Nodup) : v.steps.Nodup := by
  rw [steps_eq]
  split
  · exact List.nodup_range.map fun _ _ h => by simpa using h
  · exact h.map fun _ _ h => by simpa using h

/-- With distinct names, a step leads to the child it was listed with. -/
theorem step?_of_mem_entries (h : v.names.Nodup) (he : (s, c) ∈ v.entries) :
    v.step? s = some c := by
  cases v with
  | array items | slots refused items =>
    simp only [entries, List.mem_map, Prod.mk.injEq] at he
    obtain ⟨p, hp, rfl, rfl⟩ := he
    exact (List.mem_zipIdx_iff_getElem?.mp hp)
  | object ms =>
    simp only [entries, List.mem_map, Prod.mk.injEq] at he
    obtain ⟨m, hm, rfl, rfl⟩ := he
    exact Members.lookup_eq_some_of_mem h hm
  | keyed kind ms =>
    simp only [entries, List.mem_map, Prod.mk.injEq] at he
    obtain ⟨m, hm, rfl, rfl⟩ := he
    have hk := kind.resolve?_of_mem (List.mem_map_of_mem (f := (·.1)) hm)
    simp only [step?, getKey?, hk, Option.bind_some]
    exact Members.lookup_eq_some_of_mem h hm
  | _ => cases he

/-- With distinct names, no two entries have one step. -/
theorem eq_of_mem_entries {e e' : Step × Value} (h : v.names.Nodup) (he : e ∈ v.entries)
    (he' : e' ∈ v.entries) (hs : e'.1 = e.1) : e' = e := by
  have hstep := step?_of_mem_entries h he'
  rw [hs, step?_of_mem_entries h he] at hstep
  exact Prod.ext hs (Option.some.inj hstep).symm

inductive IsChild : Value → Step → Value → Prop where
  | member {ms : Members} {name : String} {c : Value} (h : ms.lookup name = some c) :
    IsChild (.object ms) (.key name) c
  | field {kind : KeyedKind} {ms : Members} {key name : String} {c : Value}
    (found : kind.resolve? ms key = some name) (h : ms.lookup name = some c) :
    IsChild (.keyed kind ms) (.key key) c
  | element {items : List Value} {i : Nat} {c : Value} (h : items[i]? = some c) :
    IsChild (.array items) (.index i) c
  | slot {refused : List ValueType} {items : List Value} {i : Nat} {c : Value}
    (h : items[i]? = some c) : IsChild (.slots refused items) (.index i) c

inductive IsExchange : Value → Step → Value → Value → Prop where
  | member {ms : Members} {name : String} {w : Value} (h : name ∈ ms.map (·.1)) :
    IsExchange (.object ms) (.key name) w (.object (Members.replace name w ms))
  | field {kind : KeyedKind} {ms : Members} {key name : String} {w : Value}
    (found : kind.resolve? ms key = some name) :
    IsExchange (.keyed kind ms) (.key key) w (.keyed kind (Members.replace name w ms))
  | element {items : List Value} {i : Nat} {w : Value} (h : i < items.length) :
    IsExchange (.array items) (.index i) w (.array (items.set i w))
  | slot {refused : List ValueType} {items : List Value} {i : Nat} {w : Value}
    (h : i < items.length) :
    IsExchange (.slots refused items) (.index i) w (.slots refused (items.set i w))

theorem step?_eq_some_iff : v.step? s = some c ↔ IsChild v s c := by
  constructor
  · intro h
    cases v with
    | array items => cases s <;> first | cases h | exact .element h
    | slots refused items => cases s <;> first | cases h | exact .slot h
    | object ms => cases s <;> first | cases h | exact .member h
    | keyed kind ms =>
      cases s with
      | index i => cases h
      | key key =>
        obtain ⟨name, hn, hl⟩ := Option.bind_eq_some_iff.mp h
        exact .field hn hl
    | _ => cases s <;> cases h
  · intro h
    cases h with
    | member h | element h | slot h => exact h
    | field found h => exact Option.bind_eq_some_iff.mpr ⟨_, found, h⟩

/-- What is taken out for an exchange is the child that the step leads to, and what is put back
is exchanged for it. -/
theorem isExchange_of_focus? {f : Focus} (h : v.focus? s = some f) :
    IsChild v s f.child ∧ ∀ w, IsExchange v s w (f.fill w) := by
  cases v with
  | array items | slots refused items =>
    cases s with
    | key key => cases h
    | index i =>
      obtain ⟨hi, hf⟩ := Option.dite_none_right_eq_some.mp h
      obtain rfl := Option.some.inj hf
      constructor
      · constructor
        exact List.getElem?_eq_getElem hi
      · intro w
        constructor
        exact hi
  | object ms =>
    cases s with
    | index i => cases h
    | key name =>
      obtain ⟨m, hm, rfl⟩ := Option.map_eq_some_iff.mp h
      rw [Members.focus?_eq] at hm
      obtain ⟨c, hc, rfl⟩ := Option.map_eq_some_iff.mp hm
      have hn := Members.lookup_isSome_iff.mp (Option.isSome_of_eq_some hc)
      exact ⟨.member hc, fun _ => .member hn⟩
  | keyed kind ms =>
    cases s with
    | index i => cases h
    | key key =>
      obtain ⟨name, hn, h⟩ := Option.bind_eq_some_iff.mp h
      obtain ⟨m, hm, rfl⟩ := Option.map_eq_some_iff.mp h
      rw [Members.focus?_eq] at hm
      obtain ⟨c, hc, rfl⟩ := Option.map_eq_some_iff.mp hm
      exact ⟨.field hn hc, fun _ => .field hn⟩
  | _ => cases s <;> cases h

theorem exists_focus? (h : IsExchange v s w v') : ∃ f, v.focus? s = some f ∧ f.fill w = v' := by
  cases h with
  | member hn =>
    obtain ⟨c, hc⟩ := Option.isSome_iff_exists.mp (Members.lookup_isSome_iff.mpr hn)
    exact ⟨_, by simp only [focus?, focusKey?, Members.focus?_eq, hc, Option.map_some]; rfl, rfl⟩
  | field found =>
    have hn := Members.lookup_isSome_iff.mpr (KeyedKind.mem_of_resolve? found)
    obtain ⟨c, hc⟩ := Option.isSome_iff_exists.mp hn
    exact ⟨_, by
      simp only [focus?, focusKey?, found, Members.focus?_eq, hc, Option.bind_some,
        Option.map_some]
      rfl, rfl⟩
  | element hi | slot hi => exact ⟨_, dif_pos hi, rfl⟩

theorem putStep?_eq_some_iff : v.putStep? s w = some v' ↔ IsExchange v s w v' := by
  constructor
  · intro h
    obtain ⟨f, hf, rfl⟩ := Option.map_eq_some_iff.mp h
    exact (isExchange_of_focus? hf).2 w
  · intro h
    obtain ⟨f, hf, rfl⟩ := exists_focus? h
    exact Option.map_eq_some_iff.mpr ⟨f, hf, rfl⟩

theorem mem_children_of_step? (h : v.step? s = some c) : c ∈ v.children := by
  cases step?_eq_some_iff.mp h with
  | member h | field _ h =>
    exact List.mem_map_of_mem (f := (·.2)) (Members.mem_of_lookup_eq_some h)
  | element h | slot h => exact List.mem_of_getElem? h

theorem exists_putStep? (h : v.step? s = some c) (w : Value) :
    ∃ v', v.putStep? s w = some v' := by
  cases step?_eq_some_iff.mp h with
  | member h =>
    have hn := Members.lookup_isSome_iff.mp (Option.isSome_of_eq_some h)
    exact ⟨_, putStep?_eq_some_iff.mpr (.member hn)⟩
  | field found h => exact ⟨_, putStep?_eq_some_iff.mpr (.field found)⟩
  | element h =>
    exact ⟨_, putStep?_eq_some_iff.mpr (.element (List.getElem?_eq_some_iff.mp h).1)⟩
  | slot h => exact ⟨_, putStep?_eq_some_iff.mpr (.slot (List.getElem?_eq_some_iff.mp h).1)⟩

/-- A child that can be exchanged is there. -/
theorem exists_step? (h : v.putStep? s w = some v') : ∃ c, v.step? s = some c := by
  cases putStep?_eq_some_iff.mp h with
  | member hn =>
    obtain ⟨c, hc⟩ := Option.isSome_iff_exists.mp (Members.lookup_isSome_iff.mpr hn)
    exact ⟨c, step?_eq_some_iff.mpr (.member hc)⟩
  | field found =>
    obtain ⟨c, hc⟩ := Option.isSome_iff_exists.mp
      (Members.lookup_isSome_iff.mpr (KeyedKind.mem_of_resolve? found))
    exact ⟨c, step?_eq_some_iff.mpr (.field found hc)⟩
  | element hi => exact ⟨_, step?_eq_some_iff.mpr (.element (List.getElem?_eq_getElem hi))⟩
  | slot hi => exact ⟨_, step?_eq_some_iff.mpr (.slot (List.getElem?_eq_getElem hi))⟩

theorem step?_putStep?_self (h : v.putStep? s w = some v') : v'.step? s = some w := by
  rw [step?_eq_some_iff]
  cases putStep?_eq_some_iff.mp h with
  | member hn => exact .member (Members.lookup_replace_self hn)
  | @field kind ms key name w found =>
    have found' := (kind.resolve?_congr (Members.replace_names name w ms) key).trans found
    exact .field found' (Members.lookup_replace_self (KeyedKind.mem_of_resolve? found))
  | element hi => exact .element (List.getElem?_set_self hi)
  | slot hi => exact .slot (List.getElem?_set_self hi)

/-- Steps to different children do not disturb each other. -/
theorem step?_putStep?_of_ne (h : v.putStep? s w = some v') (hs : s ∈ v.steps)
    (ht : t ∈ v.steps) (hne : t ≠ s) : v'.step? t = v.step? t := by
  cases putStep?_eq_some_iff.mp h with
  | member =>
    cases t with
    | index j => rfl
    | key other => exact Members.lookup_replace_of_ne fun e => hne (e ▸ rfl)
  | @field kind ms key name w found =>
    cases t with
    | index j => rfl
    | key other =>
      -- both names are exact, so that each finds its own field
      have hs' : key ∈ ms.map (·.1) := by simpa [steps_eq, names, isOrdered] using hs
      have ht' : other ∈ ms.map (·.1) := by simpa [steps_eq, names, isOrdered] using ht
      have hkey := Option.some.inj (found.symm.trans (kind.resolve?_of_mem hs'))
      have hr : kind.resolve? (Members.replace name w ms) other = some other :=
        (kind.resolve?_congr (Members.replace_names name w ms) other).trans
          (kind.resolve?_of_mem ht')
      simp only [step?, getKey?, hr, kind.resolve?_of_mem ht', Option.bind_some]
      exact Members.lookup_replace_of_ne fun e => hne (by rw [e, hkey])
  | @element items i | @slot refused items i =>
    cases t with
    | key other => rfl
    | index j =>
      have hij : i ≠ j := fun e => hne (e ▸ rfl)
      simp [step?, hij]

theorem putStep?_step? (h : v.step? s = some c) : v.putStep? s c = some v := by
  rw [putStep?_eq_some_iff]
  cases step?_eq_some_iff.mp h with
  | @member ms name c h =>
    have hn := Members.lookup_isSome_iff.mp (Option.isSome_of_eq_some h)
    simpa [Members.replace_lookup h] using IsExchange.member (w := c) hn
  | @field kind ms key name c found h =>
    simpa [Members.replace_lookup h] using IsExchange.field (w := c) found
  | @element items i c h =>
    obtain ⟨hi, rfl⟩ := List.getElem?_eq_some_iff.mp h
    have hput := IsExchange.element (w := items[i]) hi
    rwa [List.set_getElem_self] at hput
  | @slot refused items i c h =>
    obtain ⟨hi, rfl⟩ := List.getElem?_eq_some_iff.mp h
    have hput : IsExchange (.slots refused items) (.index i) items[i] _ := .slot hi
    rwa [List.set_getElem_self] at hput

/-- Of two exchanges of one child only the later one counts. -/
theorem putStep?_putStep? (h : v.putStep? s c = some v') (w : Value) :
    v'.putStep? s w = v.putStep? s w := by
  obtain ⟨v'', hv⟩ := exists_putStep? (step?_putStep?_self h) w
  have hold := hv
  rw [hv, eq_comm, putStep?_eq_some_iff]
  cases putStep?_eq_some_iff.mp h with
  | member hn =>
    cases putStep?_eq_some_iff.mp hold
    rw [Members.replace_replace]
    exact .member hn
  | @field kind ms key name _ found =>
    cases putStep?_eq_some_iff.mp hold with
    | field found' =>
      rw [kind.resolve?_congr (Members.replace_names name c ms), found] at found'
      cases found'
      rw [Members.replace_replace]
      exact .field found
  | element hi =>
    cases putStep?_eq_some_iff.mp hold
    rw [List.set_set]
    exact .element hi
  | slot hi =>
    cases putStep?_eq_some_iff.mp hold
    rw [List.set_set]
    exact .slot hi

variable {d d' : Value} {l m : Location}

theorem pointer?_append (d : Value) (l m : Location) :
    d.pointer? (l ++ m) = (d.pointer? l).bind (·.pointer? m) := by
  induction l generalizing d with
  | nil => rfl
  | cons s l ih =>
    simp only [List.cons_append, pointer?]
    cases d.step? s with
    | none => rfl
    | some c => exact ih c

theorem pointer?_snoc (d : Value) (l : Location) (s : Step) :
    d.pointer? (l ++ [s]) = (d.pointer? l).bind (·.step? s) := by
  rw [pointer?_append]
  congr 1
  funext v
  simp [pointer?]

theorem pointer?_snoc_of_step? (hl : d.pointer? l = some v) (hs : v.step? s = some c) :
    d.pointer? (l ++ [s]) = some c := by
  rw [pointer?_snoc, hl, Option.bind_some, hs]

@[simp] theorem put?_nil (d w : Value) : d.put? [] w = some w := rfl

/-- A node is exchanged by exchanging the children on the way to it. -/
theorem put?_cons (d : Value) (s : Step) (l : Location) (w : Value) :
    d.put? (s :: l) w =
      (d.step? s).bind fun c => (c.put? l w).bind fun c' => d.putStep? s c' := by
  cases hf : d.focus? s with
  | none =>
    have hs : d.step? s = none := by
      by_contra hne
      obtain ⟨c, hc⟩ := Option.ne_none_iff_exists'.mp hne
      obtain ⟨v', hv'⟩ := exists_putStep? hc c
      simp [putStep?, hf] at hv'
    simp [put?, focusAt?, hf, hs]
  | some f =>
    have hs := step?_eq_some_iff.mpr (isExchange_of_focus? hf).1
    simp only [put?, focusAt?, putStep?, hf, hs, Option.bind_some, Option.map_some, Option.map_map]
    cases f.child.focusAt? l <;> rfl

theorem exists_put? (h : d.pointer? l = some v) (w : Value) : ∃ d', d.put? l w = some d' := by
  induction l generalizing d with
  | nil => exact ⟨w, rfl⟩
  | cons s l ih =>
    obtain ⟨c, hc, hv⟩ := Option.bind_eq_some_iff.mp h
    obtain ⟨c', hc'⟩ := ih hv
    obtain ⟨d', hd'⟩ := exists_putStep? hc c'
    exact ⟨d', by simp [put?_cons, hc, hc', hd']⟩

/-- A location that can be written to is there. -/
theorem exists_pointer? (h : d.put? l w = some d') : ∃ v, d.pointer? l = some v := by
  induction l generalizing d d' with
  | nil => exact ⟨d, rfl⟩
  | cons s l ih =>
    rw [put?_cons] at h
    obtain ⟨c, hc, h⟩ := Option.bind_eq_some_iff.mp h
    obtain ⟨c', hc', -⟩ := Option.bind_eq_some_iff.mp h
    obtain ⟨v, hv⟩ := ih hc'
    exact ⟨v, by simp [pointer?, hc, hv]⟩

theorem pointer?_put? (h : d.put? l w = some d') : d'.pointer? l = some w := by
  induction l generalizing d d' with
  | nil =>
    cases h
    rfl
  | cons s l ih =>
    rw [put?_cons] at h
    obtain ⟨c, hc, h⟩ := Option.bind_eq_some_iff.mp h
    obtain ⟨c', hc', h⟩ := Option.bind_eq_some_iff.mp h
    simp [pointer?, step?_putStep?_self h, ih hc']

theorem put?_pointer? (h : d.pointer? l = some v) : d.put? l v = some d := by
  induction l generalizing d with
  | nil =>
    cases h
    rfl
  | cons s l ih =>
    obtain ⟨c, hc, hv⟩ := Option.bind_eq_some_iff.mp h
    simp [put?_cons, hc, ih hv, putStep?_step? hc]

/-- Of two exchanges at one location only the later one counts. -/
theorem put?_put? (h : d.put? l v = some d') (w : Value) : d'.put? l w = d.put? l w := by
  induction l generalizing d d' with
  | nil => rfl
  | cons s l ih =>
    rw [put?_cons] at h
    obtain ⟨c, hc, h⟩ := Option.bind_eq_some_iff.mp h
    obtain ⟨c', hc', h⟩ := Option.bind_eq_some_iff.mp h
    simp [put?_cons, step?_putStep?_self h, hc, ih hc', putStep?_putStep? h]

/-- An exchange further down is an exchange of the node on the way. -/
theorem put?_append (h : d.pointer? l = some v) (m : Location) (w : Value) :
    d.put? (l ++ m) w = (v.put? m w).bind (d.put? l) := by
  induction l generalizing d with
  | nil =>
    obtain rfl := Option.some.inj h
    rw [List.nil_append]
    cases d.put? m w <;> rfl
  | cons s l ih =>
    obtain ⟨c, hc, hv⟩ := Option.bind_eq_some_iff.mp h
    have through (w' : Value) :
        d.put? (s :: l) w' = (c.put? l w').bind fun c' => d.putStep? s c' := by
      rw [put?_cons, hc, Option.bind_some]
    rw [List.cons_append, put?_cons, hc, Option.bind_some, ih hv]
    cases v.put? m w with
    | none => rfl
    | some v' => exact (through v').symm

theorem put?_singleton (v : Value) (s : Step) (w : Value) : v.put? [s] w = v.putStep? s w := by
  simp only [put?, focusAt?, putStep?, Option.map_bind, Option.map_some]
  cases v.focus? s <;> rfl

theorem put?_snoc (h : d.pointer? l = some v) (s : Step) (w : Value) :
    d.put? (l ++ [s]) w = (v.putStep? s w).bind (d.put? l) := by
  rw [put?_append h, put?_singleton]

/-- At most the node at a location has been exchanged. -/
def ChangedAt (l : Location) (d d' : Value) : Prop := d' = d ∨ ∃ w, d.put? l w = some d'

theorem ChangedAt.refl (l : Location) (d : Value) : ChangedAt l d d := Or.inl rfl

theorem ChangedAt.trans {d'' : Value} (h : ChangedAt l d d') (h' : ChangedAt l d' d'') :
    ChangedAt l d d'' := by
  rcases h with rfl | ⟨w, hw⟩
  · exact h'
  rcases h' with rfl | ⟨u, hu⟩
  · exact Or.inr ⟨w, hw⟩
  · exact Or.inr ⟨u, put?_put? hw u ▸ hu⟩

/-- A change of a child is a change of its container, in which the other children are as
they were. -/
theorem ChangedAt.parent (h : ChangedAt (l ++ [s]) d d') (hv : d.pointer? l = some v) :
    ∃ v', d'.pointer? l = some v' ∧ d.put? l v' = some d' ∧
      (v' = v ∨ ∃ w, v.putStep? s w = some v') := by
  rcases h with rfl | ⟨w, hw⟩
  · exact ⟨v, hv, put?_pointer? hv, Or.inl rfl⟩
  · rw [put?_snoc hv] at hw
    obtain ⟨v', hv', hput⟩ := Option.bind_eq_some_iff.mp hw
    exact ⟨v', pointer?_put? hput, hput, Or.inr ⟨w, hv'⟩⟩

theorem ChangedAt.of_snoc (h : ChangedAt (l ++ [s]) d d') : ChangedAt l d d' := by
  cases hv : d.pointer? l with
  | some v =>
    obtain ⟨v', -, hput, -⟩ := h.parent hv
    exact Or.inr ⟨v', hput⟩
  | none =>
    rcases h with rfl | ⟨w, hw⟩
    · exact .refl l _
    · obtain ⟨c, hc⟩ := exists_pointer? hw
      simp [pointer?_snoc, hv] at hc

end DocPath.Value
