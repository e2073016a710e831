import DocPath.Proofs.Value.Location
import DocPath.Value.Write

/-!
# Well-formed documents

A document is well-formed when no keyed container in it has two members of one name. Kinds
of containers that may occur are a parameter: plain documents hold JSON shapes only. Every
write and removal of a child keeps a document well-formed and within its kinds.
-/

namespace DocPath

/-- The kinds of values that are told apart by how their children are reached and written. -/
inductive Kind where
  | scalar
  | array
  | object
  | keyed (kind : KeyedKind)
  | slots (refused : List ValueType)
  deriving DecidableEq, Repr

def Kind.isJson : Kind → Bool
  | .scalar | .array | .object => true
  | _ => false

def Kind.isSlots : Kind → Bool
  | .slots _ => true
  | _ => false

namespace Value

def kind : Value → Kind
  | .array _ => .array
  | .object _ => .object
  | .keyed kind _ => .keyed kind
  | .slots refused _ => .slots refused
  | _ => .scalar

mutual

def all (p : Value → Bool) : Value → Bool
  | .array items => p (.array items) && allItems p items
  | .slots refused items => p (.slots refused items) && allItems p items
  | .object ms => p (.object ms) && allMembers p ms
  | .keyed kind ms => p (.keyed kind ms) && allMembers p ms
  | v => p v

def allItems (p : Value → Bool) : List Value → Bool
  | [] => true
  | v :: vs => v.all p && allItems p vs

def allMembers (p : Value → Bool) : List (String × Value) → Bool
  | [] => true
  | (_, v) :: ms => v.all p && allMembers p ms

end

theorem allItems_iff (p : Value → Bool) (vs : List Value) :
    allItems p vs ↔ ∀ c ∈ vs, c.all p := by
  induction vs with
  | nil => simp [allItems]
  | cons v vs ih => simp [allItems, ih]

theorem allMembers_iff (p : Value → Bool) (ms : List (String × Value)) :
    allMembers p ms ↔ ∀ c ∈ ms.map (·.2), c.all p := by
  induction ms with
  | nil => simp [allMembers]
  | cons m ms ih =>
    obtain ⟨k, v⟩ := m
    simp only [allMembers, Bool.and_eq_true, ih, List.map_cons, List.forall_mem_cons]

theorem all_iff (p : Value → Bool) (v : Value) :
    v.all p ↔ p v ∧ ∀ c ∈ v.children, c.all p := by
  cases v with
  | array items | slots refused items => simp only [all, Bool.and_eq_true, allItems_iff, children]
  | object ms | keyed kind ms => simp only [all, Bool.and_eq_true, allMembers_iff, children]
  | _ => simp [all, children]

/-- Every node is of one of the given kinds, and names are distinct in every container. -/
def formed (kinds : Kind → Bool) (v : Value) : Bool :=
  v.all fun w => kinds w.kind && decide w.names.Nodup

/-- A document whose names are distinct in every container, as the keys of a map are. -/
def WellFormed (v : Value) : Prop := v.formed fun _ => true

def Plain (v : Value) : Prop := v.formed Kind.isJson

/-- A document without sequences of fixed size, which may refuse a value that they hold. -/
def Slotless (v : Value) : Prop := v.formed fun k => !k.isSlots

instance (v : Value) : Decidable v.WellFormed := inferInstanceAs (Decidable (_ = true))

instance (v : Value) : Decidable v.Plain := inferInstanceAs (Decidable (_ = true))

instance (v : Value) : Decidable v.Slotless := inferInstanceAs (Decidable (_ = true))

variable {kinds : Kind → Bool} {v v' c w : Value} {s : Step}

theorem formed_iff :
    v.formed kinds ↔ kinds v.kind ∧ v.names.Nodup ∧ ∀ c ∈ v.children, c.formed kinds := by
  unfold formed
  rw [all_iff, Bool.and_eq_true, decide_eq_true_iff, and_assoc]

theorem formed_mono {some all : Kind → Bool} (h : ∀ k, some k → all k) :
    v.formed some → v.formed all := by
  induction v using childrenInduction with
  | step v ih =>
    intro hv
    obtain ⟨hk, hn, hc⟩ := formed_iff.mp hv
    exact formed_iff.mpr ⟨h _ hk, hn, fun c hm => ih c hm (hc c hm)⟩

theorem Plain.wellFormed (h : v.Plain) : v.WellFormed := formed_mono (fun _ _ => rfl) h

theorem Plain.slotless (h : v.Plain) : v.Slotless :=
  formed_mono (fun k hk => by cases k <;> first | rfl | cases hk) h

theorem formed_of_mem_children (h : v.formed kinds) (hc : c ∈ v.children) : c.formed kinds :=
  (formed_iff.mp h).2.2 c hc

theorem formed_step? (h : v.formed kinds) (hs : v.step? s = some c) : c.formed kinds :=
  formed_of_mem_children h (mem_children_of_step? hs)

theorem formed_pointer? {d : Value} {l : Location} (h : d.formed kinds)
    (hl : d.pointer? l = some v) : v.formed kinds := by
  induction l generalizing d with
  | nil => exact Option.some.inj hl ▸ h
  | cons s l ih =>
    obtain ⟨c, hc, hv⟩ := Option.bind_eq_some_iff.mp hl
    exact ih (formed_step? h hc) hv

theorem toRecordsItems_eq (vs : List Value) : toRecordsItems vs = vs.map toRecords := by
  induction vs with
  | nil => rfl
  | cons v vs ih => rw [toRecordsItems, ih, List.map_cons]

theorem toRecordsMembers_eq (ms : Members) :
    toRecordsMembers ms = ms.map fun m => (m.1, m.2.toRecords) := by
  induction ms with
  | nil => rfl
  | cons m ms ih =>
    obtain ⟨k, v⟩ := m
    rw [toRecordsMembers, ih, List.map_cons]

theorem Plain.slotless_toRecords (h : v.Plain) : v.toRecords.Slotless := by
  induction v using childrenInduction with
  | step v ih =>
    obtain ⟨hk, hn, hc⟩ := formed_iff.mp h
    cases v with
    | array items =>
      refine formed_iff.mpr ⟨rfl, hn, fun c hm => ?_⟩
      simp only [toRecords, toRecordsItems_eq, children, List.mem_map] at hm
      obtain ⟨w, hw, rfl⟩ := hm
      exact ih w hw (hc w hw)
    | object ms =>
      refine formed_iff.mpr ⟨rfl, ?_, fun c hm => ?_⟩
      · simpa [toRecords, toRecordsMembers_eq, names, Function.comp_def] using hn
      · simp only [toRecords, toRecordsMembers_eq, children, List.map_map, List.mem_map] at hm
        obtain ⟨m, hm, rfl⟩ := hm
        have hw := List.mem_map_of_mem (f := (·.2)) hm
        exact ih m.2 hw (hc m.2 hw)
    | keyed kind ms | slots refused items => cases hk
    | _ => rfl

/-- A plain document read as a record has no sequences of fixed size. -/
theorem slotless_of_record? {doc : Value} (h : v.Plain) (hr : v.record? = .ok doc) :
    doc.Slotless := by
  cases v with
  | object ms =>
    cases hr
    exact h.slotless_toRecords
  | _ => cases hr

theorem putStep?_kind (h : v.putStep? s w = some v') : v'.kind = v.kind := by
  cases putStep?_eq_some_iff.mp h <;> rfl

theorem putStep?_names (h : v.putStep? s w = some v') : v'.names = v.names := by
  cases putStep?_eq_some_iff.mp h with
  | member | field => exact Members.replace_names _ _ _
  | element | slot => rfl

theorem putStep?_steps (h : v.putStep? s w = some v') : v'.steps = v.steps := by
  have hn := putStep?_names h
  rw [steps_eq, steps_eq]
  cases putStep?_eq_some_iff.mp h with
  | member | field => simp [isOrdered, hn]
  | element | slot => simp [isOrdered, children]

theorem mem_children_putStep? (h : v.putStep? s w = some v') (hc : c ∈ v'.children) :
    c = w ∨ c ∈ v.children := by
  cases putStep?_eq_some_iff.mp h with
  | member | field =>
    obtain ⟨m, hm, rfl⟩ := List.mem_map.mp hc
    rcases Members.mem_replace hm with rfl | hm
    · exact Or.inl rfl
    · exact Or.inr (List.mem_map_of_mem hm)
  | element | slot => exact (List.mem_or_eq_of_mem_set hc).symm

theorem formed_putStep? (hv : v.formed kinds) (hw : w.formed kinds)
    (h : v.putStep? s w = some v') : v'.formed kinds := by
  obtain ⟨hk, hn, hc⟩ := formed_iff.mp hv
  refine formed_iff.mpr ⟨putStep?_kind h ▸ hk, putStep?_names h ▸ hn, fun c hm => ?_⟩
  rcases mem_children_putStep? h hm with rfl | hm
  · exact hw
  · exact hc c hm

theorem formed_put? {d d' : Value} {l : Location} (hd : d.formed kinds) (hw : w.formed kinds)
    (h : d.put? l w = some d') : d'.formed kinds := by
  induction l generalizing d d' with
  | nil => exact Option.some.inj h ▸ hw
  | cons s l ih =>
    rw [put?_cons] at h
    obtain ⟨c, hc, h⟩ := Option.bind_eq_some_iff.mp h
    obtain ⟨c', hc', h⟩ := Option.bind_eq_some_iff.mp h
    exact formed_putStep? hd (ih (formed_step? hd hc) hc') h

/-- A new member at the end of a container that takes one. -/
inductive IsAddition : Value → String → Value → Value → Prop where
  | object {ms : Members} {name : String} {w : Value} (fresh : name ∉ ms.map (·.1)) :
    IsAddition (.object ms) name w (.object (ms ++ [(name, w)]))
  | table {ms : Members} {name : String} {w : Value} (fresh : name ∉ ms.map (·.1)) :
    IsAddition (.keyed .table ms) name w (.keyed .table (ms ++ [(name, w)]))

/-- A member is exchanged or comes in at the end. -/
theorem insert_cases (ms : Members) (name : String) (w : Value) :
    name ∈ ms.map (·.1) ∧ Members.insert name w ms = Members.replace name w ms ∨
      name ∉ ms.map (·.1) ∧ Members.insert name w ms = ms ++ [(name, w)] := by
  by_cases hn : name ∈ ms.map (·.1)
  · exact .inl ⟨hn, if_pos (Members.any_name_iff.mpr hn)⟩
  · exact .inr ⟨hn, Members.insert_of_not_mem hn⟩

theorem putStep?_of_writeField {ms : Members} {name : String}
    (h : (keyed .record ms).writeChild (.key name) w = .ok v') :
    (keyed .record ms).putStep? (.key name) w = some v' := by
  simp only [writeChild, writeField] at h
  cases hr : KeyedKind.record.resolve? ms name with
  | none => simp [hr, Except.map] at h
  | some k =>
    cases hl : ms.lookup k with
    | none => simp [hr, hl, Except.map] at h
    | some current =>
      simp only [hr, hl] at h
      split at h
      · cases h
        exact putStep?_eq_some_iff.mpr (.field hr)
      · cases h

/-- A write exchanges the child that the step leads to, or adds a member. -/
theorem writeChild_cases (h : v.writeChild s w = .ok v') :
    v.putStep? s w = some v' ∨ ∃ name, s = .key name ∧ IsAddition v name w v' := by
  cases v with
  | array items =>
    cases s with
    | key name => cases h
    | index i =>
      simp only [writeChild] at h
      split at h
      · cases h
        exact Or.inl (putStep?_eq_some_iff.mpr (.element ‹_›))
      · cases h
  | slots refused items =>
    cases s with
    | key name => cases h
    | index i =>
      simp only [writeChild, writeSlot] at h
      split at h
      · rename_i hi
        cases h
        exact Or.inl (putStep?_eq_some_iff.mpr (.slot hi.1))
      · cases h
  | object ms =>
    cases s with
    | index i => cases h
    | key name =>
      cases h
      rcases insert_cases ms name w with ⟨hn, heq⟩ | ⟨hn, heq⟩
      · exact heq ▸ Or.inl (putStep?_eq_some_iff.mpr (.member hn))
      · exact heq ▸ Or.inr ⟨name, rfl, .object hn⟩
  | keyed kind ms =>
    cases s with
    | index i => cases kind <;> cases h
    | key name =>
      cases kind with
      | table =>
        cases h
        rcases insert_cases ms name w with ⟨hn, heq⟩ | ⟨hn, heq⟩
        · have hfield := KeyedKind.table.resolve?_of_mem hn
          exact heq ▸ Or.inl (putStep?_eq_some_iff.mpr (.field hfield))
        · exact heq ▸ Or.inr ⟨name, rfl, .table hn⟩
      | record => exact Or.inl (putStep?_of_writeField h)
  | _ => cases s <;> cases h

theorem formed_writeChild (hv : v.formed kinds) (hw : w.formed kinds)
    (h : v.writeChild s w = .ok v') : v'.formed kinds := by
  rcases writeChild_cases h with hput | ⟨name, rfl, hadd⟩
  · exact formed_putStep? hv hw hput
  · obtain ⟨hk, hn, hc⟩ := formed_iff.mp hv
    cases hadd with
    | @object ms name w fresh | @table ms name w fresh =>
      refine formed_iff.mpr ⟨hk, ?_, fun c hm => ?_⟩
      · simp only [names, List.map_append, List.map_cons, List.map_nil]
        exact List.nodup_append.mpr ⟨hn, by simp, fun a ha b hb => by
          rintro rfl
          exact fresh (List.mem_singleton.mp hb ▸ ha)⟩
      · simp only [children, List.map_append, List.map_cons, List.map_nil, List.mem_append,
          List.mem_singleton] at hm
        rcases hm with hm | rfl
        · exact hc c hm
        · exact hw

theorem formed_null (scalar : kinds .scalar) : Value.null.formed kinds :=
  formed_iff.mpr ⟨scalar, List.nodup_nil, nofun⟩

/-- The ways in which one removal changes a container: not at all, a child is exchanged for null, or
one is dropped, which no record does. -/
inductive Removal (v : Value) : Value → Prop where
  | same : Removal v v
  | cleared {s : Step} {v' : Value} (put : v.putStep? s .null = some v') : Removal v v'
  | dropped {v' : Value} (kind : v'.kind = v.kind) (names : v'.names.Sublist v.names)
    (children : v'.children.Sublist v.children) (loose : v.kind ≠ .keyed .record) : Removal v v'

theorem removal_removeMember (v : Value) (name : String) : Removal v (v.removeMember name).1 := by
  have erased : ∀ ms : Members, List.Sublist (Members.erase name ms) ms := fun _ =>
    List.eraseP_sublist
  cases v with
  | object ms => exact .dropped rfl ((erased ms).map _) ((erased ms).map _) (by rintro ⟨⟩)
  | keyed kind ms =>
    cases kind with
    | table => exact .dropped rfl ((erased ms).map _) ((erased ms).map _) (by rintro ⟨⟩)
    | record =>
      simp only [removeMember]
      split
      · exact .same
      · exact .cleared (putStep?_eq_some_iff.mpr (.field ‹_›))
  | _ => exact .same

theorem removal_removeElement {i : Nat} {had : Bool} (h : v.removeElement i = .ok (v', had)) :
    Removal v v' := by
  cases v with
  | array items =>
    simp only [removeElement, Except.ok.injEq] at h
    split at h
    · cases h
      exact .dropped rfl (List.Sublist.refl _) (List.eraseIdx_sublist items i) (by rintro ⟨⟩)
    · cases h
      exact .same
  | slots refused items =>
    simp only [removeElement, writeSlot] at h
    split at h
    · rename_i hi
      split at h
      · cases h
        exact .cleared (putStep?_eq_some_iff.mpr (.slot hi))
      · cases h
    · cases h
      exact .same
  | _ =>
    cases h
    exact .same

/-- A removal that is refused is a refused write of null. -/
theorem writeChild_of_removeElement {i : Nat} {cause : AssignError}
    (h : v.removeElement i = .error cause) : v.writeChild (.index i) .null = .error cause := by
  cases v with
  | slots refused items =>
    simp only [removeElement] at h
    split at h
    · cases hw : writeSlot refused items i .null with
      | error e =>
        rw [hw] at h
        cases h
        exact hw
      | ok v' =>
        rw [hw] at h
        cases h
    · cases h
  | _ => cases h

/-- Removals that end with an error have come to an element that is not given up. -/
theorem removeElement_of_removeChildren {steps : List Step} {had : Bool} {cause : AssignError}
    (h : v.removeChildren steps = ((v', had), some cause)) :
    ∃ i, v'.removeElement i = .error cause := by
  have elements : ∀ (is : List Nat) (r : Reduced), removeElements is r = ((v', had), some cause) →
      ∃ i, v'.removeElement i = .error cause := by
    intro is
    induction is with
    | nil => exact nofun
    | cons i is ih =>
      rintro ⟨w, hadw⟩ h
      rw [removeElements] at h
      cases he : w.removeElement i with
      | error e =>
        rw [he] at h
        cases h
        exact ⟨i, he⟩
      | ok r =>
        rw [he] at h
        exact ih _ h
  exact elements _ _ h

/-- What each single removal keeps is kept by the removal of several children. -/
theorem removeChildren_induction {P : Value → Prop} (step : ∀ v v', Removal v v' → P v → P v')
    {v : Value} (hv : P v) (steps : List Step) : P (v.removeChildren steps).1.1 := by
  have members : P (removeMembers (stepKeys steps) (v, false)).1 :=
    List.foldlRecOn _ _ (motive := fun acc : Reduced => P acc.1) hv
      fun acc hacc name _ => step _ _ (removal_removeMember acc.1 name) hacc
  have elements : ∀ (is : List Nat) (r : Reduced), P r.1 → P (removeElements is r).1.1 := by
    intro is
    induction is with
    | nil => exact fun _ hr => hr
    | cons i is ih =>
      rintro ⟨w, had⟩ hr
      rw [removeElements]
      cases he : w.removeElement i with
      | error e => exact hr
      | ok r => exact ih (r.1, had || r.2) (step _ _ (removal_removeElement he) hr)
  exact elements _ _ members

theorem Removal.kind (h : Removal v v') : v'.kind = v.kind := by
  cases h with
  | same => rfl
  | cleared put => exact putStep?_kind put
  | dropped kind => exact kind

theorem Removal.formed (scalar : kinds .scalar) (h : Removal v v') (hv : v.formed kinds) :
    v'.formed kinds := by
  cases h with
  | same => exact hv
  | cleared put => exact formed_putStep? hv (formed_null scalar) put
  | dropped kind names children =>
    obtain ⟨hk, hn, hc⟩ := formed_iff.mp hv
    exact formed_iff.mpr ⟨kind ▸ hk, hn.sublist names, fun c hm => hc c (children.subset hm)⟩

theorem formed_removeChildren (scalar : kinds .scalar) (hv : v.formed kinds)
    (steps : List Step) : (v.removeChildren steps).1.1.formed kinds :=
  removeChildren_induction (P := fun w => w.formed kinds) (fun _ _ h => h.formed scalar) hv steps

end Value
end DocPath
