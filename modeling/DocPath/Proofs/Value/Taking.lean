import DocPath.Proofs.Value.Standing
import Mathlib.Logic.Relation

/-!
# Containers that take every value

A record knows its fields and what they may hold, and a sequence of fixed size may refuse
values of some types. All other containers take any value at every place that they have, and go
on doing so whatever is written.
-/

namespace DocPath

/-- The kinds of containers that take any value at each of their places. -/
def Kind.accepting : Kind → Bool
  | .keyed .record => false
  | .slots refused => refused.isEmpty
  | _ => true

theorem Kind.accepting_of_isJson {k : Kind} (h : k.isJson) : k.accepting := by
  cases k <;> first | rfl | cases h

namespace Value

def Takes (v : Value) (s : Step) : Prop := ∀ w, ∃ v', v.writeChild s w = .ok v'

variable {v v' c w : Value} {s t : Step} {n : Nat}

theorem takes_key (hk : v.kind.accepting) (h : v.isKeyed) (name : String) :
    v.Takes (.key name) := by
  intro w
  cases v with
  | object ms => exact ⟨_, rfl⟩
  | keyed kind ms =>
    cases kind with
    | table => exact ⟨_, rfl⟩
    | record => cases hk
  | _ => cases h

theorem takes_index (hk : v.kind.accepting) (ho : v.isOrdered) {i : Nat}
    (hi : i < v.children.length) : v.Takes (.index i) := by
  intro w
  cases v with
  | array items =>
    have there : i < items.length := hi
    exact ⟨_, if_pos there⟩
  | slots refused items =>
    obtain rfl := List.isEmpty_iff.mp hk
    have there : i < items.length := hi
    exact ⟨_, if_pos ⟨there, List.not_mem_nil⟩⟩
  | _ => cases ho

/-- A child that is there can be overwritten. -/
theorem takes_of_step? (hk : v.kind.accepting) (h : v.step? s = some c) : v.Takes s := by
  cases step?_eq_some_iff.mp h with
  | member | field => exact takes_key hk rfl _
  | element hi | slot hi => exact takes_index hk rfl (List.getElem?_eq_some_iff.mp hi).1

theorem children_length_writeChild (ho : v.isOrdered) (h : v.writeChild s w = .ok v') :
    v'.children.length = v.children.length := by
  rcases writeChild_cases h with hput | ⟨name, -, hadd⟩
  · cases putStep?_eq_some_iff.mp hput with
    | member | field => cases ho
    | element | slot => exact List.length_set
  · cases hadd <;> cases ho

/-- A place that takes every value is there to be written to after any write. -/
theorem Takes.writeChild (hk : v.kind.accepting) (h : v.Takes s)
    (hw : v.writeChild t w = .ok v') : v'.Takes s := by
  have hkind := writeChild_kind hw
  obtain ⟨u, hu⟩ := h .null
  cases v with
  | array items =>
    cases s with
    | key name => cases hu
    | index i =>
      simp only [Value.writeChild] at hu
      split at hu
      · rename_i hi
        refine takes_index (hkind ▸ hk) (isOrdered_of_kind hkind ▸ rfl) ?_
        rwa [children_length_writeChild rfl hw]
      · cases hu
  | slots refused items =>
    cases s with
    | key name => cases hu
    | index i =>
      simp only [Value.writeChild, writeSlot] at hu
      split at hu
      · rename_i hi
        refine takes_index (hkind ▸ hk) (isOrdered_of_kind hkind ▸ rfl) ?_
        rw [children_length_writeChild rfl hw]
        exact hi.1
      · cases hu
  | object ms | keyed kind ms =>
    cases s with
    | key name => exact takes_key (hkind ▸ hk) (isKeyed_of_kind hkind ▸ rfl) name
    | index i => first | cases hu | (cases kind <;> cases hu)
  | _ => cases s <;> cases hu

/-- Each of the steps can be written to, whatever has been written to them before. -/
def Writable (steps : List Step) (v : Value) : Prop :=
  ∀ v', Relation.ReflTransGen (fun u u' => ∃ s ∈ steps, ∃ w, u.writeChild s w = .ok u') v v' →
    ∀ s ∈ steps, v'.Takes s

theorem writable_of_takes {steps : List Step} (hk : v.kind.accepting)
    (h : ∀ s ∈ steps, v.Takes s) : v.Writable steps := by
  intro v' hwrites
  have keeps : v'.kind.accepting ∧ ∀ s ∈ steps, v'.Takes s := by
    induction hwrites with
    | refl => exact ⟨hk, h⟩
    | tail _ hwrite ih =>
      obtain ⟨t, -, w, hw⟩ := hwrite
      exact ⟨writeChild_kind hw ▸ ih.1, fun s hs => (ih.2 s hs).writeChild ih.1 hw⟩
  exact keeps.2

/-- Down to the given depth, all containers take every value. -/
def OpenTo : Nat → Value → Prop
  | 0, _ => True
  | n + 1, v => v.kind.accepting ∧ ∀ c ∈ v.children, c.OpenTo n

theorem openTo_of_formed (h : v.formed Kind.accepting) (n : Nat) : v.OpenTo n := by
  induction n generalizing v with
  | zero => trivial
  | succ n ih =>
    obtain ⟨hk, -, hc⟩ := formed_iff.mp h
    exact ⟨hk, fun c hm => ih (hc c hm)⟩

theorem OpenTo.pointer? {d : Value} {l : Location} (hd : d.OpenTo n)
    (hl : d.pointer? l = some v) : v.OpenTo (n - l.length) := by
  induction l generalizing n d with
  | nil => exact Option.some.inj hl ▸ hd
  | cons s l ih =>
    obtain ⟨c, hc, hv⟩ := Option.bind_eq_some_iff.mp hl
    cases n with
    | zero =>
      rw [Nat.zero_sub]
      trivial
    | succ n =>
      rw [List.length_cons, Nat.succ_sub_succ]
      exact ih (hd.2 c (mem_children_of_step? hc)) hv

theorem OpenTo.putStep? (hv : v.OpenTo (n + 1)) (hw : w.OpenTo n)
    (h : v.putStep? s w = some v') : v'.OpenTo (n + 1) := by
  refine ⟨putStep?_kind h ▸ hv.1, fun c hm => ?_⟩
  rcases mem_children_putStep? h hm with rfl | hm
  · exact hw
  · exact hv.2 c hm

theorem OpenTo.put? {d d' : Value} {l : Location} (hd : d.OpenTo n)
    (hw : w.OpenTo (n - l.length)) (h : d.put? l w = some d') : d'.OpenTo n := by
  induction l generalizing n d d' with
  | nil => exact Option.some.inj h ▸ hw
  | cons s l ih =>
    rw [put?_cons] at h
    obtain ⟨c, hc, h⟩ := Option.bind_eq_some_iff.mp h
    obtain ⟨c', hc', h⟩ := Option.bind_eq_some_iff.mp h
    cases n with
    | zero => trivial
    | succ n =>
      rw [List.length_cons, Nat.succ_sub_succ] at hw
      exact hd.putStep? (ih (hd.2 c (mem_children_of_step? hc)) hw hc') h

theorem OpenTo.writeChild (hv : v.OpenTo (n + 1)) (hw : w.OpenTo n)
    (h : v.writeChild s w = .ok v') : v'.OpenTo (n + 1) := by
  rcases writeChild_cases h with hput | ⟨name, rfl, hadd⟩
  · exact hv.putStep? hw hput
  · cases hadd with
    | object fresh | table fresh =>
      refine ⟨hv.1, fun c hm => ?_⟩
      simp only [children, List.map_append, List.map_cons, List.map_nil, List.mem_append,
        List.mem_singleton] at hm
      rcases hm with hm | rfl
      · exact hv.2 c hm
      · exact hw

end Value
end DocPath
