import DocPath.Proofs.Query.Nodes
import DocPath.Proofs.Value.Writing

/-!
# Selection by names and positions

Without descents and filters, what a path selects can be told step by step: each fragment
aims at some steps, whatever stands there, and the children that are there are selected. Only
the length of a sequence matters for what is aimed at.
-/

namespace DocPath

open Update (chosen)
open Value (Alike)

def Value.extent (v : Value) : Nat := if v.isOrdered then v.children.length else 0

def UnionKey.Aims (len : Nat) (s : Step) : UnionKey → Prop
  | .key name => s = .key name
  | .index i => ∃ n, normalizeIndex i len = some n ∧ s = .index n

/-- The steps that a fragment aims at in a container with so many elements. -/
def Fragment.Aims (len : Nat) (s : Step) : Fragment → Prop
  | .child name => UnionKey.Aims len s (.key name)
  | .nth i => UnionKey.Aims len s (.index i)
  | .wildcard => True
  | .slice sl => ∃ n ∈ sl.indices len, s = .index n
  | .union keys => ∃ k ∈ keys, k.Aims len s
  | _ => False

inductive Selects : Path → Value → Location → Value → Prop where
  | last {f : Fragment} {v c : Value} {s : Step} (aims : f.Aims v.extent s)
    (step : v.step? s = some c) : Selects [f] v [s] c
  | through {f g : Fragment} {rest : Path} {v b c : Value} {s : Step} {l : Location}
    (aims : f.Aims v.extent s) (step : v.step? s = some b) (inner : b.isContainer)
    (more : Selects (g :: rest) b l c) : Selects (f :: g :: rest) v (s :: l) c

/-- Paths by names and positions, without descents and filters. -/
def Path.Flat (p : Path) : Prop := ∀ f ∈ p, f.picks ∧ f.isFilter = false

variable {v v' c : Value} {s : Step} {f g : Fragment} {rest p : Path}

theorem Value.extent_of_alike (h : Alike v v') : v'.extent = v.extent := by
  unfold Value.extent
  rw [Value.isOrdered_of_kind h.kind]
  split
  · exact h.length ‹_›
  · rfl

theorem Value.containerLen?_of_isOrdered (h : v.isOrdered) :
    v.containerLen?.getD 0 = v.extent := by
  cases v with
  | array items | slots refused items => rfl
  | _ => cases h

theorem Value.isOrdered_of_step? {n : Nat} (h : v.step? (.index n) = some c) : v.isOrdered := by
  cases v with
  | array items | slots refused items => rfl
  | _ => cases h

theorem mem_memberAt? {name : String} :
    Update.memberAt? v name = some (s, c) ↔ s = .key name ∧ v.step? s = some c := by
  unfold Update.memberAt?
  rw [Option.map_eq_some_iff]
  constructor
  · rintro ⟨b, hb, he⟩
    obtain ⟨rfl, rfl⟩ := Prod.mk.inj he
    exact ⟨rfl, hb⟩
  · rintro ⟨rfl, hc⟩
    exact ⟨c, hc, rfl⟩

theorem mem_elementAt? {i : Int64} : Update.elementAt? v i = some (s, c) ↔
    (∃ n, normalizeIndex i v.extent = some n ∧ s = .index n) ∧ v.step? s = some c := by
  unfold Update.elementAt?
  constructor
  · intro h
    split at h
    · rename_i ho
      obtain ⟨n, hn, he⟩ := Option.bind_eq_some_iff.mp h
      obtain ⟨b, hb, he⟩ := Option.map_eq_some_iff.mp he
      obtain ⟨rfl, rfl⟩ := Prod.mk.inj he
      rw [Value.containerLen?_of_isOrdered ho] at hn
      exact ⟨⟨n, hn, rfl⟩, hb⟩
    · cases h
  · rintro ⟨⟨n, hn, rfl⟩, hc⟩
    have ho := Value.isOrdered_of_step? hc
    rw [if_pos ho, Value.containerLen?_of_isOrdered ho, hn]
    simp [hc]

theorem mem_union_find {k : UnionKey} :
    (match k with
      | .key name => Update.memberAt? v name
      | .index i => Update.elementAt? v i) = some (s, c) ↔
        k.Aims v.extent s ∧ v.step? s = some c := by
  cases k with
  | key name => exact mem_memberAt?
  | index i => exact mem_elementAt?

/-- A fragment chooses the children that are there at the steps that it aims at. A record finds
more names than it lists. -/
theorem mem_chosen_iff [Libraries] (hf : f.isFilter = false) (hn : v.names.Nodup) (doc : Value) :
    (s, c) ∈ chosen f doc v ↔
      (f.Aims v.extent s ∧ v.step? s = some c) ∧ (f = .wildcard → s ∈ v.steps) := by
  cases f with
  | root | current | bracket | descent => simp [chosen, Fragment.Aims]
  | child name =>
    rw [chosen, Option.mem_toList]
    exact mem_memberAt?.trans (iff_self_and.mpr (by rintro - ⟨⟩))
  | nth i =>
    rw [chosen, Option.mem_toList]
    exact mem_elementAt?.trans (iff_self_and.mpr (by rintro - ⟨⟩))
  | wildcard =>
    simp only [chosen, Fragment.Aims, true_and, true_implies]
    constructor
    · exact fun h => ⟨Value.step?_of_mem_entries hn h, List.mem_map_of_mem (f := (·.1)) h⟩
    · rintro ⟨hstep, hs⟩
      obtain ⟨⟨t, b⟩, he, rfl⟩ := List.mem_map.mp hs
      have same := hstep.symm.trans (Value.step?_of_mem_entries hn he)
      rwa [Option.some.inj same]
  | slice sl =>
    simp only [chosen, Fragment.Aims]
    constructor
    · intro h
      split at h
      · rename_i ho
        obtain ⟨n, hmem, he⟩ := List.mem_filterMap.mp h
        obtain ⟨b, hb, he⟩ := Option.map_eq_some_iff.mp he
        obtain ⟨rfl, rfl⟩ := Prod.mk.inj he
        rw [Value.containerLen?_of_isOrdered ho] at hmem
        exact ⟨⟨⟨n, hmem, rfl⟩, hb⟩, by rintro ⟨⟩⟩
      · cases h
    · rintro ⟨⟨⟨n, hmem, rfl⟩, hc⟩, -⟩
      have ho := Value.isOrdered_of_step? hc
      rw [if_pos ho, Value.containerLen?_of_isOrdered ho]
      exact List.mem_filterMap.mpr ⟨n, hmem, by simp [hc]⟩
  | union keys =>
    rw [chosen, List.mem_filterMap]
    constructor
    · rintro ⟨k, hk, he⟩
      obtain ⟨haims, hc⟩ := mem_union_find.mp he
      exact ⟨⟨⟨k, hk, haims⟩, hc⟩, by rintro ⟨⟩⟩
    · rintro ⟨⟨⟨k, hk, haims⟩, hc⟩, -⟩
      exact ⟨k, hk, mem_union_find.mpr ⟨haims, hc⟩⟩
  | filter template => cases hf

/-- In plain JSON, a container lists all that it finds. -/
theorem mem_chosen [Libraries] (hf : f.isFilter = false) (hk : v.kind.isJson) (hn : v.names.Nodup)
    (doc : Value) : (s, c) ∈ chosen f doc v ↔ f.Aims v.extent s ∧ v.step? s = some c := by
  rw [mem_chosen_iff hf hn, and_iff_left_of_imp]
  rintro ⟨-, hstep⟩ -
  exact List.mem_map_of_mem (f := (·.1)) (Value.mem_entries_of_step? hk hstep)

theorem Path.Flat.head (h : Path.Flat (f :: rest)) : f.picks ∧ f.isFilter = false :=
  h f List.mem_cons_self

theorem Path.Flat.tail (h : Path.Flat (f :: rest)) : Path.Flat rest :=
  fun g hg => h g (List.mem_cons_of_mem f hg)

/-- The nodes that a flat path selects are those that it leads to step by step. -/
theorem mem_nodes_iff_selects [Libraries] (hp : p.Flat) (order : Order) (doc : Value)
    (hv : v.PlainTo p.length) (l k : Location) (c : Value) :
    (k, c) ∈ Path.nodes order doc p (l, v) ↔ ∃ m, k = l ++ m ∧ Selects p v m c := by
  induction p generalizing v l with
  | nil =>
    rw [Path.nodes]
    constructor
    · intro h
      cases h
    · rintro ⟨m, -, h⟩
      cases h
  | cons f rest ih =>
    obtain ⟨hpicks, hfilter⟩ := hp.head
    obtain ⟨hk, hn, hc⟩ := hv
    cases rest with
    | nil =>
      rw [Path.nodes, Fragment.nodes_of_picks hpicks, List.mem_map]
      constructor
      · rintro ⟨⟨s, b⟩, he, heq⟩
        obtain ⟨rfl, rfl⟩ := Prod.mk.inj heq
        obtain ⟨haims, hstep⟩ := (mem_chosen hfilter hk hn doc).mp he
        exact ⟨[s], rfl, .last haims hstep⟩
      · rintro ⟨m, rfl, hsel⟩
        cases hsel with
        | @last _ _ _ s haims hstep =>
          exact ⟨(s, c), (mem_chosen hfilter hk hn doc).mpr ⟨haims, hstep⟩, rfl⟩
    | cons g rest =>
      rw [Path.nodes_picks hpicks, List.mem_flatMap]
      constructor
      · rintro ⟨⟨s, b⟩, he, hmem⟩
        obtain ⟨he, hinner⟩ := List.mem_filter.mp he
        obtain ⟨haims, hstep⟩ := (mem_chosen hfilter hk hn doc).mp he
        obtain ⟨m, rfl, hsel⟩ := (ih hp.tail (hc s b hstep) (l ++ [s])).mp hmem
        exact ⟨s :: m, by simp, .through haims hstep hinner hsel⟩
      · rintro ⟨m, rfl, hsel⟩
        cases hsel with
        | @through _ _ _ _ b _ s m haims hstep hinner hsel =>
          have he := (mem_chosen hfilter hk hn doc).mpr ⟨haims, hstep⟩
          refine ⟨(s, b), List.mem_filter.mpr ⟨he, hinner⟩, ?_⟩
          exact (ih hp.tail (hc s b hstep) (l ++ [s])).mpr ⟨m, by simp, hsel⟩

end DocPath
