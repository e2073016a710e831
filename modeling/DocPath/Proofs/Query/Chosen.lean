import DocPath.Proofs.Path.Slices
import DocPath.Proofs.Query.Results
import DocPath.Proofs.Value.Revision
import DocPath.Update.Step

/-!
# The children that a fragment chooses

An update lists the children that a fragment selects at a container with the steps to them.
They are the children that a query finds; the steps are distinct unless a union repeats one,
and they stay the same when the children change.
-/

namespace DocPath

open Update (chosen)

theorem lt_of_normalizeIndex {i : Int64} {len n : Nat} (h : normalizeIndex i len = some n) :
    n < len := by
  unfold normalizeIndex at h
  split at h
  · simp only [Option.ite_none_right_eq_some, Option.some.injEq] at h
    omega
  · cases h

theorem memberAt?_map_snd (v : Value) (name : String) :
    (Update.memberAt? v name).map (·.2) = v.getKey? name := by
  simp [Update.memberAt?, Function.comp_def]

theorem elementAt?_map_snd (v : Value) (i : Int64) :
    (Update.elementAt? v i).map (·.2) = v.getIndex? i := by
  cases v with
  | array items | slots refused items =>
    simp [Update.elementAt?, Value.isOrdered, Value.containerLen?, Value.getIndex?, Value.step?,
      Option.map_bind, Function.comp_def]
  | _ => simp [Update.elementAt?, Value.isOrdered, Value.getIndex?]

/-- The steps to chosen children are listed with the values that a query finds. -/
theorem chosen_map_snd [Libraries] {f : Fragment} (hf : f.picks) (doc v : Value) :
    (chosen f doc v).map (·.2) = f.found doc v := by
  cases f with
  | root | current | bracket | descent => cases hf
  | child name =>
    rw [chosen, Fragment.found, ← memberAt?_map_snd, Option.toList_map]
  | nth i => rw [chosen, Fragment.found, ← elementAt?_map_snd, Option.toList_map]
  | wildcard => exact Value.entries_map_snd v
  | slice s =>
    cases v <;> simp [chosen, Fragment.found, Value.isOrdered, Value.containerLen?, Value.step?,
      List.map_filterMap, Function.comp_def]
  | union keys =>
    rw [chosen, Fragment.found, List.map_filterMap]
    congr 1
    funext k
    cases k with
    | key name => exact memberAt?_map_snd v name
    | index i => exact elementAt?_map_snd v i
  | filter template =>
    simp only [chosen, Fragment.found, Script.selectEntries, Script.select]
    rw [← Value.entries_map_snd, List.filter_map]
    rfl

theorem step?_of_memberAt? {v : Value} {name : String} {e : Step × Value}
    (h : Update.memberAt? v name = some e) : v.step? e.1 = some e.2 := by
  obtain ⟨c, hc, rfl⟩ := Option.map_eq_some_iff.mp h
  exact hc

theorem step?_of_elementAt? {v : Value} {i : Int64} {e : Step × Value}
    (h : Update.elementAt? v i = some e) : v.step? e.1 = some e.2 := by
  unfold Update.elementAt? at h
  split at h
  · obtain ⟨n, -, hn⟩ := Option.bind_eq_some_iff.mp h
    obtain ⟨c, hc, rfl⟩ := Option.map_eq_some_iff.mp hn
    exact hc
  · cases h

/-- The step listed with a chosen child leads to it. -/
theorem step?_of_mem_chosen [Libraries] {f : Fragment} {doc v : Value} {e : Step × Value}
    (hn : v.names.Nodup) (h : e ∈ chosen f doc v) : v.step? e.1 = some e.2 := by
  cases f with
  | root | current | bracket | descent => cases h
  | child name => exact step?_of_memberAt? (Option.mem_toList.mp h)
  | nth i => exact step?_of_elementAt? (Option.mem_toList.mp h)
  | wildcard => exact Value.step?_of_mem_entries hn h
  | slice s =>
    simp only [chosen] at h
    split at h
    · obtain ⟨i, -, hi⟩ := List.mem_filterMap.mp h
      obtain ⟨c, hc, rfl⟩ := Option.map_eq_some_iff.mp hi
      exact hc
    · cases h
  | union keys =>
    obtain ⟨k, -, hk⟩ := List.mem_filterMap.mp h
    cases k with
    | key name => exact step?_of_memberAt? hk
    | index i => exact step?_of_elementAt? hk
  | filter template => exact Value.step?_of_mem_entries hn (List.mem_of_mem_filter h)

/-- A path in a script that starts with `$` reads the document; all others read the
candidate. -/
def Slot.rootFree : Slot → Bool
  | .operand (.path (.root :: _)) => false
  | _ => true

def Script.rootFree (t : Script) : Bool := t.all Slot.rootFree

def Fragment.rootFree : Fragment → Bool
  | .filter template => Script.rootFree template
  | _ => true

def Fragment.isFilter : Fragment → Bool
  | .filter _ => true
  | _ => false

theorem Operand.resolve_of_rootFree [Libraries] {o : Operand} (h : Slot.rootFree (.operand o))
    (all : Bool)
    (elem root root' : Value) : o.resolve all elem root = o.resolve all elem root' := by
  cases o with
  | path p =>
    have same : Path.origin p elem root = Path.origin p elem root' := by
      cases p with
      | nil => rfl
      | cons f p =>
        cases f with
        | root => cases h
        | _ => rfl
    simp only [Operand.resolve, same]
  | _ => simp only [Operand.resolve]

theorem cells_of_rootFree [Libraries] {t : Script} (h : t.rootFree) (all : Bool)
    (elem root root' : Value) : cells t all elem root = cells t all elem root' := by
  induction t generalizing all with
  | nil => simp only [cells]
  | cons slot t ih =>
    rw [Script.rootFree, List.all_cons, Bool.and_eq_true] at h
    obtain ⟨hslot, ht⟩ := h
    cases slot with
    | op o => simp only [cells, ih ht]
    | operand o => simp only [cells, ih ht, Operand.resolve_of_rootFree hslot all elem root root']

theorem Script.eval_of_rootFree [Libraries] {t : Script} (h : t.rootFree)
    (elem root root' : Value) :
    t.eval elem root = t.eval elem root' := by
  rw [Script.eval, Script.eval, cells_of_rootFree h]

/-- Without such paths, what a fragment chooses does not depend on the document. -/
theorem chosen_of_rootFree [Libraries] {f : Fragment} (h : f.rootFree) (doc doc' v : Value) :
    chosen f doc v = chosen f doc' v := by
  cases f with
  | filter template =>
    simp only [chosen, Script.selectEntries]
    exact List.filter_congr fun e _ => by rw [Script.eval_of_rootFree h e.2 doc doc']
  | _ => rfl

theorem Fragment.rootFree_of_not_isFilter {f : Fragment} (h : f.isFilter = false) : f.rootFree := by
  cases f with
  | filter template => cases h
  | _ => rfl

def UnionKey.isIndex : UnionKey → Bool
  | .index _ => true
  | .key _ => false

/-- A union with distinct members, of which at most one is a position. -/
def Fragment.apart : Fragment → Prop
  | .union keys => keys.Nodup ∧ keys.countP UnionKey.isIndex ≤ 1
  | _ => True

theorem pairwise_of_countP_le_one {keys : List UnionKey} (h : keys.countP UnionKey.isIndex ≤ 1) :
    keys.Pairwise fun a b => ¬(a.isIndex ∧ b.isIndex) := by
  induction keys with
  | nil => exact List.Pairwise.nil
  | cons k keys ih =>
    rw [List.countP_cons] at h
    refine List.pairwise_cons.mpr ⟨fun b hb ⟨hk, hbi⟩ => ?_, ih (by omega)⟩
    have hpos := List.countP_pos_iff.mpr ⟨b, hb, hbi⟩
    simp only [hk, if_true] at h
    omega

theorem filterMap_fst_sublist {α β γ : Type} (xs : List α) (s : α → β) (g : α → Option γ) :
    ((xs.filterMap fun x => (g x).map (s x, ·)).map (·.1)).Sublist (xs.map s) := by
  induction xs with
  | nil => exact List.Sublist.refl _
  | cons x xs ih =>
    cases h : g x with
    | none => simpa [h] using ih.cons (s x)
    | some c => simpa [h] using ih.cons_cons (s x)

/-- The step of a union member is a name or a position as the member is. -/
theorem union_step {v : Value} {k : UnionKey} {e : Step × Value}
    (h : (match k with
      | .key name => Update.memberAt? v name
      | .index i => Update.elementAt? v i) = some e) :
    match k with
      | .key name => e.1 = .key name
      | .index _ => ∃ n, e.1 = .index n := by
  cases k with
  | key name =>
    obtain ⟨c, -, rfl⟩ := Option.map_eq_some_iff.mp h
    rfl
  | index i =>
    simp only [Update.elementAt?] at h
    split at h
    · obtain ⟨n, -, hn⟩ := Option.bind_eq_some_iff.mp h
      obtain ⟨c, -, rfl⟩ := Option.map_eq_some_iff.mp hn
      exact ⟨n, rfl⟩
    · cases h

/-- No step is chosen twice. -/
theorem chosen_nodup [Libraries] {f : Fragment} (hf : f.apart) (doc : Value) {v : Value}
    (hn : v.names.Nodup) : ((chosen f doc v).map (·.1)).Nodup := by
  have one : ∀ o : Option (Step × Value), (o.toList.map (·.1)).Nodup := by
    intro o
    cases o <;> simp
  cases f with
  | root | current | bracket | descent => exact List.nodup_nil
  | child name => exact one _
  | nth i => exact one _
  | wildcard => exact Value.steps_nodup hn
  | filter template =>
    have hsub : List.Sublist ((chosen (.filter template) doc v).map (·.1)) v.steps :=
      List.filter_sublist.map _
    exact (Value.steps_nodup hn).sublist hsub
  | slice s =>
    simp only [chosen]
    split
    · refine List.Nodup.sublist (filterMap_fst_sublist _ Step.index _) ?_
      exact (s.indices_nodup _).map fun _ _ h => by simpa using h
    · exact List.nodup_nil
  | union keys =>
    obtain ⟨hkeys, hone⟩ := hf
    rw [chosen, List.Nodup, List.pairwise_map, List.pairwise_filterMap]
    refine (hkeys.and (pairwise_of_countP_le_one hone)).imp fun {a b} hab e he e' he' => ?_
    have hstep := union_step he
    have hstep' := union_step he'
    cases a with
    | key name =>
      cases b with
      | key other =>
        simp only [hstep, hstep', ne_eq, Step.key.injEq]
        exact fun h => hab.1 (congrArg _ h)
      | index j =>
        obtain ⟨n, hstep'⟩ := hstep'
        simp [hstep, hstep']
    | index i =>
      cases b with
      | key other =>
        obtain ⟨n, hstep⟩ := hstep
        simp [hstep, hstep']
      | index j => exact absurd ⟨rfl, rfl⟩ hab.2

section revised

variable {v : Value} {g : Step → Value → Value}

theorem memberAt?_reviseAll (hk : v.kind.isJson) (name : String) :
    Update.memberAt? (v.reviseAll g) name =
      (Update.memberAt? v name).map fun e => (e.1, g e.1 e.2) := by
  have h := Value.step?_reviseAll (f := g) hk (.key name)
  simp only [Value.step?] at h
  simp [Update.memberAt?, h, Function.comp_def]

theorem isOrdered_reviseAll (v : Value) : (v.reviseAll g).isOrdered = v.isOrdered := by
  cases v <;> rfl

theorem containerLen?_reviseAll (v : Value) : (v.reviseAll g).containerLen? = v.containerLen? := by
  cases v with
  | array items => simp [Value.reviseAll_array, Value.containerLen?]
  | object ms => simp [Value.reviseAll_object, Value.containerLen?]
  | _ => rfl

theorem elementAt?_reviseAll (hk : v.kind.isJson) (i : Int64) :
    Update.elementAt? (v.reviseAll g) i =
      (Update.elementAt? v i).map fun e => (e.1, g e.1 e.2) := by
  simp only [Update.elementAt?, isOrdered_reviseAll, containerLen?_reviseAll,
    Value.step?_reviseAll hk]
  split
  · cases normalizeIndex i (v.containerLen?.getD 0) <;> simp [Function.comp_def]
  · rfl

/-- When children are exchanged, a fragment that is no filter chooses the same steps. -/
theorem chosen_reviseAll [Libraries] {f : Fragment} (hf : f.isFilter = false) (hk : v.kind.isJson)
    (doc doc' : Value) :
    chosen f doc (v.reviseAll g) = (chosen f doc' v).map fun e => (e.1, g e.1 e.2) := by
  cases f with
  | root | current | bracket | descent => rfl
  | child name => simp only [chosen, memberAt?_reviseAll hk, Option.toList_map]
  | nth i => simp only [chosen, elementAt?_reviseAll hk, Option.toList_map]
  | wildcard => exact Value.reviseAll_entries hk
  | slice s =>
    simp only [chosen, isOrdered_reviseAll, containerLen?_reviseAll, Value.step?_reviseAll hk]
    split
    · simp [List.map_filterMap, Function.comp_def]
    · rfl
  | union keys =>
    rw [chosen, chosen, List.map_filterMap]
    refine List.filterMap_congr fun k _ => ?_
    cases k with
    | key name => exact memberAt?_reviseAll hk name
    | index i => exact elementAt?_reviseAll hk i
  | filter template => cases hf

end revised

end DocPath
