import DocPath.Proofs.Query.Nodes
import DocPath.Proofs.Update.Visit

/-!
# Where updates go that create nothing

An action other than setting goes where a query goes. The one exception is deleting, for
which a position outside a sequence is an error.
-/

namespace DocPath

variable [Libraries]

namespace Update

open DocPath.Path (containers)

variable {a : Action} {one : Bool} {before : List Fragment} {f next : Fragment} {p : Place}
  {doc v : Value} {loc : Location} {r : Progress}

def single : Fragment → Bool
  | .child _ | .nth _ => true
  | _ => false

/-- A step leads to the child that is chosen, if there is one. -/
theorem singleStep_chosen (a : Action) (hf : single p.fragment) (doc v : Value) :
    (∃ s, singleStep a p v = .ok s ∧
      chosen p.fragment doc v = (s.bind fun s => (v.step? s).map (s, ·)).toList) ∨
    a.isStrict ∧ ∃ e, singleStep a p v = .error e := by
  obtain ⟨before, f⟩ := p
  cases f with
  | child name =>
    refine Or.inl ⟨_, rfl, ?_⟩
    cases v <;> rfl
  | nth i =>
    by_cases ho : v.isOrdered
    · simp only [singleStep, chosen, elementAt?, ho, if_true]
      cases hn : normalizeIndex i (v.containerLen?.getD 0) with
      | some n => exact Or.inl ⟨_, rfl, rfl⟩
      | none =>
        by_cases hs : a.isStrict
        · exact Or.inr ⟨hs, .outOfBounds (Place.text ⟨before, .nth i⟩), by simp only [hs, if_true]⟩
        · exact Or.inl ⟨none, by simp only [hs, if_false, Bool.false_eq_true], rfl⟩
    · exact Or.inl ⟨none, by simp only [singleStep, ho, if_false, Bool.false_eq_true],
        by simp only [chosen, elementAt?, ho, if_false, Bool.false_eq_true]; rfl⟩
  | _ => cases hf

/-- A name or position is followed into the child that it selects. -/
theorem follow_chosen (hset : a.isSet = false) (hf : single p.fragment) (next : Fragment)
    (hv : doc.pointer? loc = some v) :
    (∃ reached, follow a p next doc loc = .ok (doc, reached) ∧
      reached.toList = (containers (chosen p.fragment doc v)).map fun e => loc ++ [e.1]) ∨
    a.isStrict ∧ ∃ e, follow a p next doc loc = .error e := by
  rcases singleStep_chosen a hf doc v with ⟨s, hs, hc⟩ | ⟨hstrict, e, he⟩
  · left
    rw [hc]
    simp only [follow, hv, hs, bind, Except.bind]
    cases s with
    | none => exact ⟨none, rfl, rfl⟩
    | some s =>
      cases hstep : v.step? s with
      | none => exact ⟨none, by simp [hset, hstep], by simp [hstep]⟩
      | some c =>
        by_cases hcont : c.isContainer
        · exact ⟨some (loc ++ [s]), by simp [hstep, hcont], by simp [hstep, hcont]⟩
        · exact ⟨none, by simp [hset, hstep, hcont], by simp [hstep, hcont]⟩
  · exact Or.inr ⟨hstrict, e, by simp only [follow, hv, he, bind, Except.bind]⟩

theorem across_chosen {visit : Location → Progress → Option Visited} (hset : a.isSet = false)
    (hf : single p.fragment) (hv : r.doc.pointer? loc = some v) :
    across a p next visit loc r =
        inTurn visit
          (((containers (chosen p.fragment r.doc v)).map (·.1)).map fun s => loc ++ [s]) r ∨
      a.isStrict ∧ ∃ e, across a p next visit loc r = some (.error (r.finish (some e))) := by
  unfold across
  rcases follow_chosen hset hf next hv with
    ⟨reached, hfollow, hreached⟩ | ⟨hstrict, e, he⟩
  · left
    rw [List.map_map]
    have hlocs : (containers (chosen p.fragment r.doc v)).map ((fun s => loc ++ [s]) ∘ (·.1)) =
        reached.toList := hreached.symm
    rw [hlocs, hfollow]
    cases reached with
    | none => rfl
    | some l => exact (inTurn_singleton _ l r).symm
  · exact Or.inr ⟨hstrict, e, by rw [he]⟩

/-- Fragments before the last one are followed into the containers that they select. -/
theorem visit_picks (hset : a.isSet = false) (one : Bool) (before : List Fragment)
    (hf : f.picks) (next : Fragment) (more : List Fragment) (r : Progress)
    (hv : r.doc.pointer? loc = some v) :
    visit a one before (f :: next :: more) loc r =
        inTurn (visit a one (before ++ [f]) (next :: more))
          (((containers (chosen f r.doc v)).map (·.1)).map fun s => loc ++ [s]) r ∨
      a.isStrict ∧
        ∃ e, visit a one before (f :: next :: more) loc r = some (.error (r.finish (some e))) := by
  cases f with
  | root | current | bracket | descent => cases hf
  | child name => exact across_chosen (p := ⟨before, .child name⟩) hset rfl hv
  | nth i => exact across_chosen (p := ⟨before, .nth i⟩) hset rfl hv
  | _ => exact Or.inl (by simp only [visit, hv])

theorem chosen_nth_steps {i : Int64} {s : Option Step}
    (hs : singleStep a ⟨before, .nth i⟩ v = .ok s) :
    s.toList = (chosen (.nth i) doc v).map (·.1) := by
  simp only [singleStep] at hs
  by_cases ho : v.isOrdered
  · simp only [chosen, elementAt?, ho, if_true] at hs ⊢
    cases hn : normalizeIndex i (v.containerLen?.getD 0) with
    | none =>
      simp only [hn] at hs
      split at hs
      · cases hs
      · cases hs
        rfl
    | some n =>
      simp only [hn] at hs
      cases hs
      have hlt := lt_of_normalizeIndex hn
      cases v with
      | array items | slots refused items => simp [Value.step?, List.getElem?_eq_getElem hlt]
      | _ => cases ho
  · simp only [chosen, elementAt?, ho, if_false, Bool.false_eq_true] at hs ⊢
    cases hs
    rfl

/-- The last fragment of a path acts on the children that it selects. -/
theorem targets_picks (hset : a.isSet = false) (before : List Fragment) (hf : f.picks)
    (doc v : Value) :
    targets a ⟨before, f⟩ doc v = .ok ((chosen f doc v).map (·.1)) ∨
      a.isStrict ∧ ∃ e, targets a ⟨before, f⟩ doc v = .error e := by
  cases f with
  | root | current | bracket | descent => cases hf
  | nth i =>
    have hsingle : single (Place.fragment ⟨before, .nth i⟩) := rfl
    rcases singleStep_chosen a hsingle doc v with ⟨s, hs, -⟩ | ⟨hstrict, e, he⟩
    · left
      rw [← chosen_nth_steps hs]
      simp only [targets, hs, bind, Except.bind]
    · exact Or.inr ⟨hstrict, e, by simp only [targets, he, bind, Except.bind]⟩
  | child name | union keys =>
    left
    simp only [targets, hset, if_false, Bool.false_eq_true]
  | _ => exact Or.inl rfl

theorem apply_picks (hf : f.picks) (doc : Value) (loc : Location) (seen : List Value) :
    apply a one ⟨before, f⟩ doc loc seen = applyChildren a one ⟨before, f⟩ doc loc seen := by
  cases f with
  | root | current | bracket | descent => cases hf
  | _ => rfl

end Update
end DocPath
