import DocPath.Proofs.Query.Locations
import DocPath.Proofs.Update.Choice

/-!
# Visits that exchange a value

What a visit does to a document when it knows what to put in the place of the value at its
location. Such visits of different children add up to one of their container.
-/

namespace DocPath.Update

open DocPath.Path (Inward Steady behind locations)

variable {a : Action} {v w : Value} {vs ws : List Value} {loc : Location}
  {call : Location → Progress → Option Visited}

/-- A visit of a location exchanges the value `v` there for `w` and hands over the values `vs`
meanwhile, or it fails where positions are checked. -/
def Exchanges (a : Action) (call : Location → Progress → Option Visited) (loc : Location)
    (v w : Value) (vs : List Value) : Prop :=
  ∀ r : Progress, r.doc.pointer? loc = some v →
    (∃ d, r.doc.put? loc w = some d ∧
      call loc r = some (.ok (Progress.hand ⟨d, r.seen⟩ vs))) ∨
    a.isStrict ∧ ∃ o, call loc r = some (.error o) ∧ o.error.isSome

theorem Exchanges.andThen {v' : Value} {call' : Location → Progress → Option Visited}
    (h : Exchanges a call loc v v' vs) (h' : Exchanges a call' loc v' w ws) :
    Exchanges a (fun loc r => (call loc r).bind (Visited.andThen · (call' loc))) loc v w
      (vs ++ ws) := by
  intro r hr
  rcases h r hr with ⟨d, hput, hcall⟩ | ⟨hstrict, o, ho, hsome⟩
  · rcases h' (Progress.hand ⟨d, r.seen⟩ vs) (Value.pointer?_put? hput) with
      ⟨d', hput', hcall'⟩ | ⟨hstrict, o, ho, hsome⟩
    · have hput' : d.put? loc w = some d' := hput'
      rw [Value.put?_put? hput] at hput'
      refine Or.inl ⟨d', hput', ?_⟩
      rw [Progress.hand_append]
      simp only [hcall, Option.bind_some, Visited.andThen]
      exact hcall'
    · exact Or.inr ⟨hstrict, o, by simpa [hcall, Visited.andThen] using ho, hsome⟩
  · exact Or.inr ⟨hstrict, o, by simp [ho, Visited.andThen], hsome⟩

/-- An exchange of a child is one of its container. -/
theorem Exchanges.parent {s : Step} {c v' : Value} (h : Exchanges a call (loc ++ [s]) c w vs)
    (hs : v.step? s = some c) (hv' : v.putStep? s w = some v') :
    Exchanges a (fun loc => call (loc ++ [s])) loc v v' vs := by
  intro r hr
  rcases h r (Value.pointer?_snoc_of_step? hr hs) with ⟨d, hput, hcall⟩ | hfail
  · rw [Value.put?_snoc hr, hv', Option.bind_some] at hput
    exact Or.inl ⟨d, hput, hcall⟩
  · exact Or.inr hfail

/-- To exchange a child and then some others is to exchange them all. -/
theorem reviseAll_exchange {new : Value → Value} {e : Step × Value} {steps : List Step}
    (hn : v.names.Nodup) (he : e ∈ v.entries) (hnot : e.1 ∉ steps) :
    (v.reviseAll fun s c => if s = e.1 then new e.2 else c).reviseAll
        (fun s c => if s ∈ steps then new c else c) =
      v.reviseAll fun s c => if s ∈ e.1 :: steps then new c else c := by
  rw [Value.reviseAll_reviseAll]
  refine Value.reviseAll_congr fun e' he' => ?_
  by_cases heq : e'.1 = e.1
  · obtain rfl := Value.eq_of_mem_entries hn he he' heq
    simp [hnot]
  · simp [heq]

/-- The other children are still there after an exchange. -/
theorem mem_entries_of_exchange {v' : Value} {e e' : Step × Value} {es : List (Step × Value)}
    (hk : v.kind.isJson) (hn : v.names.Nodup) (hnot : e.1 ∉ es.map (·.1))
    (hv' : v.putStep? e.1 w = some v') (he' : e' ∈ es) (hmem : e' ∈ v.entries) :
    e' ∈ v'.entries := by
  have hne : e'.1 ≠ e.1 := fun heq =>
    hnot (by rw [← heq]; exact List.mem_map_of_mem (f := (·.1)) he')
  rw [Value.putStep?_eq_reviseAll hk hn hv', Value.reviseAll_entries hk]
  refine List.mem_map.mpr ⟨e', hmem, ?_⟩
  rw [if_neg hne]

/-- Visits of different children in turn exchange those children. -/
theorem inTurn_exchanges (new : Value → Value) (handed : Value → List Value)
    (es : List (Step × Value)) (hnodup : (es.map (·.1)).Nodup) (hk : v.kind.isJson)
    (hn : v.names.Nodup) (hes : ∀ e ∈ es, e ∈ v.entries)
    (h : ∀ e ∈ es, Exchanges a call (loc ++ [e.1]) e.2 (new e.2) (handed e.2)) :
    Exchanges a (fun loc => inTurn call ((es.map (·.1)).map fun s => loc ++ [s])) loc v
      (v.reviseAll fun s c => if s ∈ es.map (·.1) then new c else c)
      (es.flatMap fun e => handed e.2) := by
  induction es generalizing v with
  | nil =>
    intro r hr
    have same : (v.reviseAll fun s c => if s ∈ ([] : List (Step × Value)).map (·.1) then new c
        else c) = v := by simpa using Value.reviseAll_id v
    rw [same]
    exact Or.inl ⟨r.doc, Value.put?_pointer? hr, rfl⟩
  | cons e es ih =>
    rw [List.map_cons, List.nodup_cons] at hnodup
    have he := hes e List.mem_cons_self
    have hstep := Value.step?_of_mem_entries hn he
    obtain ⟨v', hv'⟩ := Value.exists_putStep? hstep (new e.2)
    have hrev := Value.putStep?_eq_reviseAll hk hn hv'
    have hrest : ∀ e' ∈ es, e' ∈ v'.entries := fun e' he' =>
      mem_entries_of_exchange hk hn hnodup.1 hv' he' (hes e' (List.mem_cons_of_mem e he'))
    have hk' : v'.kind.isJson := by rw [Value.putStep?_kind hv']; exact hk
    have hn' : v'.names.Nodup := by rw [Value.putStep?_names hv']; exact hn
    have first := (h e List.mem_cons_self).parent hstep hv'
    have others := ih hnodup.2 hk' hn' hrest fun e' he' => h e' (List.mem_cons_of_mem e he')
    rw [hrev, reviseAll_exchange hn he hnodup.1, ← hrev] at others
    exact first.andThen others

/-- Visits of different children that change what a path selects in them change what lies
behind the steps to them. -/
theorem inTurn_inward [Libraries] {change : (Location → Bool) → Value → Value} (hc : Inward change)
    {p : Path} (hp : Steady p) (doc : Value) (handed : Value → List Value)
    (es : List (Step × Value)) (hnodup : (es.map (·.1)).Nodup) (hk : v.kind.isJson)
    (hn : v.names.Nodup) (hes : ∀ e ∈ es, e ∈ v.entries)
    (h : ∀ e ∈ es, Exchanges a call (loc ++ [e.1]) e.2
      (change (fun l => decide (l ∈ locations doc p e.2)) e.2) (handed e.2)) :
    Exchanges a (fun loc => inTurn call ((es.map (·.1)).map fun s => loc ++ [s])) loc v
      (change (fun l => decide (l ∈ behind es (locations doc p))) v)
      (es.flatMap fun e => handed e.2) := by
  rw [← hc.reviseAll_behind (w := locations doc p) hn hes
    fun c hnil => hp.ne_nil_of_mem hnil rfl]
  exact inTurn_exchanges (fun c => change (fun l => decide (l ∈ locations doc p c)) c) handed es
    hnodup hk hn hes h

end DocPath.Update

namespace DocPath.Path

open Update (Exchanges State)

/-- What comes of an update whose visit of the document exchanges it. -/
theorem update_of_exchanges [Libraries] {p : Path} {a : Action} {doc w : Value} {vs : List Value}
    {last : Fragment} (hlast : p.getLast? = some last) (hallows : a.allows last)
    (h : Exchanges a (Update.visit a false [] p) [] doc w vs) :
    State.Ends a false ⟨doc, [], [⟨[], p, false, [[]]⟩]⟩ (p.update a false doc) ∧
      (p.update a false doc = ⟨w, vs, none⟩ ∨
        a.isStrict ∧ (p.update a false doc).error.isSome) := by
  rcases h ⟨doc, []⟩ rfl with ⟨d, hput, hvisit⟩ | ⟨hstrict, o, hvisit, herror⟩
  · cases hput
    rw [update_of_visit hlast hallows hvisit]
    refine ⟨Update.ends_of_visit hvisit, Or.inl ?_⟩
    simp [Update.Visited.outcome, Update.Progress.finish, Update.Progress.hand]
  · rw [update_of_visit hlast hallows hvisit]
    exact ⟨Update.ends_of_visit hvisit, Or.inr ⟨hstrict, herror⟩⟩

end DocPath.Path
