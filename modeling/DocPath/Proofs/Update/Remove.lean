import DocPath.Builtin
import DocPath.Proofs.Update.Exchange
import DocPath.Proofs.Value.Removal

/-!
# Removing is deleting what was selected

Removals shift elements while other locations still wait. They do no harm as long as the
containers below are done with before a value loses children of its own: every list of
children is then read before it is changed, and the document ends up as if all selected
locations had been deleted from it at once.
-/

namespace DocPath

variable [Libraries]

namespace Update

open DocPath.Path (aims behind containers containers_sublist locations mem_behind Steady)

variable {a : Action} {before rest : List Fragment} {f g : Fragment} {doc v : Value}
  {loc : Location} {call : Location → Progress → Option Visited}

/-- A visit of a location deletes what a path selects below it. -/
def Deletes (a : Action) (doc : Value) (p : Path) (call : Location → Progress → Option Visited) :
    Prop :=
  ∀ loc v, v.Plain → Exchanges a call loc v (v.deleteWhere (aims doc p v)) []

/-- Visits of different children that delete within them delete within their container. -/
theorem inTurn_deletes {p : Path} (hp : Steady p) (hv : v.Plain) (es : List (Step × Value))
    (hnodup : (es.map (·.1)).Nodup) (hes : ∀ e ∈ es, e ∈ v.entries)
    (h : ∀ e ∈ es, Exchanges a call (loc ++ [e.1]) e.2
      (e.2.deleteWhere fun l => decide (l ∈ locations doc p e.2)) []) :
    Exchanges a (fun loc => inTurn call ((es.map (·.1)).map fun s => loc ++ [s])) loc v
      (v.deleteWhere fun l => decide (l ∈ behind es (locations doc p))) [] := by
  obtain ⟨hk, hn, -⟩ := Value.formed_iff.mp hv
  have all := inTurn_inward Path.inward_deleteWhere hp doc (fun _ => []) es hnodup hk hn hes h
  rwa [List.flatMap_eq_nil_iff.mpr fun _ _ => rfl] at all

theorem removeChildren_eq_deleteWhere (hv : v.Plain) (hf : f.picks) (doc : Value) :
    ∃ had, v.removeChildren ((chosen f doc v).map (·.1)) =
      ((v.deleteWhere fun l => decide (l ∈ locations doc [f] v), had), none) := by
  obtain ⟨had, h⟩ := Value.removeChildren_eq_revise hv ((chosen f doc v).map (·.1))
  refine ⟨had, h.trans ?_⟩
  rw [Value.deleteWhere_eq]
  refine congrArg (fun w => ((w, had), none)) (Value.revise_congr fun e _ => ?_)
  have below : ∀ l, decide (e.1 :: l ∈ locations doc [f] v) → l = [] := fun l hl =>
    Path.eq_nil_of_mem_locations_last hf (of_decide_eq_true hl)
  rw [Value.spare, Value.deleteWhere_eq_self below]
  simp only [Path.mem_locations_last hf, decide_eq_true_eq]

theorem act_of_targets (ha : a.deletes) (hf : f.picks) {r : Progress} (v : Value)
    (steps : List Step) {d v' : Value} {had : Bool} (hv : r.doc.pointer? loc = some v)
    (hsteps : targets a ⟨before, f⟩ r.doc v = .ok steps)
    (hremove : v.removeChildren steps = ((v', had), none)) (hput : r.doc.put? loc v' = some d) :
    r.act a false ⟨before, f⟩ loc = .ok ⟨d, r.seen⟩ := by
  have hacts := actOn_deletes false ⟨before, f⟩ r.seen ha hremove
  simp [Progress.act, apply_picks hf, applyChildren, actAt, hv, hsteps, hacts, hput]

/-- The last fragment deletes the children that it selects. -/
theorem act_deletes (ha : a.deletes) (hf : f.picks) (free : f.rootFree) (doc : Value) :
    Deletes a doc [f] (visit a false before [f]) := by
  intro loc v hv r hr
  rcases targets_picks (Action.isSet_of_deletes ha) before hf r.doc v with
    htargets | ⟨hstrict, e, he⟩
  · obtain ⟨d, hput⟩ := Value.exists_put? hr (v.deleteWhere fun l =>
      decide (l ∈ locations doc [f] v))
    obtain ⟨had, hremove⟩ := removeChildren_eq_deleteWhere hv hf doc
    rw [← chosen_of_rootFree free r.doc doc v] at hremove
    exact Or.inl ⟨d, hput, congrArg some (act_of_targets ha hf v _ hr htargets hremove hput)⟩
  · refine Or.inr ⟨hstrict, Progress.finish ⟨r.doc, r.seen⟩ (some e), ?_, rfl⟩
    simp [visit, Progress.act, apply_picks hf, applyChildren, actAt, hr, he,
      Value.put?_pointer? hr, Progress.finish]

/-- A descent deletes what is selected below a value, and then from the value itself. -/
theorem underneath_deletes (hp : Steady (.descent :: g :: rest))
    (h : Deletes a doc (g :: rest) call) :
    Deletes a doc (.descent :: g :: rest) (underneath call) := by
  intro loc v hv
  induction v using Value.childrenInduction generalizing loc with
  | step v ih =>
    obtain ⟨-, hn, hc⟩ := Value.formed_iff.mp hv
    have hsub := containers_sublist v.entries
    have below := inTurn_deletes hp hv (containers v.entries)
      ((Value.steps_nodup hn).sublist (hsub.map _)) (fun e he => hsub.subset he)
      (fun e he => ih e.2 (Value.mem_children_of_mem_entries (hsub.subset he)) (loc ++ [e.1])
        (hc e.2 (Value.mem_children_of_mem_entries (hsub.subset he))))
    have both := below.andThen (h loc _ (hv.deleteWhere _))
    rw [hp.deleteWhere_descent hv rfl] at both
    intro r hr
    rw [underneath_of_pointer? hr]
    exact both r hr

/-- A visit deletes what its path selects. -/
theorem visit_deletes (ha : a.deletes) {p : Path} (hp : Steady p) (doc : Value)
    (before : List Fragment) : Deletes a doc p (visit a false before p) := by
  induction hp generalizing before with
  | last picks free => exact act_deletes ha picks free doc
  | @through f g rest picks free apart more ih =>
    intro loc v hv r hr
    obtain ⟨hk, hn, -⟩ := Value.formed_iff.mp hv
    rcases visit_picks (Action.isSet_of_deletes ha) false before picks g rest r hr with
      h | ⟨hstrict, e, he⟩
    · have hsub := containers_sublist (chosen f doc v)
      have hstep : ∀ e ∈ containers (chosen f doc v), v.step? e.1 = some e.2 :=
        fun e he => step?_of_mem_chosen hn (hsub.subset he)
      have hall := inTurn_deletes more hv (containers (chosen f doc v))
        ((chosen_nodup apart doc hn).sublist (hsub.map _))
        (fun e he => Value.mem_entries_of_step? hk (hstep e he))
        (fun e he => ih (before ++ [f]) (loc ++ [e.1]) e.2 (Value.formed_step? hv (hstep e he)))
        r hr
      rw [h, chosen_of_rootFree free r.doc doc v, more.downward.aims_through picks]
      exact hall
    · exact Or.inr ⟨hstrict, _, he, rfl⟩
  | descent flat more ih =>
    exact underneath_deletes (.descent flat more) (ih (before ++ [.descent]))

end Update
end DocPath

namespace DocPath.Path

open Update (State)

theorem picks_of_moves {f : Fragment} (h : f.moves) (hd : f.isDescent = false) : f.picks := by
  cases f with
  | root | current | bracket => cases h
  | descent => cases hd
  | _ => rfl

theorem allows_remove_of_delete {f : Fragment} (h : Action.delete.allows f) :
    Action.remove.allows f := by
  cases f with
  | filter template => rfl
  | _ => exact h

theorem picks_of_allows {f : Fragment} (h : Action.remove.allows f) : f.picks := by
  cases f with
  | root | current | bracket | descent => cases h
  | _ => rfl

/-- Deletions on the way do not touch what the path still has to select: it has one descent
at most and no filters, or it has no descents, and no filter reads the document. -/
def Foreseeable (p : Path) : Prop :=
  ((∀ f ∈ p, f.isFilter = false) ∧ p.countP Fragment.isDescent ≤ 1) ∨
    ∀ f ∈ p, f.isDescent = false ∧ f.rootFree

theorem Foreseeable.tail {f : Fragment} {rest : Path} (h : Foreseeable (f :: rest)) :
    Foreseeable rest := by
  rcases h with ⟨hfilter, hone⟩ | hfree
  · rw [List.countP_cons] at hone
    exact Or.inl ⟨fun g hg => hfilter g (List.mem_cons_of_mem f hg), by omega⟩
  · exact Or.inr fun g hg => hfree g (List.mem_cons_of_mem f hg)

theorem Foreseeable.rootFree {p : Path} (h : p.Foreseeable) {f : Fragment} (hf : f ∈ p) :
    f.rootFree := by
  rcases h with ⟨hfilter, -⟩ | hfree
  · exact Fragment.rootFree_of_not_isFilter (hfilter f hf)
  · exact (hfree f hf).2

theorem Foreseeable.flat {rest : Path} (h : Foreseeable (.descent :: rest))
    (hmoves : ∀ f ∈ rest, f.moves) : ∀ f ∈ rest, f.picks ∧ f.isFilter = false := by
  rcases h with ⟨hfilter, hone⟩ | hfree
  · rw [List.countP_cons_of_pos (by decide)] at hone
    have none : rest.countP Fragment.isDescent = 0 := by omega
    refine fun f hf => ⟨picks_of_moves (hmoves f hf) ?_, hfilter f (List.mem_cons_of_mem _ hf)⟩
    simpa using List.countP_eq_zero.mp none f hf
  · cases (hfree .descent List.mem_cons_self).1

/-- Foreseeable paths that go down and choose no child twice on the way are steady. -/
theorem Foreseeable.steady {p : Path} {last : Fragment} (h : p.Foreseeable)
    (hmoves : ∀ f ∈ p, f.moves) (hlast : p.getLast? = some last) (hpicks : last.picks)
    (hunions : ∀ f ∈ p.dropLast, f.apart) : Steady p := by
  induction p with
  | nil => cases hlast
  | cons f rest ih =>
    have free := h.rootFree List.mem_cons_self
    cases rest with
    | nil =>
      obtain rfl : f = last := Option.some.inj hlast
      exact .last hpicks free
    | cons g rest =>
      rw [List.dropLast_cons_cons, List.forall_mem_cons] at hunions
      rw [List.forall_mem_cons] at hmoves
      have more := ih h.tail hmoves.2 (by simpa using hlast) hunions.2
      by_cases hd : f.isDescent
      · obtain rfl : f = .descent := by cases f <;> first | rfl | cases hd
        exact .descent (h.flat hmoves.2) more
      · have hd : f.isDescent = false := by simpa using hd
        exact .through (picks_of_moves hmoves.1 hd) free hunions.1 more

/-- From the document, an anchored path deletes what it selects there. -/
theorem visit_anchored_deletes [Libraries] {p : Path} (hp : p.Anchored) {last : Fragment}
    (hlast : p.getLast? = some last) (hpicks : last.picks) (hunions : ∀ f ∈ p.dropLast, f.apart)
    (h : p.Foreseeable) {doc : Value} (hd : doc.Plain) {a : Action} (ha : a.deletes) :
    Update.Exchanges a (Update.visit a false [] p) [] doc
      (doc.deleteWhere fun l => decide (l ∈ locations doc p doc)) [] := by
  cases p with
  | nil => cases hlast
  | cons f rest =>
    by_cases hf : f.moves
    · have hsteady := h.steady (List.forall_mem_cons.mpr ⟨hf, hp⟩) hlast hpicks hunions
      exact Update.visit_deletes ha hsteady doc [] [] doc hd
    · cases rest with
      | nil =>
        obtain rfl : f = last := Option.some.inj hlast
        cases f with
        | root | current | bracket => cases hpicks
        | _ => exact absurd rfl hf
      | cons g rest =>
        -- the first fragment stays at the document
        rw [List.dropLast_cons_cons, List.forall_mem_cons] at hunions
        have hsteady := h.tail.steady hp (by simpa using hlast) hpicks hunions.2
        have hrest := Update.visit_deletes ha hsteady doc [f] [] doc hd
        rw [locations_of_not_moves hf]
        cases f with
        | root | current | bracket => exact hrest
        | _ => exact absurd rfl hf

/-- Removing deletes the children at exactly the locations that the path selects in the
document as it was, those of the values that a query finds. Deleting does the same whenever
it succeeds. -/
theorem remove_eq_deleteWhere [Libraries] {text : String} {p : Path} (hp : Path.parse text = .ok p)
    {last : Fragment} (hlast : p.getLast? = some last) (hallows : Action.remove.allows last)
    (hunions : ∀ f ∈ p.dropLast, f.apart) (h : p.Foreseeable) {doc : Value} (hd : doc.Plain) :
    let selected := nodes .parentsFirst doc p ([], doc)
    let kept := doc.deleteWhere fun l => decide (l ∈ selected.map (·.1))
    selected.map (·.2) = p.get doc ∧ (∀ n ∈ selected, doc.pointer? n.1 = some n.2) ∧
      p.remove doc = ⟨kept, [], none⟩ ∧
      State.Ends .remove false ⟨doc, [], [⟨[], p, false, [[]]⟩]⟩ ⟨kept, [], none⟩ ∧
      ((p.delete doc).error = none → p.delete doc = ⟨kept, [], none⟩) := by
  intro selected kept
  have visited : ∀ {a : Action}, a.deletes →
      Update.visit a false [] p [] ⟨doc, []⟩ = some (.ok ⟨kept, []⟩) ∨
        a.isStrict ∧ ∃ o, Update.visit a false [] p [] ⟨doc, []⟩ = some (.error o) ∧
          o.error.isSome := by
    intro a ha
    rcases visit_anchored_deletes (anchored_of_parseBytes hp) hlast (picks_of_allows hallows)
      hunions h hd ha ⟨doc, []⟩ rfl with ⟨d, hput, hvisit⟩ | hfail
    · cases hput
      exact Or.inl hvisit
    · exact Or.inr hfail
  have hremove : Update.visit .remove false [] p [] ⟨doc, []⟩ = some (.ok ⟨kept, []⟩) := by
    rcases visited (a := .remove) rfl with hvisit | ⟨hstrict, -⟩
    · exact hvisit
    · cases hstrict
  have hget : selected.map (·.2) = p.get doc := nodes_values p doc
  have hroot : Node.At doc ([], doc) := rfl
  refine ⟨hget, fun n hn => at_of_mem_nodes hd.wellFormed .parentsFirst p hroot hn,
    update_of_visit hlast hallows hremove, Update.ends_of_visit hremove, fun hok => ?_⟩
  by_cases hdelete : Action.delete.allows last
  · rcases visited (a := .delete) rfl with hvisit | ⟨-, o, hvisit, hsome⟩
    · exact update_of_visit hlast hdelete hvisit
    · have hend : p.delete doc = o := update_of_visit hlast hdelete hvisit
      rw [hend] at hok
      simp [hok] at hsome
  · simp [delete, update, hlast, hdelete] at hok

/-- A selected list whose first element is selected too: both go. -/
theorem remove_eq_deleteWhere_of_nested :
    let p : Path := [.root, .descent, .nth 0]
    let doc : Value := .object [("a", .array [.array [.int 1, .int 2], .int 3])]
    Path.parse "$..[0]" = .ok p ∧ p.Foreseeable ∧ doc.Plain ∧
      p.remove doc = ⟨.object [("a", .array [.int 3])], [], none⟩ := by
  intro p doc
  have hp : Path.parse "$..[0]" = .ok p := rfl
  have hforeseeable : p.Foreseeable := Or.inl ⟨by decide, by decide⟩
  have hd : doc.Plain := by decide
  have hunions : ∀ f ∈ p.dropLast, f.apart := by simp [p, Fragment.apart]
  obtain ⟨-, -, hremove, -⟩ := remove_eq_deleteWhere hp rfl rfl hunions hforeseeable hd
  let inner : Value := .array [.int 1, .int 2]
  let outer : Value := .array [inner, .int 3]
  have steady : Steady [.descent, .nth 0] := .descent (by decide) (.last rfl rfl)
  have hinner : locations doc [.descent, .nth 0] inner = [[.index 0]] := by
    rw [steady.downward.locations_descent, locations_last rfl]
    rfl
  have below : behind [(.index 0, inner)] (locations doc [.descent, .nth 0]) =
      [[.index 0, .index 0]] := by simp [behind, hinner]
  have houter : locations doc [.descent, .nth 0] outer = [[.index 0], [.index 0, .index 0]] := by
    rw [steady.downward.locations_descent, locations_last rfl]
    exact congrArg ([[.index 0]] ++ ·) below
  have all : locations doc p doc = [[.key "a", .index 0], [.key "a", .index 0, .index 0]] := by
    rw [locations_of_not_moves (by decide), steady.downward.locations_descent, locations_last rfl]
    have top : behind [(.key "a", outer)] (locations doc [.descent, .nth 0]) =
        [[.key "a", .index 0], [.key "a", .index 0, .index 0]] := by simp [behind, houter]
    exact top
  rw [locations] at all
  rw [all] at hremove
  exact ⟨hp, hforeseeable, hd, hremove⟩

end DocPath.Path
