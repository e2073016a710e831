import DocPath.Builtin
import DocPath.Proofs.Query.First
import DocPath.Proofs.Update.Remove
import DocPath.Proofs.Value.Pruning

/-!
# A filter under a descent

A removal by such a path goes through a document from the inside out, so that a script is
evaluated for a child after matches inside it are gone. What is left is the pruned document.
All that was selected at first has been removed, and nothing else, where the script does not
ask for what is removed.
-/

namespace DocPath

open Update (chosen)
open Value (passing)
variable [Libraries]

omit [Libraries] in
theorem Value.isContainer_of_step? {v c : Value} {s : Step} (h : v.step? s = some c) :
    v.isContainer := by
  cases Value.step?_eq_some_iff.mp h <;> rfl

variable {t : Script} {doc v : Value}

/-- Without paths into the document, a filter chooses by what the script says of each child. -/
theorem chosen_filter (ht : t.rootFree) (doc v : Value) :
    chosen (.filter t) doc v = v.entries.filter fun e => t.holds e.2 := by
  rw [chosen, Script.selectEntries]
  refine List.filter_congr fun e _ => ?_
  rw [Script.holds, Script.eval_of_rootFree ht e.2 doc e.2]

/-- The script `(@.name exists true)` holds for what has a member of that name. -/
theorem Script.holds_present (name : String) (v : Value) :
    Script.holds [.op .present, .operand (.path [.current, .child name]), .operand (.bool true)] v =
      (v.getKey? name).isSome := by
  simp only [Script.holds, Script.eval, cells, Operand.resolve, Search.first?_eq_head?_get,
    Search.get_eq_reached, selectors, Fragment.selector, Path.origin, Search.reached]
  cases h : v.getKey? name with
  | none => rfl
  | some c => cases c <;> rfl

/-- A filter under a descent selects all nodes below a value for which the script holds. -/
theorem mem_nodes_descent_filter (ht : t.rootFree) (hv : v.Plain) (order : Order)
    (l k : Location) (c : Value) :
    (k, c) ∈ Path.nodes order doc [.descent, .filter t] (l, v) ↔
      ∃ m, k = l ++ m ∧ v.pointer? m = some c ∧ m ≠ [] ∧ t.holds c := by
  have hfilter : (Fragment.filter t).picks := rfl
  induction v using Value.childrenInduction generalizing l k c with
  | step v ih =>
    obtain ⟨hkind, hn, hc⟩ := Value.formed_iff.mp hv
    rw [Path.mem_nodes_descent, Path.nodes, Fragment.nodes_of_picks hfilter, chosen_filter ht,
      List.mem_map]
    constructor
    · rintro (⟨e, he, hnode⟩ | ⟨e, he, hnode⟩)
      · obtain ⟨he, hholds⟩ := List.mem_filter.mp he
        obtain ⟨rfl, rfl⟩ := Prod.mk.inj hnode
        have hstep := Value.step?_of_mem_entries hn he
        exact ⟨[e.1], rfl, by simp [Value.pointer?, hstep], List.cons_ne_nil _ _, hholds⟩
      · have he := List.mem_of_mem_filter he
        have hchild := Value.mem_children_of_mem_entries he
        have hstep := Value.step?_of_mem_entries hn he
        obtain ⟨m, rfl, hm, -, hholds⟩ :=
          (ih e.2 hchild (hc e.2 hchild) (l ++ [e.1]) k c).mp hnode
        exact ⟨e.1 :: m, by simp, by simp [Value.pointer?, hstep, hm], List.cons_ne_nil _ _, hholds⟩
    · rintro ⟨m, rfl, hm, hne, hholds⟩
      cases m with
      | nil => exact absurd rfl hne
      | cons s m =>
        obtain ⟨b, hstep, hb⟩ := Option.bind_eq_some_iff.mp hm
        have he := Value.mem_entries_of_step? hkind hstep
        cases m with
        | nil =>
          obtain rfl : b = c := Option.some.inj hb
          exact Or.inl ⟨(s, b), List.mem_filter.mpr ⟨he, hholds⟩, rfl⟩
        | cons u m =>
          obtain ⟨_, hu, -⟩ := Option.bind_eq_some_iff.mp hb
          have hcont : (s, b) ∈ Path.containers v.entries :=
            List.mem_filter.mpr ⟨he, Value.isContainer_of_step? hu⟩
          have hchild := Value.mem_children_of_step? hstep
          refine Or.inr ⟨(s, b), hcont, ?_⟩
          exact (ih b hchild (hc b hchild) (l ++ [s]) _ c).mpr
            ⟨u :: m, by simp, hb, List.cons_ne_nil _ _, hholds⟩

namespace Update

open DocPath.Path (aims containers containers_sublist)

variable {before : List Fragment}

/-- When all children have been pruned, the filter takes away those that are left to go. -/
theorem deleteWhere_pruned (ht : t.rootFree) (hv : v.Plain) {w : Value}
    (hw : w = v.reviseAll fun _ c => c.prune t.holds) :
    w.deleteWhere (aims doc [.filter t] w) = v.prune t.holds := by
  obtain ⟨hkind, hn, -⟩ := Value.formed_iff.mp hv
  have hfilter : (Fragment.filter t).picks := rfl
  have hentries : w.entries = v.entries.map fun e => (e.1, e.2.prune t.holds) := by
    rw [hw, Value.reviseAll_entries hkind]
  rw [Value.deleteWhere_eq, hw, Value.reviseAll_revise, ← hw, Value.prune_eq]
  refine Value.revise_congr fun e he => ?_
  have below : ∀ l, decide (e.1 :: l ∈ Path.locations doc [.filter t] w) → l = [] :=
    fun l hl => Path.eq_nil_of_mem_locations_last hfilter (of_decide_eq_true hl)
  have chosen_iff : [e.1] ∈ Path.locations doc [.filter t] w ↔ t.holds (e.2.prune t.holds) := by
    rw [Path.mem_locations_last hfilter, chosen_filter ht, hentries, List.mem_map]
    constructor
    · rintro ⟨e', he', hs⟩
      obtain ⟨hmem, hholds⟩ := List.mem_filter.mp he'
      obtain ⟨e₀, he₀, rfl⟩ := List.mem_map.mp hmem
      obtain rfl := Value.eq_of_mem_entries hn he he₀ hs
      exact hholds
    · intro hholds
      refine ⟨(e.1, e.2.prune t.holds), List.mem_filter.mpr ⟨?_, hholds⟩, rfl⟩
      exact List.mem_map_of_mem he
  rw [Value.spare, Value.deleteWhere_eq_self below, Value.remains]
  simp only [chosen_iff, decide_eq_true_eq]

/-- A removal by a filter under a descent prunes each value that it visits. -/
theorem underneath_prunes (ht : t.rootFree) (doc : Value) (loc : Location) (hv : v.Plain) :
    Exchanges .remove (underneath (visit .remove false before [.filter t])) loc v
      (v.prune t.holds) [] := by
  induction v using Value.childrenInduction generalizing loc with
  | step v ih =>
    obtain ⟨hkind, hn, hc⟩ := Value.formed_iff.mp hv
    have hsub := containers_sublist v.entries
    have below := inTurn_exchanges (fun c => c.prune t.holds) (fun _ => [])
      (containers v.entries) ((Value.steps_nodup hn).sublist (hsub.map _)) hkind hn
      (fun e he => hsub.subset he) fun e he =>
        ih e.2 (Value.mem_children_of_mem_entries (hsub.subset he)) (loc ++ [e.1])
          (hc e.2 (Value.mem_children_of_mem_entries (hsub.subset he)))
    -- children that are no containers have nothing to prune
    have all : (v.reviseAll fun s c => if s ∈ (containers v.entries).map (·.1) then
        c.prune t.holds else c) = v.reviseAll fun _ c => c.prune t.holds := by
      refine Value.reviseAll_congr fun e he => ?_
      by_cases hcont : e.2.isContainer
      · have hmem : e.1 ∈ (containers v.entries).map (·.1) :=
          List.mem_map.mpr ⟨e, List.mem_filter.mpr ⟨he, hcont⟩, rfl⟩
        rw [if_pos hmem]
      · rw [Value.prune_of_not_isContainer (by simpa using hcont), ite_self]
    rw [all, List.flatMap_eq_nil_iff.mpr fun _ _ => rfl] at below
    have hpruned : (v.reviseAll fun _ c => c.prune t.holds).Plain := by
      refine hv.revise fun e he w hw => ?_
      cases hw
      exact Value.Plain.prune (hc e.2 (Value.mem_children_of_mem_entries he)) t.holds
    have hfilter : (Fragment.filter t).picks := rfl
    have last : Deletes .remove doc [.filter t] (visit .remove false before [.filter t]) :=
      act_deletes rfl hfilter ht doc
    have both := below.andThen (last loc _ hpruned)
    rw [deleteWhere_pruned ht hv rfl] at both
    intro r hr
    rw [underneath_of_pointer? hr]
    exact both r hr

end Update
end DocPath

namespace DocPath.Path

open Update (Exchanges State)
open Value (passing Steadfast)

/-- What a removal by a filter under a descent does, for scripts that do not read the document.
The path selects the nodes below the document for which the script holds. The removal takes
away the children for which the script holds when what is in them has been dealt with. These
are the selected ones if the script is steadfast: if, wherever no container around is selected,
it says the same of a node as after pruning. -/
theorem remove_eq_prune [Libraries] {t : Script} (ht : t.rootFree) {doc : Value} (hd : doc.Plain) :
    let p : Path := [.root, .descent, .filter t]
    let selected := nodes .parentsFirst doc p ([], doc)
    selected.map (·.2) = p.get doc ∧
    (∀ l c, (l, c) ∈ selected ↔ doc.pointer? l = some c ∧ l ≠ [] ∧ t.holds c) ∧
    p.remove doc = ⟨doc.prune t.holds, [], none⟩ ∧
    State.Ends .remove false ⟨doc, [], [⟨[], p, false, [[]]⟩]⟩ ⟨doc.prune t.holds, [], none⟩ ∧
    (Steadfast t.holds doc →
      p.remove doc = ⟨doc.deleteWhere fun l => decide (l ∈ selected.map (·.1)), [], none⟩) := by
  intro p selected
  have hselected : ∀ l c, (l, c) ∈ selected ↔ doc.pointer? l = some c ∧ l ≠ [] ∧ t.holds c := by
    intro l c
    simp only [selected, p, nodes_root, mem_nodes_descent_filter ht hd, List.nil_append]
    constructor
    · rintro ⟨m, rfl, h⟩
      exact h
    · exact fun h => ⟨l, rfl, h⟩
  have hlast : p.getLast? = some (.filter t) := rfl
  have hcall : Exchanges .remove (Update.visit .remove false [] p) [] doc (doc.prune t.holds) [] :=
    Update.underneath_prunes ht doc [] hd
  obtain ⟨hends, hcase⟩ := update_of_exchanges hlast rfl hcall
  have hlax : ¬Action.remove.isStrict := Bool.false_ne_true
  have hremove : p.remove doc = ⟨doc.prune t.holds, [], none⟩ :=
    hcase.resolve_right fun hfail => hlax hfail.1
  have hends : State.Ends .remove false ⟨doc, [], [⟨[], p, false, [[]]⟩]⟩ (p.remove doc) := hends
  rw [hremove] at hends
  refine ⟨nodes_values p doc, hselected, hremove, hends, fun hsteady => ?_⟩
  rw [hremove, Value.prune_eq_deleteWhere hd hsteady]
  congr 1
  refine Value.deleteWhere_congr (fun s l => ?_) doc
  rw [Bool.eq_iff_iff, Value.passing_iff, decide_eq_true_eq, List.mem_map]
  constructor
  · rintro ⟨hne, c, hc, hholds⟩
    exact ⟨(s :: l, c), (hselected _ c).mpr ⟨hc, hne, hholds⟩, rfl⟩
  · rintro ⟨⟨_, c⟩, hn, rfl⟩
    obtain ⟨hc, hne, hholds⟩ := (hselected _ c).mp hn
    exact ⟨hne, c, hc, hholds⟩

/-- In `[{"a":{"b":[{"a":1},3]}},{"b":{"a":2},"c":4}]` all that the script of `$..[?(@.a)]` asks
for is still there when it is asked, though other matches inside have gone. -/
theorem remove_eq_prune_of_nested :
    let t : Script := [.op .present, .operand (.path [.current, .child "a"]),
      .operand (.bool true)]
    let p : Path := [.root, .descent, .filter t]
    let doc : Value := .array
      [.object [("a", .object [("b", .array [.object [("a", .int 1)], .int 3])])],
        .object [("b", .object [("a", .int 2)]), ("c", .int 4)]]
    t.rootFree ∧ doc.Plain ∧ Steadfast t.holds doc ∧
      p.remove doc = ⟨.array [.object [("c", .int 4)]], [], none⟩ ∧
      p.remove doc = ⟨doc.deleteWhere fun l =>
        decide (l ∈ (nodes .parentsFirst doc p ([], doc)).map (·.1)), [], none⟩ := by
  intro t p doc
  have hholds : t.holds = fun v => (v.getKey? "a").isSome :=
    funext (Script.holds_present "a")
  have ht : t.rootFree := rfl
  have hd : doc.Plain := by decide
  have hsteady : Steadfast t.holds doc := by
    have scalar : Steadfast (fun v => (v.getKey? "a").isSome) (.int 4) :=
      (Value.steadfast_iff (by decide)).mpr nofun
    -- the first item passes the test, so that nothing in it matters; the second does not
    have second : Steadfast (fun v => (v.getKey? "a").isSome)
        (.object [("b", .object [("a", .int 2)]), ("c", .int 4)]) := by
      refine (Value.steadfast_iff (by decide)).mpr ?_
      exact List.forall_mem_cons.mpr ⟨⟨rfl, nofun⟩,
        List.forall_mem_singleton.mpr ⟨rfl, fun _ => scalar⟩⟩
    rw [hholds]
    refine (Value.steadfast_iff hd).mpr ?_
    exact List.forall_mem_cons.mpr ⟨⟨rfl, nofun⟩,
      List.forall_mem_singleton.mpr ⟨rfl, fun _ => second⟩⟩
  obtain ⟨-, -, hremove, -, hdelete⟩ := remove_eq_prune ht hd
  have hpruned : doc.prune t.holds = .array [.object [("c", .int 4)]] := by
    rw [hholds]
    rfl
  rw [hpruned] at hremove
  exact ⟨ht, hd, hsteady, hremove, hdelete hsteady⟩

/-- In `[{"a":{"a":1}}]` the inner object is removed first. The outer one has lost the member
that the script asks for, and it stays. -/
theorem remove_ne_deleteWhere_of_nested :
    let t : Script := [.op .present, .operand (.path [.current, .child "a"]),
      .operand (.bool true)]
    let p : Path := [.root, .descent, .filter t]
    let doc : Value := .array [.object [("a", .object [("a", .int 1)])]]
    let selected := nodes .parentsFirst doc p ([], doc)
    Path.parse "$..[?(@.a)]" = .ok p ∧ p.remove doc = ⟨.array [.object []], [], none⟩ ∧
      (doc.deleteWhere fun l => decide (l ∈ selected.map (·.1))) = .array [] := by
  intro t p doc selected
  have hholds : t.holds = fun v => (v.getKey? "a").isSome :=
    funext (Script.holds_present "a")
  have ht : t.rootFree := rfl
  have hd : doc.Plain := by decide
  obtain ⟨-, hselected, hremove, -⟩ := remove_eq_prune ht hd
  rw [hholds] at hremove hselected
  have hfirst : [.index 0] ∈ selected.map (·.1) :=
    List.mem_map.mpr ⟨_, (hselected [.index 0] _).mpr ⟨rfl, List.cons_ne_nil _ _, rfl⟩, rfl⟩
  refine ⟨rfl, hremove, ?_⟩
  simp only [doc, Value.deleteWhere, Value.deleteItems, hfirst, decide_true, if_true]

end DocPath.Path
