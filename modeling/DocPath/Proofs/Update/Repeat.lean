import DocPath.Builtin
import DocPath.Proofs.Query.Aims
import DocPath.Proofs.Update.Remove
import DocPath.Proofs.Value.Depth
import Mathlib.Data.List.Count
import Mathlib.Logic.Function.Iterate

/-!
# Locations that are visited again

A union before the last fragment may lead to one container several times. Each visit removes
what the last fragment selects in the container as it then is, so that of a sequence more may go
than was selected. How much goes is told by how often each container is reached.
-/

namespace DocPath

open Update (chosen)
variable [Libraries]

namespace Path

/-- The containers to which a path by names and positions leads, each as often as it does. -/
def reached (doc : Value) : Path → Value → List Location
  | [], _ => [[]]
  | f :: rest, v => behind (containers (chosen f doc v)) (reached doc rest)

/-- What is left of a container after one visit of the last fragment. -/
def cut (doc : Value) (f : Fragment) (v : Value) : Value := v.deleteWhere (aims doc [f] v)

variable {doc v : Value} {q : Path} {f : Fragment} {l : Location}

omit [Libraries] in
theorem count_behind {es : List (Step × Value)} {w : Value → List Location}
    (hn : v.names.Nodup) (hes : ∀ e ∈ es, e ∈ v.entries) {e : Step × Value} (he : e ∈ v.entries)
    (l : Location) :
    (behind es w).count (e.1 :: l) = (es.map (·.1)).count e.1 * (w e.2).count l := by
  induction es with
  | nil => simp [behind]
  | cons e' es ih =>
    have hrest := ih fun x hx => hes x (List.mem_cons_of_mem e' hx)
    have hsplit : behind (e' :: es) w = (w e'.2).map (e'.1 :: ·) ++ behind es w := rfl
    rw [hsplit, List.count_append, List.map_cons, hrest]
    by_cases hs : e'.1 = e.1
    · obtain rfl := Value.eq_of_mem_entries hn he (hes e' List.mem_cons_self) hs
      have hinj : Function.Injective fun m : Location => e'.1 :: m :=
        fun _ _ h => (List.cons.inj h).2
      rw [List.count_map_of_injective _ _ hinj, List.count_cons_self, Nat.add_mul, Nat.one_mul,
        Nat.add_comm]
    · have hnot : e.1 :: l ∉ (w e'.2).map (e'.1 :: ·) := by
        rintro hmem
        obtain ⟨m, -, hm⟩ := List.mem_map.mp hmem
        exact hs (List.cons.inj hm).1
      rw [List.count_eq_zero_of_not_mem hnot, List.count_cons_of_ne hs, Nat.zero_add]

theorem length_of_mem_reached (h : l ∈ reached doc q v) : l.length = q.length := by
  induction q generalizing v l with
  | nil =>
    obtain rfl := List.mem_singleton.mp h
    rfl
  | cons f rest ih =>
    obtain ⟨e, -, m, hm, rfl⟩ := mem_behind.mp h
    exact congrArg (· + 1) (ih hm)

theorem cut_of_not_isContainer (h : v.isContainer = false) : cut doc f v = v := by
  cases v with
  | array items | object ms => cases h
  | _ => rfl

theorem iterate_cut_plain (f : Fragment) (k : Nat) (hv : v.Plain) :
    ((cut doc f)^[k] v).Plain := by
  induction k with
  | zero => exact hv
  | succ k ih =>
    rw [Function.iterate_succ_apply']
    exact ih.deleteWhere _

theorem isContainer_iterate_cut (doc : Value) (f : Fragment) (k : Nat) (v : Value) :
    ((cut doc f)^[k] v).isContainer = v.isContainer := by
  induction k with
  | zero => rfl
  | succ k ih =>
    rw [Function.iterate_succ_apply', cut, Value.deleteWhere_eq, Value.isContainer_revise, ih]

/-- The containers that a path leads to are the same when only nodes at its end change. -/
theorem reached_atDepth (hflat : q.Flat) (doc : Value) (hv : v.Plain)
    {g : Location → Value → Value} (hg : ∀ l u, (g l u).isContainer = u.isContainer) :
    reached doc q (v.atDepth q.length g) = reached doc q v := by
  induction q generalizing v g with
  | nil => rfl
  | cons f rest ih =>
    obtain ⟨hk, hn, -⟩ := Value.formed_iff.mp hv
    rw [reached, reached, List.length_cons, Value.atDepth,
      chosen_reviseAll hflat.head.2 hk doc doc,
      containers_map fun e => Value.isContainer_atDepth (fun l => hg (e.1 :: l)) e.2,
      behind, behind, List.flatMap_map]
    refine List.flatMap_congr fun e he => ?_
    have hchild := Value.formed_step? hv (step?_of_mem_chosen hn (List.mem_of_mem_filter he))
    rw [ih hflat.tail hchild fun l => hg (e.1 :: l)]

omit [Libraries] in
theorem Flat.downward (h : q.Flat) : q.Downward := downward_of_picks fun f hf => (h f hf).1

theorem locations_flat {g : Fragment} {rest : Path} (hflat : Flat (g :: rest ++ [f]))
    (doc v : Value) :
    locations doc (g :: rest ++ [f]) v =
      behind (containers (chosen g doc v)) (locations doc (rest ++ [f])) := by
  obtain ⟨next, more, hmore⟩ := List.exists_cons_of_ne_nil (List.append_ne_nil_of_right_ne_nil
    rest (List.cons_ne_nil f []))
  have hdown : Downward (rest ++ [f]) := Flat.downward (Flat.tail hflat)
  rw [hmore] at hdown
  rw [List.cons_append, hmore]
  exact hdown.locations_through hflat.head.1 doc v

theorem length_lt_of_mem_locations (hflat : Flat (q ++ [f])) (h : l ∈ locations doc (q ++ [f]) v) :
    q.length < l.length := by
  induction q generalizing v l with
  | nil =>
    rw [List.nil_append, locations_last hflat.head.1] at h
    obtain ⟨e, -, rfl⟩ := List.mem_map.mp h
    exact Nat.zero_lt_one
  | cons g rest ih =>
    rw [locations_flat hflat] at h
    obtain ⟨e, -, m, hm, rfl⟩ := mem_behind.mp h
    exact Nat.succ_lt_succ (ih hflat.tail hm)

/-- The path selects what its last fragment selects in the containers that it leads to. -/
theorem append_mem_locations (hflat : Flat (q ++ [f])) (hv : v.Plain) {m : Location} {u : Value}
    (hl : l.length = q.length) (hu : v.pointer? l = some u) :
    l ++ m ∈ locations doc (q ++ [f]) v ↔ l ∈ reached doc q v ∧ m ∈ locations doc [f] u := by
  induction q generalizing v l with
  | nil =>
    obtain rfl := List.eq_nil_of_length_eq_zero hl
    cases hu
    simp [reached]
  | cons g rest ih =>
    obtain ⟨s, l, rfl⟩ := List.exists_cons_of_length_eq_add_one hl
    obtain ⟨hk, hn, -⟩ := Value.formed_iff.mp hv
    obtain ⟨c, hs, hu⟩ := Option.bind_eq_some_iff.mp hu
    have hentry : ∀ e ∈ containers (chosen g doc v), e ∈ v.entries := fun e he =>
      Value.mem_entries_of_step? hk (step?_of_mem_chosen hn (List.mem_of_mem_filter he))
    rw [locations_flat hflat, reached, List.cons_append]
    by_cases hmem : (s, c) ∈ containers (chosen g doc v)
    · rw [cons_mem_behind hn hentry hmem, cons_mem_behind hn hentry hmem]
      exact ih hflat.tail (Value.formed_step? hv hs) (Nat.succ.inj hl) hu
    · have hnot : s ∉ (containers (chosen g doc v)).map (·.1) := by
        intro hs'
        obtain ⟨e, he, rfl⟩ := List.mem_map.mp hs'
        have heq := Value.eq_of_mem_entries hn (Value.mem_entries_of_step? hk hs) (hentry e he) rfl
        exact hmem (heq ▸ he)
      constructor
      · exact fun h => absurd (mem_steps_of_cons_mem_behind h) hnot
      · exact fun h => absurd (mem_steps_of_cons_mem_behind h.1) hnot

/-- A query leads to the same containers, each as often. -/
theorem nodes_reached (hflat : q.Flat) (hq : q ≠ []) (order : Order) (l : Location) (v : Value) :
    ((nodes order doc q (l, v)).filter fun n => n.2.isContainer).map (·.1) =
      (reached doc q v).map (l ++ ·) := by
  induction q generalizing l v with
  | nil => exact absurd rfl hq
  | cons f rest ih =>
    cases rest with
    | nil =>
      rw [nodes, Fragment.nodes_of_picks hflat.head.1, List.filter_map, List.map_map, reached,
        behind, List.map_flatMap, List.map_eq_flatMap]
      exact List.flatMap_congr fun e _ => rfl
    | cons g rest =>
      rw [nodes_picks hflat.head.1, List.filter_flatMap, List.map_flatMap, reached, behind,
        List.map_flatMap]
      refine List.flatMap_congr fun e _ => ?_
      rw [Node.child, ih hflat.tail (List.cons_ne_nil g rest), List.map_map]
      exact List.map_congr_left fun m _ => by simp

end Path

namespace Update

open DocPath.Path (Downward aims behind containers containers_sublist cut locations reached)

variable {a : Action} {doc v : Value} {loc : Location} {q : Path} {f : Fragment}
  {call : Location → Progress → Option Visited}

omit [Libraries] in
/-- Visits of children in turn change each child as often as they come to it. -/
theorem inTurn_repeats {new : Value → Value} (hnew : ∀ c, c.Plain → (new c).Plain)
    (hcall : ∀ loc c, c.Plain → Exchanges a call loc c (new c) []) (steps : List Step)
    (hv : v.Plain) (hsteps : ∀ s ∈ steps, ∃ c, v.step? s = some c) :
    Exchanges a (fun loc => inTurn call (steps.map fun s => loc ++ [s])) loc v
      (v.reviseAll fun s c => new^[steps.count s] c) [] := by
  induction steps generalizing v with
  | nil =>
    intro r hr
    have same : (v.reviseAll fun s c => new^[List.count s []] c) = v := by
      simpa using Value.reviseAll_id v
    rw [same]
    exact Or.inl ⟨r.doc, Value.put?_pointer? hr, rfl⟩
  | cons s steps ih =>
    obtain ⟨hk, hn, -⟩ := Value.formed_iff.mp hv
    obtain ⟨c, hc⟩ := hsteps s List.mem_cons_self
    have hplain := Value.formed_step? hv hc
    obtain ⟨v', hv'⟩ := Value.exists_putStep? hc (new c)
    have hrev := Value.putStep?_eq_reviseAll hk hn hv'
    have hrest : ∀ t ∈ steps, ∃ c, v'.step? t = some c := by
      intro t ht
      obtain ⟨b, hb⟩ := hsteps t (List.mem_cons_of_mem s ht)
      rw [hrev, Value.step?_reviseAll hk, hb]
      exact ⟨_, rfl⟩
    have first := (hcall (loc ++ [s]) c hplain).parent hc hv'
    have others := ih (Value.formed_putStep? hv (hnew c hplain) hv') hrest
    have both := first.andThen others
    have twice : (v'.reviseAll fun t b => new^[steps.count t] b) =
        v.reviseAll fun t b => new^[(s :: steps).count t] b := by
      rw [hrev, Value.reviseAll_reviseAll]
      refine Value.reviseAll_congr fun e he => ?_
      by_cases hs : e.1 = s
      · have hchild : e.2 = c := by
          rw [← hs, Value.step?_of_mem_entries hn he] at hc
          exact Option.some.inj hc
        rw [if_pos hs, hs, hchild, List.count_cons_self, Function.iterate_succ_apply]
      · rw [if_neg hs, List.count_cons_of_ne (Ne.symm hs)]
    rw [twice] at both
    exact both

/-- The change at the containers that a path leads to. -/
def carve (doc : Value) (q : Path) (f : Fragment) (v : Value) : Value :=
  v.atDepth q.length fun l u => (cut doc f)^[(reached doc q v).count l] u

theorem iterate_carve_plain (k : Nat) (hv : v.Plain) : ((carve doc q f)^[k] v).Plain := by
  induction k with
  | zero => exact hv
  | succ k ih =>
    rw [Function.iterate_succ_apply']
    exact ih.atDepth fun l u hu => Path.iterate_cut_plain f _ hu

/-- To change the containers several times is to change each of them so many times as often. -/
theorem iterate_carve (hflat : q.Flat) (hv : v.Plain) (k : Nat) :
    (carve doc q f)^[k] v =
      v.atDepth q.length fun l u => (cut doc f)^[k * (reached doc q v).count l] u := by
  induction k with
  | zero => simp [Value.atDepth_id]
  | succ k ih =>
    have same := Path.reached_atDepth hflat doc hv fun l u =>
      Path.isContainer_iterate_cut doc f (k * (reached doc q v).count l) u
    rw [Function.iterate_succ_apply', ih, carve, same, Value.atDepth_atDepth]
    simp only [← Function.iterate_add_apply, Nat.succ_mul, Nat.add_comm]

/-- The visit of a location changes the containers that the path leads to from there. -/
theorem visit_carves (ha : a.deletes) (hf : f.picks ∧ f.isFilter = false) (hflat : q.Flat)
    (doc : Value) (before : List Fragment) (loc : Location) (hv : v.Plain) :
    Exchanges a (visit a false before (q ++ [f])) loc v (carve doc q f v) [] := by
  induction q generalizing before loc v with
  | nil =>
    have once : carve doc [] f v = v.deleteWhere (aims doc [f] v) := by
      simp [carve, Value.atDepth, reached, cut]
    rw [once]
    exact act_deletes ha hf.1 (Fragment.rootFree_of_not_isFilter hf.2) doc loc v hv
  | cons g rest ih =>
    obtain ⟨hk, hn, -⟩ := Value.formed_iff.mp hv
    obtain ⟨hpicks, hfilter⟩ := hflat.head
    have hsub := containers_sublist (chosen g doc v)
    have hentry : ∀ e ∈ containers (chosen g doc v), e ∈ v.entries := fun e he =>
      Value.mem_entries_of_step? hk (step?_of_mem_chosen hn (hsub.subset he))
    have hsteps : ∀ s ∈ (containers (chosen g doc v)).map (·.1), ∃ c, v.step? s = some c := by
      intro s hs
      obtain ⟨e, he, rfl⟩ := List.mem_map.mp hs
      exact ⟨e.2, step?_of_mem_chosen hn (hsub.subset he)⟩
    let steps := (containers (chosen g doc v)).map (·.1)
    have all : Exchanges a (fun loc => inTurn (visit a false (before ++ [g]) (rest ++ [f]))
        (steps.map fun s => loc ++ [s])) loc v
        (v.reviseAll fun s c => (carve doc rest f)^[steps.count s] c) [] :=
      inTurn_repeats (fun c => iterate_carve_plain 1)
        (fun loc c => ih hflat.tail (before ++ [g]) loc) steps hv hsteps
    have hcarve : (v.reviseAll fun s c => (carve doc rest f)^[steps.count s] c) =
        carve doc (g :: rest) f v := by
      rw [carve, List.length_cons, Value.atDepth]
      refine Value.reviseAll_congr fun e he => ?_
      have hplain := Value.formed_step? hv (Value.step?_of_mem_entries hn he)
      rw [iterate_carve hflat.tail hplain]
      simp only [reached, Path.count_behind hn hentry he, steps]
    rw [hcarve] at all
    obtain ⟨next, more, hmore⟩ := List.exists_cons_of_ne_nil (List.append_ne_nil_of_right_ne_nil
      rest (List.cons_ne_nil f []))
    intro r hr
    rw [List.cons_append, hmore]
    rcases visit_picks (Action.isSet_of_deletes ha) false before hpicks next more r hr with
      h | ⟨hstrict, e, he⟩
    · rw [h, ← hmore, chosen_of_rootFree (Fragment.rootFree_of_not_isFilter hfilter) r.doc doc v]
      exact all r hr
    · exact Or.inr ⟨hstrict, _, he, rfl⟩

/-- What is left is what the selection leaves just when no container loses more in all its
visits than in one. -/
theorem carve_eq_deleteWhere_iff (hflat : Path.Flat (q ++ [f])) (hv : v.Plain) :
    carve doc q f v = v.deleteWhere (aims doc (q ++ [f]) v) ↔
      ∀ l u, l ∈ reached doc q v → v.pointer? l = some u →
        (cut doc f)^[(reached doc q v).count l] u = cut doc f u := by
  have deep : ∀ l, aims doc (q ++ [f]) v l → q.length < l.length := fun l hl =>
    Path.length_lt_of_mem_locations hflat (of_decide_eq_true hl)
  have there : ∀ {l u}, l.length = q.length → v.pointer? l = some u → l ∈ reached doc q v →
      u.deleteWhere (fun m => aims doc (q ++ [f]) v (l ++ m)) = cut doc f u := by
    intro l u hl hu hmem
    refine congrArg u.deleteWhere (funext fun m => decide_eq_decide.mpr ?_)
    rw [Path.append_mem_locations hflat hv hl hu]
    exact and_iff_right hmem
  have elsewhere : ∀ {l u}, l.length = q.length → v.pointer? l = some u → l ∉ reached doc q v →
      u.deleteWhere (fun m => aims doc (q ++ [f]) v (l ++ m)) = u := by
    intro l u hl hu hmem
    refine Value.deleteWhere_eq_self (fun m hm => ?_) u
    exact absurd ((Path.append_mem_locations hflat hv hl hu).mp (of_decide_eq_true hm)).1 hmem
  rw [Value.deleteWhere_eq_atDepth deep, carve, Value.atDepth_eq_iff hv]
  constructor
  · intro h l u hmem hu
    have hl := Path.length_of_mem_reached hmem
    rw [h l u hl hu, there hl hu hmem]
  · intro h l u hl hu
    by_cases hmem : l ∈ reached doc q v
    · rw [h l u hmem hu, there hl hu hmem]
    · rw [elsewhere hl hu hmem, List.count_eq_zero_of_not_mem hmem]
      rfl

end Update

end DocPath

namespace DocPath.Path

open Update (Exchanges Progress State carve chosen)

variable {doc : Value} {q : Path}

/-- The containers from which the last fragment selects, each as often as the fragments before
it lead there. -/
abbrev parents [Libraries] (doc : Value) (q : Path) : List Node :=
  (nodes .parentsFirst doc (.root :: q) ([], doc)).filter fun n => n.2.isContainer

theorem parents_reached [Libraries] (hflat : q.Flat) (h : q ≠ [] ∨ doc.isContainer) :
    (parents doc q).map (·.1) = reached doc q doc := by
  cases q with
  | nil =>
    have hdoc : doc.isContainer := by simpa using h
    simp [parents, nodes, Fragment.nodes, reached, hdoc]
  | cons g rest =>
    rw [parents, nodes_root, nodes_reached hflat (List.cons_ne_nil g rest)]
    exact List.map_id _

theorem atDepth_parents [Libraries] (hflat : q.Flat) (doc : Value) (f : Fragment) :
    (doc.atDepth q.length fun l u => (cut doc f)^[((parents doc q).map (·.1)).count l] u) =
      carve doc q f doc := by
  by_cases h : q ≠ [] ∨ doc.isContainer
  · rw [parents_reached hflat h, carve]
  · -- a scalar document is no container, but nothing is cut from it either
    obtain ⟨hnil, hscalar⟩ := not_or.mp h
    obtain rfl := not_not.mp hnil
    have same : cut doc f doc = doc := cut_of_not_isContainer (Bool.eq_false_iff.mpr hscalar)
    simp only [carve, List.length_nil, Value.atDepth, Function.iterate_fixed same]

theorem forall_parents_iff [Libraries] (hflat : q.Flat) (hd : doc.Plain) (f : Fragment) :
    (∀ n ∈ parents doc q,
        (cut doc f)^[((parents doc q).map (·.1)).count n.1] n.2 = cut doc f n.2) ↔
      ∀ l u, l ∈ reached doc q doc → doc.pointer? l = some u →
        (cut doc f)^[(reached doc q doc).count l] u = cut doc f u := by
  by_cases h : q ≠ [] ∨ doc.isContainer
  · have hroot : Node.At doc ([], doc) := rfl
    have hat : ∀ n ∈ parents doc q, doc.pointer? n.1 = some n.2 := fun n hn =>
      at_of_mem_nodes hd.wellFormed .parentsFirst (.root :: q) hroot (List.mem_of_mem_filter hn)
    rw [← parents_reached hflat h]
    constructor
    · intro hall l u hl hu
      obtain ⟨n, hn, rfl⟩ := List.mem_map.mp hl
      obtain rfl := Option.some.inj ((hat n hn).symm.trans hu)
      exact hall n hn
    · exact fun hall n hn => hall n.1 n.2 (List.mem_map_of_mem hn) (hat n hn)
  · obtain ⟨hnil, hscalar⟩ := not_or.mp h
    obtain rfl := not_not.mp hnil
    have hnone : parents doc [] = [] := by simp [parents, nodes, Fragment.nodes, hscalar]
    rw [hnone]
    refine iff_of_true (fun n hn => absurd hn List.not_mem_nil) fun l u hl _ => ?_
    obtain rfl := List.mem_singleton.mp hl
    rfl

/-- Deleting with repeated members of unions. Let a path by names and positions lead to some
containers, to each of them a number of times. A deletion that succeeds takes from each
container so many times what the last fragment selects there. It has deleted what the path
selects just when every container has lost as much the first time as in the end. -/
theorem delete_eq_repeated [Libraries] {q : Path} {f : Fragment} (hflat : Flat (q ++ [f]))
    {doc : Value} (hd : doc.Plain) :
    let p : Path := .root :: (q ++ [f])
    let selected := nodes .parentsFirst doc p ([], doc)
    let times : Location → Nat := ((parents doc q).map (·.1)).count
    let result := doc.atDepth q.length fun l u => (cut doc f)^[times l] u
    selected.map (·.2) = p.get doc ∧
    ((p.delete doc).error = none → p.delete doc = ⟨result, [], none⟩) ∧
    State.Ends .delete false ⟨doc, [], [⟨[], p, false, [[]]⟩]⟩ (p.delete doc) ∧
    (result = doc.deleteWhere (fun l => decide (l ∈ selected.map (·.1))) ↔
      ∀ n ∈ parents doc q, (cut doc f)^[times n.1] n.2 = cut doc f n.2) := by
  intro p selected times result
  have hq : q.Flat := fun g hg => hflat g (List.mem_append_left [f] hg)
  have hf : f.picks ∧ f.isFilter = false := hflat f (List.mem_append_right q (.head []))
  have hlast : p.getLast? = some f := by
    rw [show p = (.root :: q) ++ [f] from rfl, List.getLast?_concat]
  have hallows : Action.delete.allows f := by
    cases f with
    | root | current | bracket | descent => cases hf.1
    | filter template => cases hf.2
    | _ => rfl
  have hresult : result = carve doc q f doc := atDepth_parents hq doc f
  obtain ⟨next, more, hmore⟩ := List.exists_cons_of_ne_nil (List.append_ne_nil_of_right_ne_nil
    q (List.cons_ne_nil f []))
  have hselected : selected.map (·.1) = locations doc (q ++ [f]) doc := by
    simp only [selected, p, locations, hmore, nodes_root]
  have hvisit : Update.visit .delete false [] p [] =
      Update.visit .delete false [.root] (q ++ [f]) [] := by
    simp only [p, hmore]
    rfl
  have ha : Action.delete.deletes := rfl
  have hcall : Exchanges .delete (Update.visit .delete false [] p) [] doc result [] := by
    intro r hr
    rw [hvisit, hresult]
    exact Update.visit_carves ha hf hq doc [.root] [] hd r hr
  obtain ⟨hends, hdelete⟩ := update_of_exchanges hlast hallows hcall
  refine ⟨nodes_values p doc, fun hok => ?_, hends, ?_⟩
  · rcases hdelete with hdelete | ⟨-, herror⟩
    · exact hdelete
    · have hsome : (p.delete doc).error.isSome := herror
      rw [hok] at hsome
      cases hsome
  · rw [hresult, hselected, Update.carve_eq_deleteWhere_iff hflat hd]
    exact (forall_parents_iff hq hd f).symm

/-- A name that is taken away a second time is not there any more. -/
theorem delete_eq_repeated_of_name :
    let q : Path := [.union [.index 0, .index 0]]
    let p : Path := .root :: (q ++ [.child "a"])
    let doc : Value := .array [.object [("a", .int 1), ("b", .int 2)]]
    let selected := nodes .parentsFirst doc p ([], doc)
    Flat (q ++ [.child "a"]) ∧ doc.Plain ∧
      p.delete doc = ⟨.array [.object [("b", .int 2)]], [], none⟩ ∧
      (p.delete doc).doc = doc.deleteWhere fun l => decide (l ∈ selected.map (·.1)) := by
  intro q p doc selected
  have hflat : Flat (q ++ [.child "a"]) :=
    List.forall_mem_cons.mpr ⟨⟨rfl, rfl⟩, List.forall_mem_singleton.mpr ⟨rfl, rfl⟩⟩
  have hd : doc.Plain := by decide
  let whole : Value := .object [("a", .int 1), ("b", .int 2)]
  let rest : Value := .object [("b", .int 2)]
  have hwhole : whole.removeChildren [.key "a"] = ((rest, true), none) := by
    simp [whole, rest, Value.removeChildren, Value.stepKeys, Value.stepIndexes,
      Value.descending_nil, Value.removeElements, Value.removeMembers, Value.removeMember]
    rfl
  have hvisit : Update.visit .delete false [] p [] ⟨doc, []⟩ = some (.ok ⟨.array [rest], []⟩) := by
    have hturn : Update.visit .delete false [] p [] ⟨doc, []⟩ =
        Update.inTurn (fun loc r => some (r.act .delete false ⟨.root :: q, .child "a"⟩ loc))
          [[.index 0], [.index 0]] ⟨doc, []⟩ := rfl
    have first : Progress.act .delete false ⟨.root :: q, .child "a"⟩ [.index 0] ⟨doc, []⟩ =
        .ok ⟨.array [rest], []⟩ :=
      Update.act_of_targets rfl rfl whole [.key "a"] rfl rfl hwhole rfl
    have second : Progress.act .delete false ⟨.root :: q, .child "a"⟩ [.index 0]
        ⟨.array [rest], []⟩ = .ok ⟨.array [rest], []⟩ :=
      Update.act_of_targets rfl rfl rest [] rfl rfl (Value.removeChildren_nil rest) rfl
    simp only [hturn, Update.inTurn, first, second, Option.bind_some, Update.Visited.andThen]
  have hdelete : p.delete doc = ⟨.array [rest], [], none⟩ := update_of_visit rfl rfl hvisit
  obtain ⟨-, hresult, -, hall⟩ := delete_eq_repeated hflat hd
  have hcut (v : Value) : cut doc (.child "a") v =
      v.deleteWhere fun l => decide (l ∈ (chosen (.child "a") doc v).map fun e => [e.1]) := by
    rw [← locations_last rfl]
    rfl
  have hgone : cut doc (.child "a") whole = rest ∧ cut doc (.child "a") rest = rest := by
    rw [hcut, hcut]
    exact ⟨rfl, rfl⟩
  have hparents : parents doc q = [([.index 0], whole), ([.index 0], whole)] := by
    rw [parents, nodes_root, nodes]
    rfl
  rw [hparents] at hresult hall
  have honce := hall.mpr (by simp [hgone])
  have hleft := congrArg Update.Outcome.doc (hresult (congrArg Update.Outcome.error hdelete))
  exact ⟨hflat, hd, hdelete, hleft.trans honce⟩

/-- In `[[1,2,3]]` the path `$[0,0][0]` selects the first number alone. It comes to the inner
list twice, and the number that has moved up goes too. -/
theorem delete_ne_deleteWhere_of_repeated :
    let q : Path := [.union [.index 0, .index 0]]
    let p : Path := .root :: (q ++ [.nth 0])
    let doc : Value := .array [.array [.int 1, .int 2, .int 3]]
    let selected := nodes .parentsFirst doc p ([], doc)
    doc.Plain ∧ p.delete doc = ⟨.array [.array [.int 3]], [], none⟩ ∧
      (doc.deleteWhere fun l => decide (l ∈ selected.map (·.1))) =
        .array [.array [.int 2, .int 3]] := by
  intro q p doc selected
  have hfirst (w : Value) (ws : List Value) :
      (Value.array (w :: ws)).removeChildren [.index 0] = ((.array ws, true), none) := by
    simp [Value.removeChildren, Value.stepKeys, Value.stepIndexes, Value.descending_singleton,
      Value.removeElements, Value.removeMembers, Value.removeElement]
  have hvisit : Update.visit .delete false [] p [] ⟨doc, []⟩ =
      some (.ok ⟨.array [.array [.int 3]], []⟩) := by
    have hturn : Update.visit .delete false [] p [] ⟨doc, []⟩ =
        Update.inTurn (fun loc r => some (r.act .delete false ⟨.root :: q, .nth 0⟩ loc))
          [[.index 0], [.index 0]] ⟨doc, []⟩ := rfl
    have first : Progress.act .delete false ⟨.root :: q, .nth 0⟩ [.index 0] ⟨doc, []⟩ =
        .ok ⟨.array [.array [.int 2, .int 3]], []⟩ :=
      Update.act_of_targets rfl rfl (.array [.int 1, .int 2, .int 3]) [.index 0] rfl rfl
        (hfirst _ _) rfl
    have second : Progress.act .delete false ⟨.root :: q, .nth 0⟩ [.index 0]
        ⟨.array [.array [.int 2, .int 3]], []⟩ = .ok ⟨.array [.array [.int 3]], []⟩ :=
      Update.act_of_targets rfl rfl (.array [.int 2, .int 3]) [.index 0] rfl rfl
        (hfirst _ _) rfl
    simp only [hturn, Update.inTurn, first, second, Option.bind_some, Update.Visited.andThen]
  have hflat : Flat (q ++ [.nth 0]) :=
    List.forall_mem_cons.mpr ⟨⟨rfl, rfl⟩, List.forall_mem_singleton.mpr ⟨rfl, rfl⟩⟩
  have hselected : selected.map (·.1) = [[.index 0, .index 0], [.index 0, .index 0]] := by
    have hlast : locations doc [.nth 0] (.array [.int 1, .int 2, .int 3]) = [[.index 0]] := by
      rw [locations_last rfl]
      rfl
    have hthrough : locations doc (q ++ [.nth 0]) doc =
        behind [(.index 0, .array [.int 1, .int 2, .int 3]),
          (.index 0, .array [.int 1, .int 2, .int 3])] (locations doc [.nth 0]) :=
      locations_flat hflat doc doc
    have hroot : selected.map (·.1) = locations doc (q ++ [.nth 0]) doc := by
      simp only [selected, p, q, List.cons_append, nodes_root]
      rfl
    rw [hroot, hthrough]
    simp [behind, hlast]
  refine ⟨by decide, update_of_visit rfl rfl hvisit, ?_⟩
  rw [hselected]
  rfl

end DocPath.Path
