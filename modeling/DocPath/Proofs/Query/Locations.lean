import DocPath.Proofs.Query.Nodes
import DocPath.Proofs.Value.Deletion

/-!
# Where selected nodes stand

The locations that a path selects below a value, for paths that only go down. A path of so
many choices selects nothing higher than that, and without descents nothing deeper either.
Deletions further down leave such a selection as it is.
-/

namespace DocPath

open Update (chosen)

def Node.below (l : Location) (n : Node) : Node := (l ++ n.1, n.2)

namespace Path

/-- The locations that a path selects, as they are seen from the value where it starts. -/
def locations [Libraries] (doc : Value) (p : Path) (v : Value) : List Location :=
  (nodes .parentsFirst doc p ([], v)).map (·.1)

abbrev aims [Libraries] (doc : Value) (p : Path) (v : Value) : Location → Bool := fun l =>
  decide (l ∈ locations doc p v)

/-- What lies in children of one container, as it is seen from the container. -/
def behind (es : List (Step × Value)) (w : Value → List Location) : List Location :=
  es.flatMap fun e => (w e.2).map (e.1 :: ·)

theorem mem_behind {es : List (Step × Value)} {w : Value → List Location} {l : Location} :
    l ∈ behind es w ↔ ∃ e ∈ es, ∃ m ∈ w e.2, e.1 :: m = l := by
  simp only [behind, List.mem_flatMap, List.mem_map]

/-- What lies behind the step to one of the children lies in that child. -/
theorem cons_mem_behind {v : Value} {es : List (Step × Value)} {w : Value → List Location}
    (hn : v.names.Nodup) (hes : ∀ e ∈ es, e ∈ v.entries) {e : Step × Value} (he : e ∈ es)
    {l : Location} : e.1 :: l ∈ behind es w ↔ l ∈ w e.2 := by
  rw [mem_behind]
  constructor
  · rintro ⟨e', he', m, hm, hcons⟩
    obtain ⟨hhead, rfl⟩ := List.cons.inj hcons
    obtain rfl := Value.eq_of_mem_entries hn (hes e he) (hes e' he') hhead
    exact hm
  · exact fun hl => ⟨e, he, l, hl, rfl⟩

theorem mem_steps_of_cons_mem_behind {es : List (Step × Value)} {w : Value → List Location}
    {s : Step} {l : Location} (h : s :: l ∈ behind es w) : s ∈ es.map (·.1) := by
  obtain ⟨e, he, m, -, hcons⟩ := mem_behind.mp h
  rw [← (List.cons.inj hcons).1]
  exact List.mem_map_of_mem (f := (·.1)) he

/-- Paths that go down and choose children at the end. They read nothing but the value they
start at, they choose no child twice, and below a descent all is by name and position. -/
inductive Steady : Path → Prop where
  | last {f : Fragment} (picks : f.picks) (free : f.rootFree) : Steady [f]
  | through {f g : Fragment} {rest : Path} (picks : f.picks) (free : f.rootFree)
    (apart : f.apart) (more : Steady (g :: rest)) : Steady (f :: g :: rest)
  | descent {g : Fragment} {rest : Path}
    (flat : ∀ f ∈ g :: rest, f.picks ∧ f.isFilter = false) (more : Steady (g :: rest)) :
    Steady (.descent :: g :: rest)

variable {doc v : Value} {p rest : Path} {f g : Fragment} {l : Location}

theorem Steady.ne_nil (hp : Steady p) : p ≠ [] := by
  cases hp <;> exact List.cons_ne_nil _ _

theorem locations_last [Libraries] (hf : f.picks) (doc v : Value) :
    locations doc [f] v = (chosen f doc v).map fun e => [e.1] := by
  rw [locations, nodes, Fragment.nodes_of_picks hf, List.map_map]
  rfl

theorem mem_locations_last [Libraries] (hf : f.picks) {s : Step} :
    [s] ∈ locations doc [f] v ↔ s ∈ (chosen f doc v).map (·.1) := by
  rw [locations_last hf]
  simp

theorem eq_nil_of_mem_locations_last [Libraries] (hf : f.picks) {s : Step}
    (h : s :: l ∈ locations doc [f] v) : l = [] := by
  obtain ⟨e, -, he⟩ := List.mem_map.mp (locations_last hf doc v ▸ h)
  exact (List.cons.inj he).2.symm

theorem locations_of_not_moves [Libraries] (hf : ¬f.moves) (doc : Value) (g : Fragment)
    (rest : Path) :
    locations doc (f :: g :: rest) doc = locations doc (g :: rest) doc := by
  rw [locations, nodes_of_not_moves hf, locations]

theorem nodes_children_below [Libraries] {order : Order} {es : List (Step × Value)}
    (h : ∀ e ∈ es, ∀ l, nodes order doc p (l, e.2) =
      (nodes order doc p ([], e.2)).map (Node.below l)) (l : Location) (v : Value) :
    (es.flatMap fun e => nodes order doc p (Node.child (l, v) e)) =
      (es.flatMap fun e => nodes order doc p (Node.child ([], v) e)).map (Node.below l) := by
  rw [List.map_flatMap]
  refine List.flatMap_congr fun e he => ?_
  rw [Node.child, Node.child, h e he (l ++ [e.1]), h e he ([] ++ [e.1]), List.map_map]
  refine List.map_congr_left fun n _ => ?_
  simp [Node.below]

theorem mem_locations_of_mem_nodes [Libraries] {order : Order} {n : Node}
    (hn : n ∈ nodes order doc p ([], v)) : n.1 ∈ locations doc p v := by
  refine List.mem_map.mpr ⟨n, ?_, rfl⟩
  cases order with
  | parentsFirst => exact hn
  | childrenFirst => exact (nodes_perm doc p ([], v)).mem_iff.mp hn

def Downward (p : Path) : Prop := .root ∉ p

theorem Downward.tail (hp : Downward (f :: rest)) : Downward rest :=
  fun h => hp (List.mem_cons_of_mem f h)

theorem Steady.downward (hp : Steady p) : p.Downward := by
  intro h
  induction hp with
  | last picks free =>
    obtain rfl := List.mem_singleton.mp h
    cases picks
  | through picks free apart more ih =>
    rcases List.mem_cons.mp h with rfl | h
    · cases picks
    · exact ih h
  | descent flat more ih =>
    rcases List.mem_cons.mp h with h | h
    · cases h
    · exact ih h

theorem subtree_below (l : Location) (v : Value) :
    Node.subtree (l, v) = (Node.subtree ([], v)).map (Node.below l) := by
  induction v using Value.childrenInduction generalizing l with
  | step v ih =>
    have children : ∀ e ∈ v.entries, Node.subtree (Node.child (l, v) e) =
        (Node.subtree (Node.child ([], v) e)).map (Node.below l) := by
      intro e he
      have hc := Value.mem_children_of_mem_entries he
      rw [Node.child, Node.child, ih e.2 hc (l ++ [e.1]), ih e.2 hc ([] ++ [e.1]), List.map_map]
      refine List.map_congr_left fun n _ => ?_
      simp [Node.below]
    rw [Node.subtree_eq, Node.subtree_eq, List.map_cons, List.map_flatMap]
    refine congrArg₂ List.cons ?_ (List.flatMap_congr children)
    simp [Node.below]

/-- From another place, the same is selected behind the location of that place. -/
theorem Downward.nodes_below [Libraries] (hp : p.Downward) (order : Order) (doc : Value)
    (l : Location) (v : Value) :
    nodes order doc p (l, v) = (nodes order doc p ([], v)).map (Node.below l) := by
  induction p using Path.fragmentInduction generalizing l v with
  | nil => simp [nodes]
  | last f =>
    rw [nodes, nodes]
    cases f using Fragment.pickCases with
    | root => exact absurd List.mem_cons_self hp
    | current | bracket => simp [Fragment.nodes, Node.below]
    | descent => exact subtree_below l v
    | pick f hf =>
      rw [Fragment.nodes_of_picks hf, Fragment.nodes_of_picks hf, List.map_map]
      rfl
  | root g rest ih => exact absurd List.mem_cons_self hp
  | current g rest ih =>
    rw [nodes_current, nodes_current]
    exact ih hp.tail l v
  | bracket g rest ih =>
    rw [nodes_bracket, nodes_bracket]
    exact ih hp.tail l v
  | descent g rest ih =>
    induction v using Value.childrenInduction generalizing l with
    | step v ihv =>
      have children := nodes_children_below (fun e (he : e ∈ containers v.entries) => ihv e.2
        (Value.mem_children_of_mem_entries (List.mem_of_mem_filter he))) l v
      have here := ih hp.tail l v
      cases order with
      | parentsFirst =>
        rw [nodes_descent_parentsFirst, nodes_descent_parentsFirst, List.map_append, here]
        exact congrArg _ children
      | childrenFirst =>
        rw [nodes_descent_childrenFirst, nodes_descent_childrenFirst, List.map_append, here]
        exact congrArg (· ++ _) children
  | pick f g rest hf ih =>
    rw [nodes_picks hf, nodes_picks hf]
    exact nodes_children_below (fun e _ l => ih hp.tail l e.2) l v

theorem Downward.nodes_map_fst [Libraries] (hp : p.Downward) (doc : Value) (l : Location)
    (v : Value) :
    (nodes .parentsFirst doc p (l, v)).map (·.1) = (locations doc p v).map (l ++ ·) := by
  rw [hp.nodes_below, locations, List.map_map, List.map_map]
  rfl

theorem Downward.nodes_through [Libraries] (hp : Downward (g :: rest)) (hf : f.picks)
    (order : Order) (doc v : Value) :
    nodes order doc (f :: g :: rest) ([], v) =
      (containers (chosen f doc v)).flatMap fun e =>
        (nodes order doc (g :: rest) ([], e.2)).map (Node.below [e.1]) := by
  rw [nodes_picks hf]
  exact List.flatMap_congr fun e _ => hp.nodes_below order doc [e.1] e.2

theorem Downward.locations_through [Libraries] (hp : Downward (g :: rest)) (hf : f.picks)
    (doc v : Value) :
    locations doc (f :: g :: rest) v =
      behind (containers (chosen f doc v)) (locations doc (g :: rest)) := by
  rw [locations, hp.nodes_through hf, List.map_flatMap]
  refine List.flatMap_congr fun e _ => ?_
  rw [locations, List.map_map, List.map_map]
  rfl

theorem Downward.aims_through [Libraries] (hp : Downward (g :: rest)) (hf : f.picks)
    (doc v : Value) :
    aims doc (f :: g :: rest) v =
      fun l => decide (l ∈ behind (containers (chosen f doc v)) (locations doc (g :: rest))) := by
  funext l
  rw [aims, hp.locations_through hf]

theorem Downward.locations_descent [Libraries] (hp : Downward (.descent :: g :: rest))
    (doc v : Value) :
    locations doc (.descent :: g :: rest) v =
      locations doc (g :: rest) v ++
        behind (containers v.entries) (locations doc (.descent :: g :: rest)) := by
  rw [locations, nodes_descent_parentsFirst, List.map_append, List.map_flatMap]
  congr 1
  refine List.flatMap_congr fun e _ => ?_
  exact hp.nodes_map_fst doc [e.1] e.2

/-- Every choice leads a step down. -/
theorem Steady.countP_le_length [Libraries] (hp : Steady p) (h : l ∈ locations doc p v) :
    p.countP Fragment.picks ≤ l.length := by
  induction hp generalizing l v with
  | last picks free =>
    rw [locations_last picks] at h
    obtain ⟨e, -, rfl⟩ := List.mem_map.mp h
    simp [picks]
  | through picks free apart more ih =>
    rw [more.downward.locations_through picks] at h
    obtain ⟨e, -, m, hm, rfl⟩ := mem_behind.mp h
    rw [List.countP_cons_of_pos picks, List.length_cons]
    exact Nat.succ_le_succ (ih hm)
  | @descent g rest flat more ih =>
    rw [List.countP_cons_of_neg (by decide)]
    induction v using Value.childrenInduction generalizing l with
    | step v ihv =>
      rw [(Steady.descent flat more).downward.locations_descent] at h
      rcases List.mem_append.mp h with h | h
      · exact ih h
      · obtain ⟨e, he, m, hm, rfl⟩ := mem_behind.mp h
        have hc := Value.mem_children_of_mem_entries (List.mem_of_mem_filter he)
        exact Nat.le_succ_of_le (ihv e.2 hc hm)

theorem Steady.countP_pos (hp : Steady p) : 0 < p.countP Fragment.picks := by
  induction hp with
  | last picks free => simp [picks]
  | through picks free apart more ih => simp [picks]
  | descent flat more ih =>
    rw [List.countP_cons_of_neg (by decide)]
    exact ih

theorem Steady.ne_nil_of_mem [Libraries] (hp : Steady p) (h : l ∈ locations doc p v) : l ≠ [] := by
  rintro rfl
  exact absurd (hp.countP_le_length h) (Nat.not_le.mpr hp.countP_pos)

theorem downward_of_picks (flat : ∀ f ∈ p, f.picks) : p.Downward := by
  intro h
  cases flat .root h

/-- Without descents, every selected location is as long as the path. -/
theorem length_of_mem_locations [Libraries] (flat : ∀ f ∈ p, f.picks) (h : l ∈ locations doc p v) :
    l.length = p.length := by
  induction p generalizing l v with
  | nil => simp [locations, nodes] at h
  | cons f rest ih =>
    obtain ⟨hf, hrest⟩ := List.forall_mem_cons.mp flat
    cases rest with
    | nil =>
      rw [locations_last hf] at h
      obtain ⟨e, -, rfl⟩ := List.mem_map.mp h
      rfl
    | cons g rest =>
      rw [(downward_of_picks hrest).locations_through hf] at h
      obtain ⟨e, -, m, hm, rfl⟩ := mem_behind.mp h
      exact congrArg (· + 1) (ih hrest hm)

theorem downward_descent (flat : ∀ f ∈ g :: rest, f.picks) :
    Downward (.descent :: g :: rest) := by
  intro h
  rcases List.mem_cons.mp h with h | h
  · cases h
  · exact downward_of_picks flat h

theorem length_le_of_mem_descent [Libraries] (flat : ∀ f ∈ g :: rest, f.picks)
    (h : l ∈ locations doc (.descent :: g :: rest) v) : (g :: rest).length ≤ l.length := by
  induction v using Value.childrenInduction generalizing l with
  | step v ih =>
    rw [(downward_descent flat).locations_descent] at h
    rcases List.mem_append.mp h with h | h
    · exact (length_of_mem_locations flat h).ge
    · obtain ⟨e, he, m, hm, rfl⟩ := mem_behind.mp h
      have hc := Value.mem_children_of_mem_entries (List.mem_of_mem_filter he)
      exact Nat.le_succ_of_le (ih e.2 hc hm)

/-- What is selected below a value under a descent lies deeper than what is selected there. -/
theorem length_lt_of_mem_behind [Libraries] (flat : ∀ f ∈ g :: rest, f.picks)
    (h : l ∈ behind (containers v.entries) (locations doc (.descent :: g :: rest))) :
    (g :: rest).length < l.length := by
  obtain ⟨e, -, m, hm, rfl⟩ := mem_behind.mp h
  exact Nat.lt_succ_of_le (length_le_of_mem_descent flat hm)

theorem containers_map {α : Step × Value → Value}
    (h : ∀ e : Step × Value, (α e).isContainer = e.2.isContainer) (es : List (Step × Value)) :
    containers (es.map fun e => (e.1, α e)) = (containers es).map fun e => (e.1, α e) := by
  rw [containers, List.filter_map]
  congr 1
  exact List.filter_congr fun e _ => h e

/-- Changes told by the locations where they apply. One that applies only below the children of
a value leaves all of these in their places. -/
def Inward (change : (Location → Bool) → Value → Value) : Prop :=
  ∀ asked v, (∀ l, asked l → 1 < l.length) →
    change asked v = v.reviseAll fun s c => change (fun l => asked (s :: l)) c

theorem inward_deleteWhere : Inward Value.deleteWhere := by
  intro gone v hdeep
  refine Value.deleteWhere_eq_reviseAll (fun s => ?_) v
  exact Bool.eq_false_iff.mpr fun h => absurd (hdeep [s] h) (by simp)

section inward

variable {change : (Location → Bool) → Value → Value}

theorem Inward.none (hc : Inward change) (v : Value) : change (fun _ => false) v = v := by
  induction v using Value.childrenInduction with
  | step v ih =>
    rw [hc (fun _ => false) v nofun]
    conv_rhs => rw [← Value.reviseAll_id v]
    exact Value.reviseAll_congr fun e he => ih e.2 (Value.mem_children_of_mem_entries he)

/-- To change what lies in some of the children is to change what lies behind the steps to
them. -/
theorem Inward.reviseAll_behind (hc : Inward change) {es : List (Step × Value)}
    (hn : v.names.Nodup) (hes : ∀ e ∈ es, e ∈ v.entries) {w : Value → List Location}
    (hnil : ∀ c, [] ∉ w c) :
    (v.reviseAll fun s c =>
        if s ∈ es.map (·.1) then change (fun l => decide (l ∈ w c)) c else c) =
      change (fun l => decide (l ∈ behind es w)) v := by
  have deep : ∀ l, decide (l ∈ behind es w) → 1 < l.length := by
    intro l hl
    obtain ⟨e, -, m, hm, rfl⟩ := mem_behind.mp (of_decide_eq_true hl)
    have hne : m ≠ [] := fun h => hnil e.2 (h ▸ hm)
    exact Nat.succ_lt_succ (List.length_pos_iff.mpr hne)
  rw [hc _ v deep]
  refine Value.reviseAll_congr fun e he => ?_
  by_cases hmem : e ∈ es
  · have same : (fun l => decide (e.1 :: l ∈ behind es w)) = fun l => decide (l ∈ w e.2) :=
      funext fun l => decide_eq_decide.mpr (cons_mem_behind hn hes hmem)
    rw [if_pos (List.mem_map_of_mem (f := (·.1)) hmem), same]
  · have hnot : e.1 ∉ es.map (·.1) := by
      intro hs
      obtain ⟨e', he', heq⟩ := List.mem_map.mp hs
      exact hmem (Value.eq_of_mem_entries hn he (hes e' he') heq ▸ he')
    have nothing : (fun l => decide (e.1 :: l ∈ behind es w)) = fun _ => false :=
      funext fun l => decide_eq_false fun hl => hnot (mem_steps_of_cons_mem_behind hl)
    rw [if_neg hnot, nothing, hc.none]

/-- A path by names and positions selects the same places after changes that all lie deeper than
it goes. -/
theorem Steady.nodes_inward [Libraries] (hp : Steady p)
    (flat : ∀ f ∈ p, f.picks ∧ f.isFilter = false) (hc : Inward change) {early : Location → Bool}
    (hearly : ∀ l, early l → p.length < l.length) (hv : v.Plain) (order : Order) :
    nodes order doc p ([], change early v) =
      (nodes order doc p ([], v)).map fun n => (n.1, change (fun l => early (n.1 ++ l)) n.2) := by
  induction hp generalizing v early with
  | @last f picks free =>
    have hk := (Value.formed_iff.mp hv).1
    rw [hc early v hearly, nodes, nodes, Fragment.nodes_of_picks picks,
      Fragment.nodes_of_picks picks, chosen_reviseAll (flat f List.mem_cons_self).2 hk doc doc,
      List.map_map, List.map_map]
    rfl
  | @through f g rest picks free apart more ih =>
    obtain ⟨hk, hn, -⟩ := Value.formed_iff.mp hv
    have hdeep : ∀ l, early l → (g :: rest).length + 1 < l.length := hearly
    have below : ∀ e : Step × Value, ∀ l, early (e.1 :: l) → (g :: rest).length < l.length :=
      fun e l hl => Nat.lt_of_succ_lt_succ (hdeep (e.1 :: l) hl)
    have same : ∀ e : Step × Value,
        (change (fun l => early (e.1 :: l)) e.2).isContainer = e.2.isContainer := by
      intro e
      rw [hc _ e.2 fun l hl => Nat.lt_of_le_of_lt (Nat.le_add_left 1 _) (below e l hl)]
      exact Value.isContainer_revise _ e.2
    rw [hc early v fun l hl => Nat.lt_of_le_of_lt (Nat.le_add_left 1 _) (hdeep l hl),
      more.downward.nodes_through picks, more.downward.nodes_through picks,
      chosen_reviseAll (flat f List.mem_cons_self).2 hk doc doc, containers_map same,
      List.flatMap_map, List.map_flatMap]
    refine List.flatMap_congr fun e he => ?_
    have hplain := Value.formed_step? hv (step?_of_mem_chosen hn (List.mem_of_mem_filter he))
    rw [ih (fun f hf => flat f (List.mem_cons_of_mem _ hf)) (below e) hplain, List.map_map,
      List.map_map]
    rfl
  | descent => cases (flat .descent List.mem_cons_self).1

theorem Steady.locations_inward [Libraries] (hp : Steady p)
    (flat : ∀ f ∈ p, f.picks ∧ f.isFilter = false) (hc : Inward change) {early : Location → Bool}
    (hearly : ∀ l, early l → p.length < l.length) (hv : v.Plain) :
    locations doc p (change early v) = locations doc p v := by
  rw [locations, hp.nodes_inward flat hc hearly hv, List.map_map]
  rfl

theorem Steady.aims_inward [Libraries] (hp : Steady p)
    (flat : ∀ f ∈ p, f.picks ∧ f.isFilter = false) (hc : Inward change) {early : Location → Bool}
    (hearly : ∀ l, early l → p.length < l.length) (hv : v.Plain) :
    aims doc p (change early v) = aims doc p v := by
  funext l
  rw [aims, hp.locations_inward flat hc hearly hv]

end inward

/-- So far down, a descent selects nothing but what it selects in the children. -/
theorem mem_locations_descent_of_lt [Libraries] (flat : ∀ f ∈ g :: rest, f.picks)
    (hl : (g :: rest).length < l.length) :
    l ∈ locations doc (.descent :: g :: rest) v ↔
      l ∈ behind (containers v.entries) (locations doc (.descent :: g :: rest)) := by
  rw [(downward_descent flat).locations_descent, List.mem_append]
  refine or_iff_right fun hmem => ?_
  rw [length_of_mem_locations flat hmem] at hl
  exact Nat.lt_irrefl _ hl

/-- Under a descent, what is selected below a value can be deleted before what is selected at
the value itself. -/
theorem Steady.deleteWhere_descent [Libraries] (hp : Steady (.descent :: g :: rest)) (hv : v.Plain)
    {v' : Value} (hv' : v' = v.deleteWhere fun l =>
      decide (l ∈ behind (containers v.entries) (locations doc (.descent :: g :: rest)))) :
    v'.deleteWhere (fun l => decide (l ∈ locations doc (g :: rest) v')) =
      v.deleteWhere fun l => decide (l ∈ locations doc (.descent :: g :: rest) v) := by
  cases hp with
  | through picks => cases picks
  | descent flat more =>
    have hp := Steady.descent flat more
    have hall : ∀ f ∈ g :: rest, f.picks := fun f hf => (flat f hf).1
    have hdeep : ∀ l, decide (l ∈ behind (containers v.entries)
        (locations doc (.descent :: g :: rest))) → (g :: rest).length < l.length :=
      fun l hl => length_lt_of_mem_behind hall (of_decide_eq_true hl)
    have hlate : ∀ l, decide (l ∈ locations doc (g :: rest) v) →
        l.length ≤ (g :: rest).length := fun l hl =>
      Nat.le_of_eq (length_of_mem_locations hall (of_decide_eq_true hl))
    -- the path selects from the value what it selected there before
    rw [hv', more.locations_inward flat inward_deleteWhere hdeep hv,
      Value.deleteWhere_deleteWhere hlate hdeep, hp.downward.locations_descent]
    refine Value.deleteWhere_congr (fun s l => ?_) v
    rw [← Bool.decide_or, decide_eq_decide, List.mem_append, or_comm]

end Path
end DocPath
