import DocPath.Proofs.Path.Anchored
import DocPath.Proofs.Query.Chosen
import DocPath.Proofs.Value.Formed
import Mathlib.Data.List.Perm.Basic

/-!
# The nodes that a path selects

Selected values together with where they stand. A query takes a value before what lies
below it and an update takes it after; apart from that both go through the same nodes.
-/

namespace DocPath

open Update (chosen)

theorem flatMap_attach {α β : Type} (xs : List α) (g : α → List β) :
    (xs.attach.flatMap fun x => g x.1) = xs.flatMap g := by
  conv_rhs => rw [← List.attach_map_subtype_val xs, List.flatMap_map]

abbrev Node := Location × Value

namespace Node

def child (n : Node) (e : Step × Value) : Node := (n.1 ++ [e.1], e.2)

def subtree (n : Node) : List Node :=
  n :: n.2.entries.attach.flatMap fun e => (n.child e.1).subtree
termination_by n.2.height
decreasing_by
  exact Value.height_lt_of_mem_children (Value.mem_children_of_mem_entries e.2)

theorem subtree_eq (n : Node) :
    n.subtree = n :: n.2.entries.flatMap fun e => (n.child e).subtree := by
  rw [subtree, flatMap_attach n.2.entries fun e => (n.child e).subtree]

theorem subtree_map_snd (l : Location) (v : Value) :
    (subtree (l, v)).map (·.2) = v.subtree := by
  induction v using Value.childrenInduction generalizing l with
  | step v ih =>
    rw [subtree_eq, Value.subtree_eq, List.map_cons, List.map_flatMap]
    congr 1
    rw [← Value.entries_map_snd, List.flatMap_map]
    refine List.flatMap_congr fun e he => ?_
    exact ih e.2 (Value.mem_children_of_mem_entries he) (l ++ [e.1])

end Node

/-- Whether a descent takes a value before or after what lies below it. -/
inductive Order where
  | parentsFirst
  | childrenFirst
  deriving DecidableEq, Repr

/-- The nodes that a fragment selects at a node, as the last fragment of a path. -/
def Fragment.nodes [Libraries] (doc : Value) (n : Node) : Fragment → List Node
  | .root => [([], doc)]
  | .current | .bracket => [n]
  | .descent => n.subtree
  | f => (chosen f doc n.2).map n.child

namespace Path

variable [Libraries]

/-- The nodes that a path selects from a node of a document. -/
def nodes (order : Order) (doc : Value) : Path → Node → List Node
  | [], _ => []
  | [f], n => f.nodes doc n
  | .root :: rest, _ => nodes order doc rest ([], doc)
  | .current :: rest, n => nodes order doc rest n
  | .bracket :: rest, n => nodes order doc rest n
  | .descent :: rest, n =>
    let here := nodes order doc rest n
    let below := (n.2.entries.filter fun e => e.2.isContainer).attach.flatMap fun e =>
      nodes order doc (.descent :: rest) (n.child e.1)
    match order with
    | .parentsFirst => here ++ below
    | .childrenFirst => below ++ here
  | f :: rest, n =>
    ((chosen f doc n.2).filter fun e => e.2.isContainer).flatMap fun e =>
      nodes order doc rest (n.child e)
termination_by p n => (p.length, n.2.height)
decreasing_by
  all_goals first
    | exact Prod.Lex.left _ _ (Nat.lt_succ_self _)
    | exact Prod.Lex.right _ (Value.height_lt_of_mem_children
        (Value.mem_children_of_mem_entries (List.mem_of_mem_filter e.2)))

abbrev containers (es : List (Step × Value)) : List (Step × Value) :=
  es.filter fun e => e.2.isContainer

omit [Libraries] in
theorem containers_sublist (es : List (Step × Value)) : (containers es).Sublist es :=
  List.filter_sublist

section equations

variable (order : Order) (doc : Value) (g : Fragment) (rest : Path) (n : Node)

theorem nodes_root :
    nodes order doc (.root :: g :: rest) n = nodes order doc (g :: rest) ([], doc) := by
  rw [nodes]
  simp

theorem nodes_current :
    nodes order doc (.current :: g :: rest) n = nodes order doc (g :: rest) n := by
  rw [nodes]
  simp

theorem nodes_bracket :
    nodes order doc (.bracket :: g :: rest) n = nodes order doc (g :: rest) n := by
  rw [nodes]
  simp

theorem nodes_descent_parentsFirst :
    nodes .parentsFirst doc (.descent :: g :: rest) n =
      nodes .parentsFirst doc (g :: rest) n ++
        (containers n.2.entries).flatMap fun e =>
          nodes .parentsFirst doc (.descent :: g :: rest) (n.child e) := by
  have below := flatMap_attach (containers n.2.entries) fun e =>
    nodes .parentsFirst doc (.descent :: g :: rest) (n.child e)
  rw [nodes, ← below]
  simp

theorem nodes_descent_childrenFirst :
    nodes .childrenFirst doc (.descent :: g :: rest) n =
      ((containers n.2.entries).flatMap fun e =>
          nodes .childrenFirst doc (.descent :: g :: rest) (n.child e)) ++
        nodes .childrenFirst doc (g :: rest) n := by
  have below := flatMap_attach (containers n.2.entries) fun e =>
    nodes .childrenFirst doc (.descent :: g :: rest) (n.child e)
  rw [nodes, ← below]
  simp

end equations

theorem nodes_of_not_moves {f : Fragment} (hf : ¬f.moves) (order : Order) (doc : Value)
    (g : Fragment) (rest : Path) :
    nodes order doc (f :: g :: rest) ([], doc) = nodes order doc (g :: rest) ([], doc) := by
  cases f with
  | root => exact nodes_root order doc g rest _
  | current => exact nodes_current order doc g rest _
  | bracket => exact nodes_bracket order doc g rest _
  | _ => exact absurd rfl hf

theorem nodes_itself {f : Fragment} (hf : ¬f.moves) (order : Order) (doc : Value) :
    nodes order doc [f] ([], doc) = [([], doc)] := by
  rw [nodes]
  cases f with
  | root | current | bracket => rfl
  | _ => exact absurd rfl hf

theorem nodes_picks {f : Fragment} (hf : f.picks) (order : Order) (doc : Value) (g : Fragment)
    (rest : Path) (n : Node) :
    nodes order doc (f :: g :: rest) n =
      (containers (chosen f doc n.2)).flatMap fun e =>
        nodes order doc (g :: rest) (n.child e) := by
  cases f with
  | root | current | bracket | descent => cases hf
  | _ => rw [nodes] <;> simp

end Path

theorem Node.map_snd_child (n : Node) (es : List (Step × Value)) :
    (es.map n.child).map (·.2) = es.map (·.2) := by
  simp [Node.child, Function.comp_def]

theorem containers_map_snd (es : List (Step × Value)) :
    (Path.containers es).map (·.2) = (es.map (·.2)).filter Value.isContainer := by
  rw [List.filter_map]
  rfl

theorem Fragment.nodes_of_picks [Libraries] {f : Fragment} (hf : f.picks) (doc : Value) (n : Node) :
    f.nodes doc n = (chosen f doc n.2).map n.child := by
  cases f with
  | root | current | bracket | descent => cases hf
  | _ => rfl

theorem Fragment.nodes_map_snd [Libraries] (doc : Value) (n : Node) (f : Fragment) :
    (f.nodes doc n).map (·.2) = f.found doc n.2 := by
  cases f using Fragment.pickCases with
  | root | current | bracket => rfl
  | descent => exact Node.subtree_map_snd n.1 n.2
  | pick f hf => rw [Fragment.nodes_of_picks hf, Node.map_snd_child, chosen_map_snd hf]

namespace Path

variable [Libraries]

/-- The values of the selected nodes are the results of a query. -/
theorem nodes_map_snd (doc : Value) (p : Path) (n : Node) :
    (nodes .parentsFirst doc p n).map (·.2) = results doc p n.2 := by
  induction p using Path.fragmentInduction generalizing n with
  | nil => simp [nodes, results]
  | last f =>
    rw [nodes, results]
    exact Fragment.nodes_map_snd doc n f
  | root g rest ih =>
    rw [nodes_root, results_root]
    exact ih ([], doc)
  | current g rest ih =>
    rw [nodes_current, results_current]
    exact ih n
  | bracket g rest ih =>
    rw [nodes_bracket, results_bracket]
    exact ih n
  | descent g rest ih =>
    obtain ⟨l, v⟩ := n
    induction v using Value.childrenInduction generalizing l with
    | step v ihv =>
      rw [nodes_descent_parentsFirst, results_descent, List.map_append, List.map_flatMap,
        ih (l, v), ← Value.entries_map_snd, ← containers_map_snd, List.flatMap_map]
      congr 1
      refine List.flatMap_congr fun e he => ?_
      have hc := Value.mem_children_of_mem_entries ((containers_sublist _).subset he)
      exact ihv e.2 hc (l ++ [e.1])
  | pick f g rest hf ih =>
    rw [nodes_picks hf, results_picks hf, List.map_flatMap, ← chosen_map_snd hf,
      ← containers_map_snd, List.flatMap_map]
    exact List.flatMap_congr fun e _ => ih (n.child e)

/-- A query gives the values of the nodes that its path selects. -/
theorem nodes_values (p : Path) (doc : Value) :
    (nodes .parentsFirst doc p ([], doc)).map (·.2) = p.get doc := by
  rw [nodes_map_snd, get, Search.get_eq_reached, reached_selectors]

/-- Both orders go through the same nodes. -/
theorem nodes_perm (doc : Value) (p : Path) (n : Node) :
    (nodes .childrenFirst doc p n).Perm (nodes .parentsFirst doc p n) := by
  induction p using Path.fragmentInduction generalizing n with
  | nil => simp [nodes]
  | last f => simp [nodes]
  | root g rest ih =>
    rw [nodes_root, nodes_root]
    exact ih ([], doc)
  | current g rest ih =>
    rw [nodes_current, nodes_current]
    exact ih n
  | bracket g rest ih =>
    rw [nodes_bracket, nodes_bracket]
    exact ih n
  | descent g rest ih =>
    obtain ⟨l, v⟩ := n
    induction v using Value.childrenInduction generalizing l with
    | step v ihv =>
      rw [nodes_descent_childrenFirst, nodes_descent_parentsFirst]
      refine List.perm_append_comm.trans ((ih (l, v)).append ?_)
      refine List.Perm.flatMap_left _ fun e he => ?_
      have hc := Value.mem_children_of_mem_entries ((containers_sublist _).subset he)
      exact ihv e.2 hc (l ++ [e.1])
  | pick f g rest hf ih =>
    rw [nodes_picks hf, nodes_picks hf]
    exact List.Perm.flatMap_left _ fun e _ => ih (n.child e)

/-- Without a descent there is one order only. -/
theorem nodes_of_no_descent {p : Path} (hp : .descent ∉ p) (doc : Value) (n : Node) :
    nodes .childrenFirst doc p n = nodes .parentsFirst doc p n := by
  induction p using Path.fragmentInduction generalizing n with
  | nil => simp [nodes]
  | last f => simp [nodes]
  | root g rest ih =>
    rw [nodes_root, nodes_root]
    exact ih (fun h => hp (List.mem_cons_of_mem _ h)) ([], doc)
  | current g rest ih =>
    rw [nodes_current, nodes_current]
    exact ih (fun h => hp (List.mem_cons_of_mem _ h)) n
  | bracket g rest ih =>
    rw [nodes_bracket, nodes_bracket]
    exact ih (fun h => hp (List.mem_cons_of_mem _ h)) n
  | descent g rest ih => exact absurd List.mem_cons_self hp
  | pick f g rest hf ih =>
    rw [nodes_picks hf, nodes_picks hf]
    exact List.flatMap_congr fun e _ => ih (fun h => hp (List.mem_cons_of_mem _ h)) (n.child e)

end Path

def Node.At (doc : Value) (n : Node) : Prop := doc.pointer? n.1 = some n.2

theorem Node.At.child {doc : Value} {n : Node} (h : n.At doc) {e : Step × Value}
    (he : n.2.step? e.1 = some e.2) : (n.child e).At doc :=
  Value.pointer?_snoc_of_step? h he

theorem Node.At.names_nodup {doc : Value} {n : Node} (h : n.At doc) (hd : doc.WellFormed) :
    n.2.names.Nodup :=
  (Value.formed_iff.mp (Value.formed_pointer? hd h)).2.1

theorem Node.At.of_mem_subtree {doc : Value} (hd : doc.WellFormed) {n m : Node} (h : n.At doc)
    (hm : m ∈ n.subtree) : m.At doc := by
  obtain ⟨l, v⟩ := n
  induction v using Value.childrenInduction generalizing l with
  | step v ih =>
    rw [Node.subtree_eq] at hm
    rcases List.mem_cons.mp hm with rfl | hm
    · exact h
    · obtain ⟨e, he, hm⟩ := List.mem_flatMap.mp hm
      have hstep := Value.step?_of_mem_entries (h.names_nodup hd) he
      exact ih e.2 (Value.mem_children_of_mem_entries he) (l ++ [e.1]) (h.child hstep) hm

theorem Fragment.at_of_mem_nodes [Libraries] {doc : Value} (hd : doc.WellFormed) (f : Fragment)
    {n m : Node} (h : n.At doc) (hm : m ∈ f.nodes doc n) : m.At doc := by
  cases f using Fragment.pickCases with
  | root =>
    obtain rfl := List.mem_singleton.mp hm
    rfl
  | current | bracket =>
    obtain rfl := List.mem_singleton.mp hm
    exact h
  | descent => exact h.of_mem_subtree hd hm
  | pick f hf =>
    rw [Fragment.nodes_of_picks hf] at hm
    obtain ⟨e, he, rfl⟩ := List.mem_map.mp hm
    exact h.child (step?_of_mem_chosen (h.names_nodup hd) he)

namespace Path

theorem mem_nodes_descent [Libraries] {order : Order} {doc : Value} {g : Fragment} {rest : Path}
    {n m : Node} :
    m ∈ nodes order doc (.descent :: g :: rest) n ↔ m ∈ nodes order doc (g :: rest) n ∨
      ∃ e ∈ containers n.2.entries, m ∈ nodes order doc (.descent :: g :: rest) (n.child e) := by
  cases order with
  | parentsFirst => rw [nodes_descent_parentsFirst, List.mem_append, List.mem_flatMap]
  | childrenFirst => rw [nodes_descent_childrenFirst, List.mem_append, List.mem_flatMap, or_comm]

/-- A path selects nodes of the document, each listed with its own location. -/
theorem at_of_mem_nodes [Libraries] {doc : Value} (hd : doc.WellFormed) (order : Order) (p : Path)
    {n m : Node} (h : n.At doc) (hm : m ∈ nodes order doc p n) : m.At doc := by
  induction p using Path.fragmentInduction generalizing n with
  | nil => simp [nodes] at hm
  | last f =>
    rw [nodes] at hm
    exact f.at_of_mem_nodes hd h hm
  | root g rest ih =>
    have hroot : Node.At doc ([], doc) := rfl
    exact ih hroot (by rwa [nodes_root] at hm)
  | current g rest ih => exact ih h (by rwa [nodes_current] at hm)
  | bracket g rest ih => exact ih h (by rwa [nodes_bracket] at hm)
  | descent g rest ih =>
    obtain ⟨l, v⟩ := n
    induction v using Value.childrenInduction generalizing l with
    | step v ihv =>
      rcases mem_nodes_descent.mp hm with hm | ⟨e, he, hm⟩
      · exact ih h hm
      · have he := (containers_sublist _).subset he
        have hstep := Value.step?_of_mem_entries (h.names_nodup hd) he
        exact ihv e.2 (Value.mem_children_of_mem_entries he) (l ++ [e.1]) (h.child hstep) hm
  | pick f g rest hf ih =>
    rw [nodes_picks hf] at hm
    obtain ⟨e, he, hm⟩ := List.mem_flatMap.mp hm
    have hstep := step?_of_mem_chosen (h.names_nodup hd) ((containers_sublist _).subset he)
    exact ih (h.child hstep) hm

end Path

end DocPath
