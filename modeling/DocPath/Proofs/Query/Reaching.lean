import DocPath.Proofs.Query.Aims
import DocPath.Proofs.Value.Standing

/-!
# The way of a path through containers

A path without filters leads from container to container, and where it leads depends on nothing
but the kinds of these containers and the steps that they list. So the way is still there after
changes that keep the nodes on it in their places.
-/

namespace DocPath

open Value (Persists)

/-- The path comes to a location below a value, through containers only. A fragment that does
not move leaves it where it is, and a descent may stop anywhere. -/
inductive Reaches : Path → Value → Location → Prop where
  | done (v : Value) : Reaches [] v []
  | stay {f : Fragment} {p : Path} {v : Value} {l : Location} (stays : ¬f.moves)
    (more : Reaches p v l) : Reaches (f :: p) v l
  | pick {f : Fragment} {p : Path} {v c : Value} {s : Step} {l : Location}
    (aims : f.Aims v.extent s) (listed : f = .wildcard → s ∈ v.steps) (step : v.step? s = some c)
    (inner : c.isContainer) (more : Reaches p c l) : Reaches (f :: p) v (s :: l)
  | stop {p : Path} {v : Value} {l : Location} (more : Reaches p v l) :
    Reaches (.descent :: p) v l
  | deeper {p : Path} {v c : Value} {s : Step} {l : Location} (listed : s ∈ v.steps)
    (step : v.step? s = some c) (inner : c.isContainer) (more : Reaches (.descent :: p) c l) :
    Reaches (.descent :: p) v (s :: l)

variable {v v' u c doc : Value} {p q rest : Path} {f : Fragment} {s : Step} {l m k : Location}

theorem Value.alike_of_steps (hk : v'.kind = v.kind) (hs : v'.steps = v.steps) :
    Value.Alike v v' := by
  refine ⟨hk, fun ho => ?_⟩
  have hlen := congrArg List.length hs
  rw [Value.steps_eq, Value.steps_eq, if_pos ho, if_pos (Value.isOrdered_of_kind hk ▸ ho)] at hlen
  simpa using hlen

theorem Fragment.picks_of_aims {n : Nat} (h : f.Aims n s) : f.picks ∧ f.isFilter = false := by
  cases f with
  | root | current | bracket | descent | filter template => cases h
  | _ => exact ⟨rfl, rfl⟩

namespace Reaches

theorem eq_nil (h : Reaches [] v l) : l = [] := by
  cases h
  rfl

theorem append (h : Reaches q v l) (hl : v.pointer? l = some u) (h' : Reaches p u m) :
    Reaches (q ++ p) v (l ++ m) := by
  induction h with
  | done v =>
    cases hl
    exact h'
  | stay stays _ ih => exact .stay stays (ih hl)
  | pick aims listed step inner _ ih =>
    rw [Value.pointer?, step, Option.bind_some] at hl
    exact .pick aims listed step inner (ih hl)
  | stop _ ih => exact .stop (ih hl)
  | deeper listed step inner _ ih =>
    rw [Value.pointer?, step, Option.bind_some] at hl
    exact .deeper listed step inner (ih hl)

/-- A descent goes on into the containers below. -/
theorem descend (h : Reaches (q ++ [.descent]) v l) (hl : v.pointer? l = some u)
    (listed : s ∈ u.steps) (step : u.step? s = some c) (inner : c.isContainer) :
    Reaches (q ++ [.descent]) v (l ++ [s]) := by
  generalize hp : q ++ [Fragment.descent] = p at h
  induction h generalizing q with
  | done v => exact absurd hp (List.append_ne_nil_of_right_ne_nil q (List.cons_ne_nil _ _))
  | @stay f p v l stays more ih =>
    cases q with
    | nil =>
      obtain rfl := (List.cons.inj hp).1
      exact absurd rfl stays
    | cons g q => exact .stay stays (ih hl (List.cons.inj hp).2)
  | @pick f p v b t l aims listed' step' inner' more ih =>
    rw [Value.pointer?, step', Option.bind_some] at hl
    cases q with
    | nil =>
      obtain rfl := (List.cons.inj hp).1
      cases aims
    | cons g q => exact .pick aims listed' step' inner' (ih hl (List.cons.inj hp).2)
  | @stop p v l more ih =>
    cases q with
    | nil =>
      obtain rfl := (List.cons.inj hp).2
      obtain rfl := more.eq_nil
      cases hl
      exact .deeper listed step inner (.stop (.done c))
    | cons g q => exact .stop (ih hl (List.cons.inj hp).2)
  | deeper listed' step' inner' more ih =>
    rw [Value.pointer?, step', Option.bind_some] at hl
    exact .deeper listed' step' inner' (ih hl hp)

/-- Where the path comes to does not change while the nodes on the way keep their places. -/
theorem persists (h : Reaches p v l) (hl : Persists l v v') : Reaches p v' l := by
  have kind_of : ∀ {l : Location} {c c' : Value}, Persists l c c' → c'.kind = c.kind := by
    intro l c c' h
    cases h with
    | here kind | child kind => exact kind
  induction h generalizing v' with
  | done v => exact .done v'
  | stay stays _ ih => exact .stay stays (ih hl)
  | pick aims listed step inner _ ih =>
    cases hl with
    | child kind steps old new below =>
      obtain rfl := Option.some.inj (step.symm.trans old)
      refine .pick ?_ (fun hf => steps ▸ listed hf) new ?_ (ih below)
      · rwa [Value.extent_of_alike (Value.alike_of_steps kind steps)]
      · rwa [Value.isContainer_of_kind (kind_of below)]
  | stop _ ih => exact .stop (ih hl)
  | deeper listed step inner _ ih =>
    cases hl with
    | child kind steps old new below =>
      obtain rfl := Option.some.inj (step.symm.trans old)
      refine .deeper (steps ▸ listed) new ?_ (ih below)
      rwa [Value.isContainer_of_kind (kind_of below)]

theorem mem_containers_chosen [Libraries] (hn : v.names.Nodup) (aims : f.Aims v.extent s)
    (listed : f = .wildcard → s ∈ v.steps) (step : v.step? s = some c) (inner : c.isContainer)
    (doc : Value) : (s, c) ∈ Path.containers (Update.chosen f doc v) :=
  List.mem_filter.mpr
    ⟨(mem_chosen_iff (Fragment.picks_of_aims aims).2 hn doc).mpr ⟨⟨aims, step⟩, listed⟩, inner⟩

theorem mem_containers_entries [Libraries] (hn : v.names.Nodup) (listed : s ∈ v.steps)
    (step : v.step? s = some c) (inner : c.isContainer) :
    (s, c) ∈ Path.containers v.entries :=
  mem_containers_chosen (f := .wildcard) hn trivial (fun _ => listed) step inner v

/-- What comes after the way is selected from where it ends. -/
theorem nodes_append [Libraries] (h : Reaches q v l) (hq : ∀ f ∈ q, f.moves) (hv : v.WellFormed)
    (hl : v.pointer? l = some u) (hp : p ≠ []) (order : Order) (doc : Value) (k : Location)
    {n : Node} (hn : n ∈ Path.nodes order doc p (k ++ l, u)) :
    n ∈ Path.nodes order doc (q ++ p) (k, v) := by
  have cons_ne : ∀ q : Path, ∃ g rest, q ++ p = g :: rest :=
    fun q => List.exists_cons_of_ne_nil (List.append_ne_nil_of_right_ne_nil q hp)
  induction h generalizing k with
  | done v =>
    cases hl
    rwa [List.append_nil] at hn
  | stay stays => exact absurd (hq _ List.mem_cons_self) stays
  | @pick f q v c s l aims listed step inner _ ih =>
    rw [Value.pointer?, step, Option.bind_some] at hl
    have hmem := mem_containers_chosen (Value.formed_iff.mp hv).2.1 aims listed step inner doc
    have hn' : n ∈ Path.nodes order doc p ((k ++ [s]) ++ l, u) := by simpa using hn
    have below := ih (fun f hf => hq f (List.mem_cons_of_mem _ hf)) (Value.formed_step? hv step)
      hl (k ++ [s]) hn'
    obtain ⟨g, rest, hg⟩ := cons_ne q
    rw [hg] at below
    rw [List.cons_append, hg, Path.nodes_picks (Fragment.picks_of_aims aims).1]
    exact List.mem_flatMap.mpr ⟨(s, c), hmem, below⟩
  | @stop q v l _ ih =>
    have here := ih (fun f hf => hq f (List.mem_cons_of_mem _ hf)) hv hl k hn
    obtain ⟨g, rest, hg⟩ := cons_ne q
    rw [hg] at here
    rw [List.cons_append, hg]
    exact Path.mem_nodes_descent.mpr (Or.inl here)
  | @deeper q v c s l listed step inner _ ih =>
    rw [Value.pointer?, step, Option.bind_some] at hl
    have hmem := mem_containers_entries (Value.formed_iff.mp hv).2.1 listed step inner
    have hn' : n ∈ Path.nodes order doc p ((k ++ [s]) ++ l, u) := by simpa using hn
    have below := ih hq (Value.formed_step? hv step) hl (k ++ [s]) hn'
    obtain ⟨g, rest, hg⟩ := cons_ne q
    rw [List.cons_append, hg] at below ⊢
    exact Path.mem_nodes_descent.mpr (Or.inr ⟨(s, c), hmem, below⟩)

/-- A path selects what it comes to. -/
theorem mem_nodes [Libraries] (h : Reaches p v l) (hp : ∀ f ∈ p, f.moves) (hne : p ≠ [])
    (hv : v.WellFormed) (hl : v.pointer? l = some u) (order : Order) (doc : Value) (k : Location) :
    (k ++ l, u) ∈ Path.nodes order doc p (k, v) := by
  induction h generalizing k with
  | done v => exact absurd rfl hne
  | stay stays => exact absurd (hp _ List.mem_cons_self) stays
  | @pick f p v c s l aims listed step inner more ih =>
    rw [Value.pointer?, step, Option.bind_some] at hl
    have hpicks := (Fragment.picks_of_aims aims).1
    have hmem := mem_containers_chosen (Value.formed_iff.mp hv).2.1 aims listed step inner doc
    cases p with
    | nil =>
      obtain rfl := more.eq_nil
      cases hl
      rw [Path.nodes, Fragment.nodes_of_picks hpicks]
      exact List.mem_map.mpr ⟨_, List.mem_of_mem_filter hmem, rfl⟩
    | cons g rest =>
      have below := ih (fun f hf => hp f (List.mem_cons_of_mem _ hf)) (List.cons_ne_nil _ _)
        (Value.formed_step? hv step) hl (k ++ [s])
      rw [List.append_assoc, List.singleton_append] at below
      rw [Path.nodes_picks hpicks]
      exact List.mem_flatMap.mpr ⟨(s, c), hmem, below⟩
  | @stop p v l more ih =>
    cases p with
    | nil =>
      obtain rfl := more.eq_nil
      cases hl
      rw [Path.nodes, Fragment.nodes, Node.subtree_eq, List.append_nil]
      exact List.mem_cons_self
    | cons g rest =>
      have here := ih (fun f hf => hp f (List.mem_cons_of_mem _ hf)) (List.cons_ne_nil _ _) hv hl k
      exact Path.mem_nodes_descent.mpr (Or.inl here)
  | @deeper p v c s l listed step inner _ ih =>
    rw [Value.pointer?, step, Option.bind_some] at hl
    have hmem := mem_containers_entries (Value.formed_iff.mp hv).2.1 listed step inner
    have below := ih hp hne (Value.formed_step? hv step) hl (k ++ [s])
    rw [List.append_assoc, List.singleton_append] at below
    cases p with
    | nil =>
      rw [Path.nodes, Fragment.nodes] at below ⊢
      rw [Node.subtree_eq]
      exact List.mem_cons_of_mem _
        (List.mem_flatMap.mpr ⟨(s, c), List.mem_of_mem_filter hmem, below⟩)
    | cons g rest => exact Path.mem_nodes_descent.mpr (Or.inr ⟨(s, c), hmem, below⟩)

theorem of_not_moves (h : Reaches (f :: p) v l) (hf : ¬f.moves) : Reaches p v l := by
  cases h with
  | stay _ more => exact more
  | pick aims => cases f <;> first | exact absurd rfl hf | cases aims
  | stop | deeper => exact absurd rfl hf

/-- From the document, the first fragment may also stay there. -/
theorem nodes_append_of_anchored [Libraries] (h : Reaches q doc l) (hq : q.Anchored)
    (hd : doc.WellFormed) (hl : doc.pointer? l = some u) (hp : p ≠ []) (order : Order) {n : Node}
    (hn : n ∈ Path.nodes order doc p (l, u)) : n ∈ Path.nodes order doc (q ++ p) ([], doc) := by
  cases q with
  | nil => exact h.nodes_append nofun hd hl hp order doc [] hn
  | cons f q =>
    by_cases hf : f.moves
    · exact h.nodes_append (List.forall_mem_cons.mpr ⟨hf, hq⟩) hd hl hp order doc [] hn
    · have below := (h.of_not_moves hf).nodes_append hq hd hl hp order doc [] hn
      obtain ⟨g, rest, hg⟩ :=
        List.exists_cons_of_ne_nil (List.append_ne_nil_of_right_ne_nil q hp)
      rw [hg] at below
      rwa [List.cons_append, hg, Path.nodes_of_not_moves hf]

theorem mem_nodes_of_anchored [Libraries] (h : Reaches p doc l) (hp : p.Anchored) (hne : p ≠ [])
    (hd : doc.WellFormed) (hl : doc.pointer? l = some u) (order : Order) :
    (l, u) ∈ Path.nodes order doc p ([], doc) := by
  cases p with
  | nil => exact absurd rfl hne
  | cons f p =>
    by_cases hf : f.moves
    · exact h.mem_nodes (List.forall_mem_cons.mpr ⟨hf, hp⟩) hne hd hl order doc []
    · have below := h.of_not_moves hf
      cases p with
      | nil =>
        obtain rfl := below.eq_nil
        cases hl
        rw [Path.nodes_itself hf]
        exact List.mem_singleton_self _
      | cons g rest =>
        rw [Path.nodes_of_not_moves hf]
        exact below.mem_nodes hp (List.cons_ne_nil _ _) hd hl order doc []

end Reaches

end DocPath
