import DocPath.Builtin
import DocPath.Proofs.Query.Locations

/-!
# Enclosing places come first

A query lists a place before those inside it, and none twice, as long as one descent at most
leads there. With two descents the same place is reached in several ways.
-/

namespace DocPath

open Update (chosen)

namespace Path

/-- No location stands behind one that it is equal to or lies around. -/
def Ahead (ls : List Location) : Prop := ls.Pairwise fun l m => ¬m <+: l

variable {doc v : Value} {p rest : Path} {f g : Fragment}

theorem Ahead.nodup {ls : List Location} (h : Ahead ls) : ls.Nodup :=
  h.imp fun {l m} hnot (heq : l = m) => hnot (heq ▸ List.prefix_rfl)

/-- Of two places of such a list, the outer one is found first. -/
theorem Ahead.lt_of_prefix {ls : List Location} (h : Ahead ls) {i j : Nat} {l m : Location}
    (hl : ls[i]? = some l) (hm : ls[j]? = some m) (hlm : l <+: m) (hne : l ≠ m) : i < j := by
  obtain ⟨hi, rfl⟩ := List.getElem?_eq_some_iff.mp hl
  obtain ⟨hj, rfl⟩ := List.getElem?_eq_some_iff.mp hm
  rcases Nat.lt_trichotomy i j with hij | rfl | hji
  · exact hij
  · exact absurd rfl hne
  · exact absurd hlm (List.pairwise_iff_getElem.mp h j i hj hi hji)

theorem ahead_behind {es : List (Step × Value)} {w : Value → List Location}
    (hes : (es.map (·.1)).Nodup) (h : ∀ e ∈ es, Ahead (w e.2)) : Ahead (behind es w) := by
  refine List.pairwise_flatMap.mpr ⟨fun e he => ?_, ?_⟩
  · refine List.pairwise_map.mpr ((h e he).imp fun hnot hle => hnot ?_)
    exact (List.cons_prefix_cons.mp hle).2
  · refine (List.pairwise_map.mp hes).imp fun {e e'} hne l hl m hm hle => hne ?_
    obtain ⟨l', -, rfl⟩ := List.mem_map.mp hl
    obtain ⟨m', -, rfl⟩ := List.mem_map.mp hm
    exact (List.cons_prefix_cons.mp hle).1.symm

/-- The nodes below a value are listed after it. -/
theorem subtree_ahead (hv : v.WellFormed) : Ahead ((Node.subtree ([], v)).map (·.1)) := by
  induction v using Value.childrenInduction with
  | step v ih =>
    obtain ⟨-, hn, hc⟩ := Value.formed_iff.mp hv
    have below : (v.entries.flatMap fun e => Node.subtree (Node.child ([], v) e)).map (·.1) =
        behind v.entries fun c => (Node.subtree ([], c)).map (·.1) := by
      rw [List.map_flatMap]
      refine List.flatMap_congr fun e _ => ?_
      rw [Node.child, subtree_below, List.map_map, List.map_map]
      rfl
    rw [Node.subtree_eq, List.map_cons, below]
    refine List.pairwise_cons.mpr ⟨fun m hm hle => ?_, ?_⟩
    · obtain ⟨e, -, k, -, rfl⟩ := mem_behind.mp hm
      cases List.prefix_nil.mp hle
    · refine ahead_behind (Value.steps_nodup hn) fun e he => ?_
      have hchild := Value.mem_children_of_mem_entries he
      exact ih e.2 hchild (hc e.2 hchild)

theorem locations_last_ahead [Libraries] (hf : f.picks) (hapart : f.apart) (hn : v.names.Nodup) :
    Ahead (locations doc [f] v) := by
  rw [locations_last hf]
  refine List.pairwise_map.mpr ((List.pairwise_map.mp (chosen_nodup hapart doc hn)).imp ?_)
  exact fun hne hle => hne (List.cons_prefix_cons.mp hle).1.symm

/-- Places that a descent reaches from further down lie deeper, since the way from there is
equally long. -/
theorem locations_descent_ahead [Libraries] (flat : ∀ f ∈ g :: rest, f.picks) (hv : v.WellFormed)
    (h : ∀ {v : Value}, v.WellFormed → Ahead (locations doc (g :: rest) v)) :
    Ahead (locations doc (.descent :: g :: rest) v) := by
  induction v using Value.childrenInduction with
  | step v ih =>
    obtain ⟨-, hn, hc⟩ := Value.formed_iff.mp hv
    have below : Ahead (behind (containers v.entries) (locations doc (.descent :: g :: rest))) := by
      refine ahead_behind ((Value.steps_nodup hn).sublist ((containers_sublist _).map _))
        fun e he => ?_
      have hchild := Value.mem_children_of_mem_entries (List.mem_of_mem_filter he)
      exact ih e.2 hchild (hc e.2 hchild)
    rw [(downward_descent flat).locations_descent]
    refine List.pairwise_append.mpr ⟨h hv, below, fun l hl m hm hle => ?_⟩
    have hlt := length_lt_of_mem_behind flat hm
    rw [← length_of_mem_locations flat hl] at hlt
    exact Nat.not_lt.mpr hle.length_le hlt

theorem picks_of_no_descent (hmoves : ∀ f ∈ p, f.moves) (hnone : p.countP Fragment.isDescent = 0) :
    ∀ f ∈ p, f.picks := by
  intro f hf
  have hnot := List.countP_eq_zero.mp hnone f hf
  cases f using Fragment.pickCases with
  | root | current | bracket => cases hmoves _ hf
  | descent => exact absurd rfl hnot
  | pick f hpicks => exact hpicks

/-- A path with one descent at most, whose unions choose no child twice, selects no location
twice, and none after one that lies inside it. -/
theorem locations_ahead [Libraries] (hmoves : ∀ f ∈ p, f.moves)
    (hone : p.countP Fragment.isDescent ≤ 1)
    (hapart : ∀ f ∈ p, f.apart) (hv : v.WellFormed) : Ahead (locations doc p v) := by
  induction p using Path.fragmentInduction generalizing v with
  | nil =>
    rw [locations, nodes]
    exact List.Pairwise.nil
  | last f =>
    cases f using Fragment.pickCases with
    | root | current | bracket => cases hmoves _ List.mem_cons_self
    | descent =>
      rw [locations, nodes]
      exact subtree_ahead hv
    | pick f hf =>
      exact locations_last_ahead hf (hapart f List.mem_cons_self) (Value.formed_iff.mp hv).2.1
  | root g rest ih | current g rest ih | bracket g rest ih => cases hmoves _ List.mem_cons_self
  | descent g rest ih =>
    have hrest : ∀ f ∈ g :: rest, f.moves := fun f hf => hmoves f (List.mem_cons_of_mem _ hf)
    have hapart : ∀ f ∈ g :: rest, f.apart := fun f hf => hapart f (List.mem_cons_of_mem _ hf)
    rw [List.countP_cons_of_pos rfl] at hone
    have hnone : (g :: rest).countP Fragment.isDescent = 0 := by omega
    refine locations_descent_ahead (picks_of_no_descent hrest hnone) hv fun hv => ?_
    exact ih hrest (Nat.le_trans (Nat.le_of_eq hnone) (Nat.zero_le 1)) hapart hv
  | pick f g rest hf ih =>
    have hrest : ∀ f ∈ g :: rest, f.moves := fun f hf => hmoves f (List.mem_cons_of_mem _ hf)
    have hdown : Downward (g :: rest) := fun h => by cases hrest _ h
    have hn := (Value.formed_iff.mp hv).2.1
    rw [List.countP_cons] at hone
    rw [hdown.locations_through hf]
    refine ahead_behind ((chosen_nodup (hapart f List.mem_cons_self) doc hn).sublist
      ((containers_sublist _).map _)) fun e he => ?_
    have hchild := Value.formed_step? hv (step?_of_mem_chosen hn (List.mem_of_mem_filter he))
    exact ih hrest (by omega) (fun f hf => hapart f (List.mem_cons_of_mem _ hf)) hchild

theorem Steady.moves (hp : Steady p) : ∀ f ∈ p, f.moves := by
  have moves_of_picks : ∀ {f : Fragment}, f.picks → f.moves := by
    intro f hf
    cases f <;> first | rfl | cases hf
  induction hp with
  | last picks free => exact fun f hf => moves_of_picks (List.mem_singleton.mp hf ▸ picks)
  | through picks free apart more ih => exact List.forall_mem_cons.mpr ⟨moves_of_picks picks, ih⟩
  | descent flat more ih => exact List.forall_mem_cons.mpr ⟨rfl, ih⟩

theorem countP_isDescent_of_picks (flat : ∀ f ∈ p, f.picks) :
    p.countP Fragment.isDescent = 0 := by
  refine List.countP_eq_zero.mpr fun f hf hdescent => ?_
  have hpicks := flat f hf
  cases f with
  | descent => cases hpicks
  | _ => cases hdescent

theorem Steady.countP_isDescent (hp : Steady p) : p.countP Fragment.isDescent ≤ 1 := by
  induction hp with
  | @last f picks free =>
    rw [countP_isDescent_of_picks fun g hg => List.mem_singleton.mp hg ▸ picks]
    exact Nat.zero_le 1
  | @through f g rest picks free apart more ih =>
    have hnot : ¬f.isDescent := by
      cases f <;> first | exact Bool.false_ne_true | cases picks
    rwa [List.countP_cons_of_neg hnot]
  | descent flat more ih =>
    rw [List.countP_cons_of_pos rfl, countP_isDescent_of_picks fun f hf => (flat f hf).1]

theorem Steady.locations_nodup [Libraries] (hp : Steady p) (hapart : ∀ f ∈ p, f.apart)
    (hv : v.WellFormed) :
    (locations doc p v).Nodup :=
  (locations_ahead hp.moves hp.countP_isDescent hapart hv).nodup

/-- At the document itself, the first fragment may also go to where it already is. -/
theorem Anchored.locations_ahead [Libraries] (hp : p.Anchored)
    (hone : p.countP Fragment.isDescent ≤ 1)
    (hapart : ∀ f ∈ p, f.apart) (hd : doc.WellFormed) : Ahead (locations doc p doc) := by
  cases p with
  | nil =>
    rw [locations, nodes]
    exact List.Pairwise.nil
  | cons f rest =>
    have hrest : ∀ g ∈ rest, g.moves := hp
    by_cases hf : f.moves
    · exact Path.locations_ahead (List.forall_mem_cons.mpr ⟨hf, hrest⟩) hone hapart hd
    · cases rest with
      | nil =>
        rw [locations, nodes_itself hf]
        exact List.pairwise_singleton _ _
      | cons g rest =>
        rw [List.countP_cons] at hone
        rw [locations_of_not_moves hf]
        exact Path.locations_ahead hrest (by omega)
          (fun g hg => hapart g (List.mem_cons_of_mem _ hg)) hd

/-- A query by a path with one descent at most, whose unions choose no child twice, gives the
values at distinct places of the document, and of two places where one lies inside the other it
gives the outer one first. -/
theorem get_outer_first [Libraries] {bytes : List UInt8} (hparse : Path.parseBytes bytes = .ok p)
    (hone : p.countP Fragment.isDescent ≤ 1) (hapart : ∀ f ∈ p, f.apart) (hd : doc.Plain) :
    let selected := nodes .parentsFirst doc p ([], doc)
    selected.map (·.2) = p.get doc ∧
      (∀ n ∈ selected, doc.pointer? n.1 = some n.2) ∧
      (selected.map (·.1)).Nodup ∧
      ∀ (i j : Nat) (n m : Node), selected[i]? = some n → selected[j]? = some m →
        n.1 <+: m.1 → n.1 ≠ m.1 → i < j := by
  intro selected
  have hahead : Ahead (selected.map (·.1)) :=
    (anchored_of_parseBytes hparse).locations_ahead hone hapart hd.wellFormed
  have hroot : Node.At doc ([], doc) := rfl
  refine ⟨nodes_values p doc, fun n hn => at_of_mem_nodes hd.wellFormed .parentsFirst p hroot hn,
    hahead.nodup, fun i j n m hn hm => hahead.lt_of_prefix ?_ ?_⟩
  · rw [List.getElem?_map, hn, Option.map_some]
  · rw [List.getElem?_map, hm, Option.map_some]

/-- In `[[1]]` the descent lists the inner array before its element. -/
theorem get_outer_first_of_nested_arrays :
    let p : Path := [.root, .descent, .nth 0]
    let inner : Value := .array [.int 1]
    let doc : Value := .array [inner]
    let selected := nodes .parentsFirst doc p ([], doc)
    Path.parseBytes (Text.Utf8.encode "$..[0]".toList) = .ok p ∧ doc.Plain ∧
      selected = [([.index 0], inner), ([.index 0, .index 0], .int 1)] ∧
      selected.map (·.2) = p.get doc ∧
      ∀ (i j : Nat) (n m : Node), selected[i]? = some n → selected[j]? = some m →
        n.1 <+: m.1 → n.1 ≠ m.1 → i < j := by
  intro p inner doc selected
  have hparse : Path.parseBytes (Text.Utf8.encode "$..[0]".toList) = .ok p := by rfl
  have hapart : ∀ f ∈ p, f.apart := by simp [p, Fragment.apart]
  have hd : doc.Plain := by decide
  obtain ⟨hget, -, -, hfirst⟩ := get_outer_first hparse (by decide) hapart hd
  have last : ∀ n : Node, nodes .parentsFirst doc [.nth 0] n =
      (chosen (.nth 0) doc n.2).map n.child :=
    fun n => by rw [nodes, Fragment.nodes_of_picks rfl]
  have below : nodes .parentsFirst doc [.descent, .nth 0] ([.index 0], inner) =
      [([.index 0, .index 0], .int 1)] := by
    rw [nodes_descent_parentsFirst, last]
    rfl
  have all : selected = [([.index 0], inner), ([.index 0, .index 0], .int 1)] := by
    have here : nodes .parentsFirst doc [.nth 0] ([], doc) = [([.index 0], inner)] := last _
    rw [show selected = _ from nodes_root .parentsFirst doc .descent [.nth 0] ([], doc),
      nodes_descent_parentsFirst, here]
    exact congrArg (_ :: ·) ((List.append_nil _).trans below)
  exact ⟨hparse, hd, all, hget, hfirst⟩

end Path
end DocPath
