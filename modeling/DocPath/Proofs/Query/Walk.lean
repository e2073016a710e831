import DocPath.Builtin
import DocPath.Proofs.Path.RoundTrip
import DocPath.Proofs.Query.Ahead
import DocPath.Walk

/-!
# What a walk shows

A walk shows every node of a document once, in the order of `$..`, each with a path of names
and positions that selects it alone. One path is shared by all entries of the stack. It is right
for each of them, for an entry never lies deeper than those above it: what it keeps of the path
is not touched before its turn.
-/

namespace DocPath

/-- The nodes of a value: the value itself, and the nodes of its children behind the steps that
they are listed with. -/
inductive Value.HasNode : Value → Location → Value → Prop where
  | self (v : Value) : HasNode v [] v
  | child {v w : Value} {e : Step × Value} {l : Location} (listed : e ∈ v.entries)
    (more : HasNode e.2 l w) : HasNode v (e.1 :: l) w

def Location.path (l : Location) : Path := .root :: l.map Step.fragment

/-- No sequence of the document has more elements than integers of 64 bits can count. -/
def Value.Indexable (v : Value) : Prop :=
  v.all fun w => !w.isOrdered || decide (w.children.length < Nat.pow 2 63)

instance (v : Value) : Decidable v.Indexable := inferInstanceAs (Decidable (_ = true))

variable {v w doc : Value} {s : Step} {l m : Location} {e : Step × Value}

theorem Value.indexable_iff :
    v.Indexable ↔ (v.isOrdered → v.children.length < Nat.pow 2 63) ∧
      ∀ c ∈ v.children, c.Indexable := by
  unfold Indexable
  rw [Value.all_iff, Bool.or_eq_true, Bool.not_eq_true', decide_eq_true_iff]
  cases v.isOrdered <;> simp

theorem Node.mem_subtree_iff {n : Node} :
    n ∈ Node.subtree (l, v) ↔ ∃ m, n.1 = l ++ m ∧ v.HasNode m n.2 := by
  induction v using Value.childrenInduction generalizing l with
  | step v ih =>
    rw [subtree_eq, List.mem_cons, List.mem_flatMap]
    constructor
    · rintro (rfl | ⟨e, he, hn⟩)
      · exact ⟨[], (List.append_nil l).symm, .self v⟩
      · obtain ⟨m, hm, hnode⟩ := (ih e.2 (Value.mem_children_of_mem_entries he)).mp hn
        refine ⟨e.1 :: m, ?_, .child he hnode⟩
        rw [hm, List.append_assoc, List.singleton_append]
    · rintro ⟨m, hm, hnode⟩
      cases hnode with
      | self =>
        left
        rw [List.append_nil] at hm
        exact Prod.ext hm rfl
      | @child _ _ e m he hnode =>
        right
        refine ⟨e, he, (ih e.2 (Value.mem_children_of_mem_entries he)).mpr ⟨m, ?_, hnode⟩⟩
        rw [hm, List.append_assoc, List.singleton_append]

/-- No two nodes are listed at one location. -/
theorem Node.subtree_nodup (hv : v.WellFormed) : ((Node.subtree ([], v)).map (·.1)).Nodup :=
  (Path.subtree_ahead hv).nodup

/-- Steps to positions that integers of 64 bits can count. -/
def Step.Counted : Step → Prop
  | .key _ => True
  | .index i => i < Nat.pow 2 63

theorem Step.toInt_of_counted {i : Nat} (hi : i < Nat.pow 2 63) :
    (Int64.ofNat (min i (Nat.pow 2 63 - 1))).toInt = i := by
  have bound : Nat.pow 2 63 = 9223372036854775808 := rfl
  rw [Nat.min_eq_left (by omega)]
  exact Int64.toInt_ofNat_of_lt (by omega)

/-- Different steps are taken by different fragments. -/
theorem Step.fragment_inj {t : Step} (hs : s.Counted) (ht : t.Counted)
    (h : s.fragment = t.fragment) : s = t := by
  cases s with
  | key name =>
    cases t with
    | key other =>
      injection h with h
      rw [h]
    | index j => cases h
  | index i =>
    cases t with
    | key other => cases h
    | index j =>
      injection h with h
      have hij := congrArg Int64.toInt h
      rw [toInt_of_counted hs, toInt_of_counted ht] at hij
      rw [Int.ofNat.inj hij]

theorem Location.path_inj (hl : ∀ s ∈ l, s.Counted) (hm : ∀ s ∈ m, s.Counted)
    (h : l.path = m.path) : l = m := by
  have hmap : l.map Step.fragment = m.map Step.fragment := (List.cons.inj h).2
  clear h
  induction l generalizing m with
  | nil => exact (List.map_eq_nil_iff.mp hmap.symm).symm
  | cons s l ih =>
    cases m with
    | nil => cases hmap
    | cons t m =>
      obtain ⟨hhead, htail⟩ := List.cons.inj hmap
      obtain ⟨hs, hl⟩ := List.forall_mem_cons.mp hl
      obtain ⟨ht, hm⟩ := List.forall_mem_cons.mp hm
      rw [Step.fragment_inj hs ht hhead, ih hl hm htail]

theorem Value.counted_of_mem_entries (hv : v.Indexable) (he : e ∈ v.entries) : e.1.Counted := by
  have hlen := (indexable_iff.mp hv).1
  cases v with
  | array items | slots refused items =>
    obtain ⟨p, hp, rfl⟩ := List.mem_map.mp he
    have hi := List.snd_lt_of_mem_zipIdx hp
    exact Nat.lt_trans hi (hlen rfl)
  | object ms | keyed kind ms =>
    obtain ⟨p, -, rfl⟩ := List.mem_map.mp he
    trivial
  | _ => cases he

theorem Value.HasNode.counted (h : v.HasNode l w) (hv : v.Indexable) : ∀ s ∈ l, s.Counted := by
  induction h with
  | self => exact nofun
  | child he _ ih =>
    have hchild := (indexable_iff.mp hv).2 _ (mem_children_of_mem_entries he)
    exact List.forall_mem_cons.mpr ⟨counted_of_mem_entries hv he, ih hchild⟩

theorem normalizeIndex_of_lt {i len : Nat} (hi : i < len) (hlen : len < Nat.pow 2 63) :
    normalizeIndex (Int64.ofNat (min i (Nat.pow 2 63 - 1))) len = some i := by
  have bound : Nat.pow 2 63 = 9223372036854775808 := rfl
  have hmax : Int64.maxValue.toInt = 9223372036854775807 := rfl
  have nonneg : ¬(i : Int) < 0 := by omega
  simp only [normalizeIndex, Step.toInt_of_counted (Nat.lt_trans hi hlen), nonneg, if_false]
  rw [if_pos (by omega), if_pos (by omega), Int.toNat_natCast]

theorem Step.fragment_picks (s : Step) : s.fragment.picks := by
  cases s <;> rfl

/-- The fragment of a step finds the child that the step is listed with, and no other. -/
theorem Step.found_fragment [Libraries] (hn : v.names.Nodup) (hv : v.Indexable) (he : e ∈ v.entries)
    (root : Value) : e.1.fragment.found root v = [e.2] := by
  obtain ⟨s, c⟩ := e
  have hstep := Value.step?_of_mem_entries hn he
  cases s with
  | key name =>
    rw [fragment, Fragment.found]
    exact congrArg Option.toList hstep
  | index i =>
    have hget : v.getIndex? (Int64.ofNat (min i (Nat.pow 2 63 - 1))) = some c := by
      have hlen := (Value.indexable_iff.mp hv).1
      cases v with
      | array items | slots refused items =>
        have hi : i < items.length := (List.getElem?_eq_some_iff.mp hstep).1
        rw [Value.getIndex?, normalizeIndex_of_lt hi (hlen rfl)]
        exact hstep
      | _ => cases hstep
    rw [fragment, Fragment.found, hget]
    rfl

theorem Value.isContainer_of_mem_entries (he : e ∈ v.entries) : v.isContainer := by
  cases v with
  | array | slots | object | keyed => rfl
  | _ => cases he

/-- Following the steps to a node ends at that node alone. -/
theorem Value.HasNode.results [Libraries] (h : v.HasNode l w) (hv : v.WellFormed) (hc : v.Indexable)
    (hl : l ≠ []) (root : Value) : Path.results root (l.map Step.fragment) v = [w] := by
  induction h with
  | self => exact absurd rfl hl
  | @child v w e l he hnode ih =>
    obtain ⟨-, hn, hformed⟩ := formed_iff.mp hv
    have hchild := mem_children_of_mem_entries he
    have found := Step.found_fragment hn hc he root
    cases hnode with
    | self =>
      rw [List.map_cons, List.map_nil, Path.results]
      exact found
    | @child _ _ e' l he' hnode =>
      have hmore := ih (hformed _ hchild) ((indexable_iff.mp hc).2 _ hchild)
        (List.cons_ne_nil _ _)
      rw [List.map_cons] at hmore
      rw [List.map_cons, List.map_cons, Path.results_picks (Step.fragment_picks _), found,
        List.filter_cons_of_pos (isContainer_of_mem_entries he'), List.filter_nil,
        List.flatMap_singleton, hmore]

theorem Value.HasNode.get_path [Libraries] (h : doc.HasNode l w) (hd : doc.WellFormed)
    (hc : doc.Indexable) :
    l.path.get doc = [w] := by
  rw [Path.get, Search.get_eq_reached, Path.reached_selectors, Location.path]
  cases h with
  | self =>
    rw [List.map_nil, Path.results]
    rfl
  | @child _ _ e m he hnode =>
    have hall := (HasNode.child he hnode).results hd hc (List.cons_ne_nil _ _) doc
    rw [List.map_cons] at hall ⊢
    rw [Path.results_root, hall]

theorem Location.parse_path [Libraries] (l : Location) : Path.parse l.path.text = .ok l.path := by
  have plain : ∀ f ∈ l.path, f.Unambiguous := by
    intro f hf
    rcases List.mem_cons.mp hf with rfl | hf
    · trivial
    · obtain ⟨s, -, rfl⟩ := List.mem_map.mp hf
      cases s <;> trivial
  have anchored : l.path.Anchored := by
    intro f hf
    obtain ⟨s, -, rfl⟩ := List.mem_map.mp hf
    cases s <;> rfl
  exact Path.parse_text_of_readsBack (fun f hf => (plain f hf).readsBack) anchored

namespace Walk

variable {shared : Path} {entry : Entry} {stack : List Entry}

/-- What an entry still has to show, given the path that is shared when its turn comes. -/
def due (shared : Path) (e : Entry) : List (Path × Value) :=
  (Node.subtree ([], e.value)).map fun n => (e.path shared ++ n.1.map Step.fragment, n.2)

/-- Every entry keeps a part of the shared path, and the entries below it keep no more. -/
structure Nested (shared : Path) (stack : List Entry) : Prop where
  within : ∀ e ∈ stack, e.depth ≤ shared.length
  shrinking : stack.Pairwise fun above below => below.depth ≤ above.depth

theorem Nested.start (doc : Value) : Nested [.root] [⟨1, none, doc⟩] where
  within := by simp
  shrinking := List.pairwise_singleton _ _

theorem Nested.le_length_path (h : Nested shared (entry :: stack)) :
    entry.depth ≤ (entry.path shared).length := by
  have := h.within entry List.mem_cons_self
  rw [Entry.path, List.length_append, List.length_take]
  omega

theorem depth_of_mem_entries {depth : Nat} (he : entry ∈ entries depth v) :
    entry.depth = depth := by
  obtain ⟨c, -, rfl⟩ := List.mem_map.mp he
  rfl

/-- Taking an entry and queueing the children of its value keeps the stack in order. -/
theorem Nested.round (h : Nested shared (entry :: stack)) :
    Nested (entry.path shared)
      (entries (entry.path shared).length entry.value ++ stack) where
  within := by
    intro f hf
    rcases List.mem_append.mp hf with hf | hf
    · exact Nat.le_of_eq (depth_of_mem_entries hf)
    · exact Nat.le_trans (List.rel_of_pairwise_cons h.shrinking hf) h.le_length_path
  shrinking := by
    refine List.pairwise_append.mpr ⟨?_, h.shrinking.of_cons, ?_⟩
    · refine List.pairwise_of_forall_mem_list fun f hf g hg => ?_
      rw [depth_of_mem_entries hf, depth_of_mem_entries hg]
    · intro f hf g hg
      rw [depth_of_mem_entries hf]
      exact Nat.le_trans (List.rel_of_pairwise_cons h.shrinking hg) h.le_length_path

/-- The path of the entry taken still holds what an entry below it keeps. -/
theorem Nested.due_eq (h : Nested shared (entry :: stack)) {f : Entry} (hf : f ∈ stack) :
    due (entry.path shared) f = due shared f := by
  have hdepth : f.depth ≤ entry.depth := List.rel_of_pairwise_cons h.shrinking hf
  have hlength : f.depth ≤ (shared.take entry.depth).length := by
    have := h.within entry List.mem_cons_self
    rw [List.length_take]
    omega
  have kept : (entry.path shared).take f.depth = shared.take f.depth := by
    rw [Entry.path, List.take_append_of_le_length hlength, List.take_take,
      Nat.min_eq_left hdepth]
  have path : f.path (entry.path shared) = f.path shared :=
    congrArg (· ++ (f.step.map Step.fragment).toList) kept
  rw [due, due, path]

/-- An entry shows its own node and then what the entries for its children show. -/
theorem due_cons (shared : Path) (e : Entry) :
    due shared e = (e.path shared, e.value) ::
      (entries (e.path shared).length e.value).flatMap (due (e.path shared)) := by
  rw [due, Node.subtree_eq, List.map_cons, List.map_flatMap, entries, List.flatMap_map]
  congr 1
  · simp
  · refine List.flatMap_congr fun c _ => ?_
    rw [due, Node.child, Path.subtree_below, List.map_map]
    refine List.map_congr_left fun n _ => ?_
    have child : Entry.path (e.path shared) ⟨(e.path shared).length, some c.1, c.2⟩ =
        e.path shared ++ [c.1.fragment] := by
      rw [Entry.path, List.take_length]
      rfl
    rw [child]
    simp [Node.below]

variable {σ : Type} (visit : σ → Path → Value → σ) (justLeaves : Bool)

def report (s : σ) (n : Path × Value) : σ :=
  if !n.2.isContainer || !justLeaves then visit s n.1 n.2 else s

/-- A walk shows the visitor what its entries have to show, in order. -/
theorem run_eq_foldl (h : Nested shared stack) (s : σ) :
    run visit justLeaves shared stack s =
      (stack.flatMap (due shared)).foldl (report visit justLeaves) s := by
  fun_induction run visit justLeaves shared stack s with
  | case1 shared s => rfl
  | case2 shared entry stack s path t ih =>
    have later : stack.flatMap (due path) = stack.flatMap (due shared) :=
      List.flatMap_congr fun f hf => h.due_eq hf
    rw [ih h.round, List.flatMap_append, later, List.flatMap_cons, due_cons, List.cons_append,
      List.foldl_cons]
    rfl

theorem all_eq_foldl (doc : Value) (s : σ) :
    all visit justLeaves doc s =
      ((Node.subtree ([], doc)).map fun n => (n.1.path, n.2)).foldl
        (report visit justLeaves) s := by
  rw [all, run_eq_foldl _ _ (.start doc), List.flatMap_singleton]
  rfl

theorem foldl_collect (nodes seen : List (Path × Value)) :
    nodes.foldl (report (fun seen p v => (p, v) :: seen) justLeaves) seen =
      (nodes.filter fun n => !n.2.isContainer || !justLeaves).reverse ++ seen := by
  induction nodes generalizing seen with
  | nil => rfl
  | cons n nodes ih =>
    rw [List.foldl_cons, ih, report, List.filter_cons]
    split <;> simp

theorem shown_eq (doc : Value) :
    shown justLeaves doc =
      ((Node.subtree ([], doc)).map fun n => (n.1.path, n.2)).filter
        fun n => !n.2.isContainer || !justLeaves := by
  rw [shown, all_eq_foldl, foldl_collect, List.append_nil, List.reverse_reverse]

end Walk

theorem Value.walk_eq (doc : Value) :
    doc.walk = (Node.subtree ([], doc)).map fun n => (n.1.path, n.2) := by
  rw [walk, Walk.shown_eq]
  simp

/-- A walk shows every node of a document once, in the order of `$..`. The text of each path
shown is read as that path, and the path selects the one value it is shown with. A walk over the
leaves shows the nodes that are no containers, in the same order. -/
theorem Value.walk_shows [Libraries] (hd : doc.WellFormed) (hc : doc.Indexable) :
    (∃ x, Path.parse "$.." = .ok x ∧ doc.walk.map (·.2) = x.get doc) ∧
      (doc.walk.map (·.1)).Nodup ∧
      (∀ p w, (p, w) ∈ doc.walk ↔ ∃ l, doc.HasNode l w ∧ p = l.path) ∧
      (∀ p w, (p, w) ∈ doc.walk → Path.parse p.text = .ok p ∧ p.get doc = [w]) ∧
      doc.leaves = doc.walk.filter fun n => !n.2.isContainer := by
  have nodes : ∀ p w, (p, w) ∈ doc.walk ↔ ∃ l, doc.HasNode l w ∧ p = l.path := by
    intro p w
    rw [walk_eq, List.mem_map]
    constructor
    · rintro ⟨n, hn, heq⟩
      obtain ⟨l, hl, hnode⟩ := Node.mem_subtree_iff.mp hn
      obtain ⟨rfl, rfl⟩ := Prod.mk.inj heq
      exact ⟨l, hnode, by rw [hl, List.nil_append]⟩
    · rintro ⟨l, hnode, rfl⟩
      exact ⟨(l, w), Node.mem_subtree_iff.mpr ⟨l, rfl, hnode⟩, rfl⟩
  refine ⟨⟨[.root, .descent], rfl, ?_⟩, ?_, nodes, ?_, ?_⟩
  · rw [Path.get, Search.get_eq_reached, Path.reached_selectors, Path.results_root, Path.results,
      Fragment.found, ← Node.subtree_map_snd [] doc, walk_eq, List.map_map]
    rfl
  · rw [walk_eq, List.map_map]
    have distinct := Node.subtree_nodup hd
    have paths : (((Node.subtree ([], doc)).map (·.1)).map Location.path).Nodup := by
      refine distinct.map_on fun l hl m hm h => ?_
      obtain ⟨n, hn, rfl⟩ := List.mem_map.mp hl
      obtain ⟨n', hn', rfl⟩ := List.mem_map.mp hm
      obtain ⟨_, hl, hnode⟩ := Node.mem_subtree_iff.mp hn
      obtain ⟨_, hm, hnode'⟩ := Node.mem_subtree_iff.mp hn'
      rw [hl, hm] at h ⊢
      exact Location.path_inj (hnode.counted hc) (hnode'.counted hc) h
    rw [List.map_map] at paths
    exact paths
  · intro p w hp
    obtain ⟨l, hnode, rfl⟩ := (nodes p w).mp hp
    exact ⟨l.parse_path, hnode.get_path hd hc⟩
  · rw [leaves, Walk.shown_eq, walk_eq]
    simp

/-- Names that differ in case only are told apart by the paths of a record's fields. -/
theorem Value.walk_shows_of_record :
    let doc : Value := .keyed .record
      [("Key", .int 1), ("key", .array [.null, .object [("it's", .str "\n")]]), ("", .bool true)]
    let p : Path := [.root, .child "key", .nth 1, .child "it's"]
    doc.WellFormed ∧ doc.Indexable ∧
      doc.walk.map (fun n => n.1.text) =
        ["$", "$.Key", "$.key", "$.key[0]", "$.key[1]", "$.key[1]['it\\'s']", "$['']"] ∧
      p.text = "$.key[1]['it\\'s']" ∧ (p, .str "\n") ∈ doc.walk ∧
      Path.parse p.text = .ok p ∧ p.get doc = [.str "\n"] := by
  intro doc p
  have hd : doc.WellFormed := by decide
  have hc : doc.Indexable := by decide
  have texts : doc.walk.map (fun n => n.1.text) =
      ["$", "$.Key", "$.key", "$.key[0]", "$.key[1]", "$.key[1]['it\\'s']", "$['']"] := by
    simp only [walk, Walk.shown, Walk.all, Walk.run, Walk.entries, Walk.Entry.path, entries, doc,
      isContainer, isKeyed, isOrdered, List.zipIdx, List.map, List.cons_append, List.nil_append]
    decide +kernel
  obtain ⟨-, -, nodes, selects, -⟩ := walk_shows hd hc
  have hp : (p, .str "\n") ∈ doc.walk := by
    refine (nodes _ _).mpr ⟨[.key "key", .index 1, .key "it's"], ?_, rfl⟩
    refine .child (e := (.key "key", _)) (.tail _ (.head _)) ?_
    refine .child (e := (.index 1, _)) (.tail _ (.head _)) ?_
    exact .child (e := (.key "it's", _)) (.head _) (.self _)
  obtain ⟨hparse, hget⟩ := selects _ _ hp
  exact ⟨hd, hc, texts, by decide +kernel, hp, hparse, hget⟩

end DocPath
