import DocPath.Builtin
import DocPath.Proofs.Path.RoundTrip
import DocPath.Proofs.Query.Reaching
import DocPath.Proofs.Update.Failing
import DocPath.Proofs.Update.Termination
import DocPath.Proofs.Update.Waiting

/-!
# What a failing set says of the document

An error names the path up to the fragment at fault. Each location that waits has been reached
by the fragments before its own, and it still is when its turn comes: a round keeps the nodes on
the way to what waits in their places. So the path of the error leads to the obstacle in the
document that the set leaves behind, whatever it has created and written on the way.
-/

namespace DocPath

/-- A path leads to a value of a document; the empty path leads to the document itself. -/
def Path.Finds [Libraries] (q : Path) (d v : Value) : Prop := v ∈ q.get d ∨ q = [] ∧ v = d

/-- The path that an error names begins the path `x`, and it shows the obstacle in a document: a
scalar of the reported kind, a sequence too short for an index, or a keyed container that lacks
a name. -/
def UpdateError.Names [Libraries] (x : Path) (d : Value) : UpdateError → Prop
  | .blocked kind text =>
    ∃ p : Path, p <+: x ∧ Path.parse text = .ok p ∧
      ∃ c ∈ p.get d, c.isContainer = false ∧ c.typeName = kind
  | .outOfBounds text =>
    ∃ (q : Path) (i : Int64), q ++ [.nth i] <+: x ∧ Path.parse text = .ok (q ++ [.nth i]) ∧
      ∃ v, q.Finds d v ∧ v.isOrdered ∧ normalizeIndex i v.children.length = none
  | .unknownShape text | .negativeLength text =>
    ∃ (q : Path) (name : String), q ++ [.child name] <+: x ∧
      Path.parse text = .ok (q ++ [.child name]) ∧
        ∃ v, q.Finds d v ∧ v.isKeyed ∧ v.getKey? name = none
  | _ => True

/-- Every beginning of a path that has been read is read from its own text. -/
theorem Path.parse_text_of_beginning [Libraries] {bytes : List UInt8} {x q : Path}
    (hx : Path.parseBytes bytes = .ok x) (hfilter : ∀ f ∈ x, f.isFilter = false)
    (hq : q <+: x) : Path.parse q.text = .ok q := by
  obtain ⟨hanchored, hproper⟩ := fragments_of_parseBytes hx
  refine parse_text (fun f hf => ?_) (hanchored.beginning hq)
  have hmem := hq.subset hf
  cases f with
  | bracket => exact (hproper _ hmem).elim
  | filter template => cases hfilter _ hmem
  | union keys => exact hproper _ hmem
  | _ => trivial

/-- What a path finds in a plain document is plain. -/
theorem Path.Finds.plain [Libraries] {q : Path} {d v : Value} (h : q.Finds d v) (hd : d.Plain) :
    v.Plain := by
  rcases h with h | ⟨-, rfl⟩
  · rw [← nodes_values] at h
    obtain ⟨⟨loc, v⟩, hn, rfl⟩ := List.mem_map.mp h
    have hroot : Node.At d ([], d) := rfl
    exact Value.formed_pointer? hd (at_of_mem_nodes hd.wellFormed .parentsFirst q hroot hn)
  · exact hd

theorem Value.Plain.exists_array {v : Value} (h : v.Plain) (ho : v.isOrdered) :
    ∃ items, v = .array items := by
  cases v with
  | array items => exact ⟨items, rfl⟩
  | slots refused items => cases (Value.formed_iff.mp h).1
  | _ => cases ho

theorem Value.Plain.exists_object {v : Value} (h : v.Plain) (hk : v.isKeyed) :
    ∃ ms, v = .object ms := by
  cases v with
  | object ms => exact ⟨ms, rfl⟩
  | keyed kind ms => cases (Value.formed_iff.mp h).1
  | _ => cases hk

section reaching

variable {q x : Path} {f : Fragment} {s : Step} {d v c : Value} {loc : Location}

/-- A path finds what it comes to. -/
theorem Reaches.finds [Libraries] (h : Reaches q d loc) (hq : q.Anchored) (hd : d.WellFormed)
    (hv : d.pointer? loc = some v) : q.Finds d v := by
  by_cases hne : q = []
  · subst hne
    obtain rfl := h.eq_nil
    exact Or.inr ⟨rfl, (Option.some.inj hv).symm⟩
  · have hnode := h.mem_nodes_of_anchored hq hne hd hv .parentsFirst
    rw [Path.Finds, ← Path.nodes_values]
    exact Or.inl (List.mem_map_of_mem (f := (·.2)) hnode)

/-- A path that goes on with one more fragment selects the children at which it aims. -/
theorem Reaches.mem_get [Libraries] (h : Reaches q d loc) (hq : q.Anchored) (hd : d.WellFormed)
    (hv : d.pointer? loc = some v) (aims : f.Aims v.extent s)
    (listed : f = .wildcard → s ∈ v.steps) (step : v.step? s = some c) :
    c ∈ Path.get (q ++ [f]) d := by
  obtain ⟨hpicks, hfilter⟩ := Fragment.picks_of_aims aims
  have hn := (Value.formed_iff.mp (Value.formed_pointer? hd hv)).2.1
  have hchosen := (mem_chosen_iff hfilter hn d).mpr ⟨⟨aims, step⟩, listed⟩
  have hnode : (loc ++ [s], c) ∈ Path.nodes .parentsFirst d [f] (loc, v) := by
    rw [Path.nodes, Fragment.nodes_of_picks hpicks]
    exact List.mem_map_of_mem (f := Node.child (loc, v)) hchosen
  rw [← Path.nodes_values]
  refine List.mem_map_of_mem (f := (·.2)) (a := (loc ++ [s], c)) ?_
  exact h.nodes_append_of_anchored hq hd hv (List.cons_ne_nil f []) .parentsFirst hnode

end reaching

namespace Update

open Value (Persists)

variable {a : Action} {one expanded : Bool} {w v doc d : Value} {p : Place} {x : Path}
  {loc : Location} {locs : List Location} {before rest more : List Fragment} {f next : Fragment}
  {e : UpdateError} {l : Level} {s t : State}

/-- The fragments that have led to what waits on a level. A descent has led to each location
below the one that it started from. -/
def Level.way (l : Level) : Path :=
  match l.rest with
  | .descent :: _ => l.before ++ [.descent]
  | _ => l.before

theorem way_of_ne_descent (hf : f ≠ .descent) :
    Level.way ⟨before, f :: rest, expanded, locs⟩ = before := by
  cases f with
  | descent => exact absurd rfl hf
  | _ => rfl

theorem reaches_way (h : Reaches before d loc) (hv : d.pointer? loc = some v) :
    Reaches (Level.way ⟨before, rest, expanded, locs⟩) d loc := by
  have stop : Reaches (before ++ [.descent]) d loc := by
    have hstop := h.append hv (.stop (.done v))
    rwa [List.append_nil] at hstop
  unfold Level.way
  split
  · exact stop
  · exact h

/-- A level divides the path `x`, and what waits on it is where its fragments have led. -/
structure Level.Tracks (x : Path) (d : Value) (l : Level) : Prop where
  split : l.before ++ l.rest = x
  reached : ∀ loc ∈ l.waiting, Reaches l.way d loc

theorem Level.Tracks.persists (h : l.Tracks x doc)
    (hl : ∀ loc ∈ l.waiting, Persists loc doc d) : l.Tracks x d where
  split := h.split
  reached loc hloc := (h.reached loc hloc).persists (hl loc hloc)

/-- Where a name or position goes, the way to it goes on by its fragment. -/
theorem follow_reaches (h : Reaches before doc loc) {reached : Option Location}
    (hfollow : follow a ⟨before, f⟩ next doc loc = .ok (d, reached)) :
    ∀ m ∈ reached.toList, Reaches (before ++ [f]) d m ∧ ∃ c, d.pointer? m = some c := by
  cases follows_of_follow hfollow with
  | nowhere => exact nofun
  | @child v c s hv single hs inner =>
    intro m hm
    obtain rfl := List.mem_singleton.mp hm
    have haims := aims_of_singleStep single
    have hpick := h.append hv (.pick haims (by rintro rfl; cases single) hs inner (.done c))
    exact ⟨hpick, c, Value.pointer?_snoc_of_step? hv hs⟩
  | @created v c v' d s hv single missing hc hw hput =>
    intro m hm
    obtain rfl := List.mem_singleton.mp hm
    obtain ⟨name, rfl, rfl, -⟩ := missing_of_singleStep single missing
    have hedit : Value.EditedAt loc doc d := Or.inr ⟨v, v', hv, Value.writeChild_kind hw, hput⟩
    have hbefore := h.persists (hedit.persists (.refl loc) hv)
    have hv' := Value.pointer?_put? hput
    have hs := Value.step?_writeChild hw
    have inner := (fresh_of_fresh hc).isContainer
    have hpick := hbefore.append hv' (.pick (f := .child name) rfl nofun hs inner (.done c))
    exact ⟨hpick, c, Value.pointer?_snoc_of_step? hv' hs⟩

/-- What a round queues is where the fragments have led. -/
theorem advance_tracks [Libraries] {queued : List Level} (hsplit : before ++ f :: next :: more = x)
    (hfilter : f.isFilter = false)
    (hreach : Reaches (Level.way ⟨before, f :: next :: more, expanded, [loc]⟩) doc loc)
    (hf : f.moves ∨ loc = []) (hd : doc.WellFormed) (hv : doc.pointer? loc = some v)
    (h : advance a ⟨before, f :: next :: more, expanded, [loc]⟩ f next more doc loc =
      .ok (d, queued)) : ∀ l ∈ queued, l.Tracks x d := by
  have onward : ∀ {d : Value} {locs : List Location},
      (∀ m ∈ locs, Reaches (before ++ [f]) d m ∧ ∃ c, d.pointer? m = some c) →
      ∀ l ∈ [(⟨before ++ [f], next :: more, false, locs⟩ : Level)], l.Tracks x d := by
    intro d locs hlocs l hl
    obtain rfl := List.mem_singleton.mp hl
    refine ⟨by simpa using hsplit, fun m hm => ?_⟩
    obtain ⟨hm, c, hc⟩ := hlocs m hm
    exact reaches_way hm hc
  have here (h : Reaches (before ++ [f]) doc loc) :
      ∀ m ∈ [loc], Reaches (before ++ [f]) doc m ∧ ∃ c, doc.pointer? m = some c := by
    intro m hm
    obtain rfl := List.mem_singleton.mp hm
    exact ⟨h, v, hv⟩
  have stays (hf : ¬f.moves) : Reaches (before ++ [f]) doc loc := by
    rw [way_of_ne_descent (by rintro rfl; exact hf rfl)] at hreach
    have hstay := hreach.append hv (.stay hf (.done v))
    rwa [List.append_nil] at hstay
  have hn := (Value.formed_iff.mp (Value.formed_pointer? hd hv)).2.1
  cases onward_of_advance h with
  | root fragment =>
    obtain rfl := hf.resolve_left (fragment ▸ nofun)
    exact onward (here (stays (fragment ▸ nofun)))
  | here hnot => exact onward (here (stays hnot))
  | descended fragment =>
    subst fragment
    exact onward (here hreach)
  | descends fragment =>
    subst fragment
    rw [descend, hv]
    refine List.forall_mem_cons.mpr ⟨⟨hsplit, fun m hm => ?_⟩,
      List.forall_mem_singleton.mpr ⟨hsplit, fun m hm => ?_⟩⟩
    · obtain ⟨s, hs, rfl⟩ := List.mem_map.mp hm
      obtain ⟨e, he, rfl⟩ := List.mem_map.mp hs
      obtain ⟨he, inner⟩ := List.mem_filter.mp he
      have hstep := Value.step?_of_mem_entries hn he
      exact hreach.descend hv (List.mem_map_of_mem (f := (·.1)) he) hstep inner
    · obtain rfl := List.mem_singleton.mp hm
      exact hreach
  | single _ direct followed =>
    rw [way_of_ne_descent direct] at hreach
    exact onward (follow_reaches hreach followed)
  | gone missing => cases hv.symm.trans missing
  | children _ direct there =>
    obtain rfl := Option.some.inj (hv.symm.trans there)
    rw [way_of_ne_descent direct] at hreach
    refine onward fun m hm => ?_
    obtain ⟨s, hs, rfl⟩ := List.mem_map.mp hm
    obtain ⟨⟨s, c⟩, he, rfl⟩ := List.mem_map.mp hs
    obtain ⟨he, inner⟩ := List.mem_filter.mp he
    obtain ⟨⟨haims, hstep⟩, hlisted⟩ := (mem_chosen_iff hfilter hn doc).mp he
    have hpick := Reaches.append hreach hv (.pick haims hlisted hstep inner (.done c))
    exact ⟨hpick, c, Value.pointer?_snoc_of_step? hv hstep⟩

/-- Every location that waits is where the fragments before its own have led. -/
def State.Tracks (x : Path) (s : State) : Prop := ∀ l ∈ s.levels, l.Tracks x s.doc

theorem State.Tracks.step [Libraries] (h : s.Tracks x) (ho : s.Orderly) (hd : s.doc.WellFormed)
    (hfilter : ∀ f ∈ x, f.isFilter = false) (hs : s.step a one = .inr t) : t.Tracks x := by
  have hpersists := (ho.step hs).2
  -- a level whose locations still wait
  have kept : ∀ l ∈ t.levels, l.Tracks x s.doc → (∀ loc ∈ l.waiting, loc ∈ s.waiting) →
      l.Tracks x t.doc := by
    intro l hl htracks hwaits
    refine htracks.persists fun loc hloc => ?_
    have hmem : loc ∈ t.waiting := List.mem_flatMap.mpr ⟨l, hl, hloc⟩
    exact hpersists (List.ne_nil_of_mem hmem) loc (hwaits loc hloc)
  have left {before rest : List Fragment} {expanded : Bool} {loc : Location}
      {locs : List Location} {levels : List Level}
      (top : s.levels = ⟨before, rest, expanded, loc :: locs⟩ :: levels) :
      ∀ l ∈ ⟨before, rest, expanded, locs⟩ :: levels, l ∈ t.levels → l.Tracks x t.doc := by
    have waits {l : Level} (hl : l ∈ s.levels) : ∀ m ∈ l.waiting, m ∈ s.waiting :=
      fun m hm => List.mem_flatMap.mpr ⟨l, hl, hm⟩
    rw [State.Tracks, top] at h
    rw [top] at waits
    intro l hl hmem
    rcases List.mem_cons.mp hl with rfl | hl
    · have htop := h _ List.mem_cons_self
      refine kept _ hmem ⟨htop.split, fun m hm => ?_⟩ fun m hm => ?_
      · exact htop.reached m (List.mem_cons_of_mem loc hm)
      · exact waits List.mem_cons_self m (List.mem_cons_of_mem loc hm)
    · exact kept l hmem (h l (List.mem_cons_of_mem _ hl)) (waits (List.mem_cons_of_mem _ hl))
  cases State.turns_of_step hs with
  | usedUp top => exact fun l hl => h l (top ▸ List.mem_cons_of_mem _ hl)
  | idle top | last top => exact fun l hl => left top l hl hl
  | @onward before more f next expanded loc locs levels queued d top hadvance =>
    have htop := h _ (top ▸ List.mem_cons_self)
    obtain ⟨v, hv⟩ := ho.there loc (by simp [State.waiting, top])
    have hmem : f ∈ x := by
      rw [← htop.split]
      exact List.mem_append_right before List.mem_cons_self
    intro l hl
    rcases List.mem_append.mp hl with hqueued | hleft
    · exact advance_tracks htop.split (hfilter f hmem)
        (htop.reached loc List.mem_cons_self) (ho.moves_or_nil top) hd hv hadvance l hqueued
    · exact left top l hleft hl

/-- At every time of a set, what waits is where its fragments have led. -/
theorem tracks_of_leads [Libraries] (hx : x.Anchored) (hfilter : ∀ f ∈ x, f.isFilter = false)
    (hw : w.WellFormed) (hd : doc.WellFormed)
    (hs : State.Leads (.set w) one ⟨doc, [], [⟨[], x, false, [[]]⟩]⟩ s) : s.Tracks x := by
  induction hs with
  | refl =>
    intro l hl
    obtain rfl := List.mem_singleton.mp hl
    refine ⟨rfl, fun m hm => ?_⟩
    obtain rfl := List.mem_singleton.mp hm
    exact reaches_way (.done doc) rfl
  | tail hst hstep ih =>
    have hwithin := within_of_leads (a := .set w) (fun _ _ => rfl) hw hst ⟨hd, nofun⟩
    exact ih.step (orderly_of_leads hx hst) hwithin.value hfilter hstep

theorem Obstacle.names [Libraries] {bytes : List UInt8} (h : Obstacle a p v e)
    (hx : Path.parseBytes bytes = .ok x) (hfilter : ∀ f ∈ x, f.isFilter = false)
    (hbegin : p.before ++ [p.fragment] <+: x) (hd : d.WellFormed) (hv : d.pointer? loc = some v)
    (hreach : p.fragment ≠ .descent → Reaches p.before d loc) : e.Names x d := by
  have hread : Path.parse p.text = .ok (p.before ++ [p.fragment]) :=
    Path.parse_text_of_beginning hx hfilter hbegin
  have hbefore : Path.Anchored p.before :=
    (Path.anchored_of_parseBytes hx).beginning ((List.prefix_append _ _).trans hbegin)
  cases h with
  | @short i _ hf ho hmissing =>
    rw [hf] at hbegin hread hreach
    rw [Value.extent, if_pos ho] at hmissing
    have hfinds := (hreach (by rintro ⟨⟩)).finds hbefore hd hv
    exact ⟨p.before, i, hbegin, hread, v, hfinds, ho, hmissing⟩
  | @scalar q c _ single hq outer =>
    have haims := aims_of_singleStep single
    have hreach := hreach fun hf => by rw [hf] at haims; exact haims
    have hlisted : p.fragment = .wildcard → q ∈ v.steps := by
      intro hf
      simp only [singleStep, hf] at single
      cases single
    exact ⟨_, hbegin, hread, c, hreach.mem_get hbefore hd hv haims hlisted hq, outer, rfl⟩
  | @shape name _ hf hkeyed hmissing | @length name _ hf hkeyed hmissing =>
    rw [hf] at hbegin hread hreach
    have hfinds := (hreach (by rintro ⟨⟩)).finds hbefore hd hv
    exact ⟨p.before, name, hbegin, hread, v, hfinds, hkeyed, hmissing⟩
  | refused => trivial

/-- The round with which a set fails leaves the obstacle where its path leads. -/
theorem State.Tracks.names [Libraries] {bytes : List UInt8} {o : Outcome} (h : s.Tracks x)
    (hd : s.doc.WellFormed) (hx : Path.parseBytes bytes = .ok x)
    (hfilter : ∀ f ∈ x, f.isFilter = false) (hs : s.step (.set w) one = .inl o)
    (he : o.error = some e) : e.Names x o.doc := by
  -- the fragment at fault ends the path of the error
  have named {before rest : List Fragment} {f : Fragment} {expanded : Bool} {loc : Location}
      {locs : List Location} {levels : List Level} {v : Value}
      (top : s.levels = ⟨before, f :: rest, expanded, loc :: locs⟩ :: levels)
      (hv : s.doc.pointer? loc = some v) (hobstacle : Obstacle (.set w) ⟨before, f⟩ v e) :
      e.Names x s.doc := by
    have htop := h _ (top ▸ List.mem_cons_self)
    refine hobstacle.names hx hfilter ⟨rest, by simpa using htop.split⟩ hd hv fun hf => ?_
    have hreach := htop.reached loc List.mem_cons_self
    rwa [way_of_ne_descent hf] at hreach
  cases State.fails_of_step hs he with
  | last top error hdoc =>
    obtain ⟨v, hv, -, ⟨hobstacle, hsame⟩ | ⟨steps, -, hacted⟩⟩ := apply_obstacle error
    · rw [hdoc, hsame]
      exact named top hv hobstacle
    · obtain ⟨-, -, -, cause, -, -, rfl⟩ := tries_of_actOn hacted
      trivial
  | onward top error hdoc =>
    obtain ⟨v, hv, -, hobstacle⟩ := advance_obstacle error
    rw [hdoc]
    exact named top hv hobstacle

end Update
end DocPath

namespace DocPath.Path

open Update (State)

/-- A set by a path that has been read and has no filters. If it fails, the path that the error
names begins the path of the set, and in the document that the set leaves behind it shows what
was in the way. Where the value written is plain JSON, sequences are arrays and keyed containers
are objects. -/
theorem set_error_names [Libraries] {bytes : List UInt8} {x : Path}
    (hx : Path.parseBytes bytes = .ok x)
    (hfilter : ∀ f ∈ x, f.isFilter = false) {doc w : Value} (hdoc : doc.Plain)
    (hw : w.WellFormed) (one : Bool) :
    let o := x.update (.set w) one doc
    (∀ e, o.error = some e → e.Names x o.doc) ∧
      (w.Plain → ∀ (q : Path) v, q.Finds o.doc v →
        (v.isOrdered → ∃ items, v = .array items) ∧ (v.isKeyed → ∃ ms, v = .object ms)) := by
  intro o
  suffices h : (∀ e, o.error = some e → e.Names x o.doc) ∧ (w.Plain → o.doc.Plain) by
    refine ⟨h.1, fun hplain q v hfinds => ?_⟩
    have hv := hfinds.plain (h.2 hplain)
    exact ⟨hv.exists_array, hv.exists_object⟩
  have hanchored := anchored_of_parseBytes hx
  cases hlast : x.getLast? with
  | none =>
    simp only [o, update, hlast]
    refine ⟨fun e he => ?_, fun _ => hdoc⟩
    cases he
    trivial
  | some last =>
    by_cases hallows : (Action.set w).allows last
    · obtain ⟨s, hleads, hend⟩ := ends_of_anchored (a := .set w) (fun _ _ => rfl) hanchored hlast
        hallows hw one hdoc.wellFormed
      have hwithin := Update.within_of_leads (a := .set w) (fun _ _ => rfl) hw hleads
        ⟨hdoc.wellFormed, List.forall_mem_nil _⟩
      have htracks := Update.tracks_of_leads hanchored hfilter hw hdoc.wellFormed hleads
      refine ⟨fun e he => htracks.names hwithin.value hx hfilter hend he, fun hplain => ?_⟩
      have hkinds := Update.within_of_leads (a := .set w) (fun _ => id) hplain hleads
        ⟨hdoc, List.forall_mem_nil _⟩
      exact hkinds.outcome (a := .set w) (fun _ => id) hplain hend
    · simp only [o, update, hlast, hallows]
      refine ⟨fun e he => ?_, fun _ => hdoc⟩
      cases he
      trivial

/-- In `{"a":{},"c":{"b":7}}` the set creates `a.b.k` before it comes to the `7` in its way. -/
theorem set_error_names_of_scalar :
    let x : Path := [.descent, .child "b", .child "k"]
    let doc : Value := .object [("a", .object []), ("c", .object [("b", .int 7)])]
    let left : Value := .object
      [("a", .object [("b", .object [("k", .int 1)])]), ("c", .object [("b", .int 7)])]
    Path.parse "..b.k" = .ok x ∧ (∀ f ∈ x, f.isFilter = false) ∧ doc.Plain ∧
      (Value.int 1).WellFormed ∧ x.set (.int 1) doc = ⟨left, [], some (.blocked "int" "..b")⟩ ∧
        (UpdateError.blocked "int" "..b").Names x left := by
  intro x doc left
  have hx : Path.parse "..b.k" = .ok x := rfl
  have hfilter : ∀ f ∈ x, f.isFilter = false := by decide
  have hd : doc.Plain := by decide
  have hw : (Value.int 1).WellFormed := by decide
  have hset : x.set (.int 1) doc = ⟨left, [], some (.blocked "int" "..b")⟩ :=
    State.run_of_rounds (g := id) (n := 30) rfl
  have hnames := (set_error_names hx hfilter hd hw false).1 (.blocked "int" "..b")
  change (x.set (.int 1) doc).error = _ → UpdateError.Names x (x.set (.int 1) doc).doc _ at hnames
  rw [hset] at hnames
  exact ⟨hx, hfilter, hd, hw, hset, hnames rfl⟩

/-- The path before the index in `[5]` is empty, and as a query it selects nothing. -/
theorem set_error_at_document :
    let doc : Value := .array []
    let o := Path.set [.nth 5] (.int 1) doc
    Path.parse "[5]" = .ok [.nth 5] ∧ doc.Plain ∧ o.error = some (.outOfBounds "[5]") ∧
      ∀ p, Path.parse "[5]" = .ok p → Path.get p.dropLast o.doc = [] := by
  intro doc o
  have hp : Path.parse "[5]" = .ok [.nth 5] := rfl
  have herror : o.error = some (.outOfBounds "[5]") :=
    State.run_of_rounds (g := Update.Outcome.error) (n := 3) (by decide +kernel)
  refine ⟨hp, by decide, herror, fun p h => ?_⟩
  cases hp.symm.trans h
  change Path.get [] o.doc = []
  rw [← nodes_values, nodes, List.map_nil]

end DocPath.Path
