import DocPath.Builtin
import DocPath.Proofs.Update.Failing
import DocPath.Proofs.Update.Termination
import DocPath.Proofs.Update.Waiting
import DocPath.Proofs.Value.Taking

/-!
# What an update can fail with

A container that refuses a write would stop an update half-way. In plain JSON none does: the
steps to be written are computed from the container they are written in, and no write takes one
of them away. Values that an update has written itself may be of other kinds. It meets them
again only below a descent, since each place lies as deep as the path has fragments that lead
down.
-/

namespace DocPath

def Action.mayFail (a : Action) : UpdateError → Bool
  | .emptyPath _ | .illegalEnd _ _ => true
  | .outOfBounds _ => a.isStrict
  | .blocked _ _ | .unknownShape _ | .negativeLength _ => a.isSet
  | .refused _ _ _ => false

theorem Kind.yielding_of_accepting {k : Kind} (h : k.accepting) : k.yielding := by
  cases k with
  | slots refused =>
    obtain rfl := List.isEmpty_iff.mp h
    rfl
  | _ => rfl

namespace Update

open Value (Takes OpenTo)

variable {a : Action} {one : Bool} {p : Place} {doc v : Value} {loc : Location} {s t : State}
  {before rest : List Fragment} {f next : Fragment} {steps : List Step} {e : UpdateError}

theorem takes_nth (hk : v.kind.accepting) (ho : v.isOrdered) {i : Int64} {n : Nat}
    (hn : normalizeIndex i (v.containerLen?.getD 0) = some n) : v.Takes (.index n) := by
  refine Value.takes_index hk ho ?_
  have hlt := lt_of_normalizeIndex hn
  cases v with
  | array items | slots refused items => exact hlt
  | _ => cases ho

theorem takes_chosen [Libraries] (hk : v.kind.accepting) {q : Step}
    (h : q ∈ (chosen f doc v).map (·.1)) : v.Takes q := by
  obtain ⟨e, he, rfl⟩ := List.mem_map.mp h
  obtain ⟨c, hc⟩ := exists_step?_of_mem_chosen he
  exact Value.takes_of_step? hk hc

theorem takes_singleStep (hk : v.kind.accepting) {q : Step}
    (h : singleStep a p v = .ok (some q)) : v.Takes q := by
  obtain ⟨before, f⟩ := p
  cases f with
  | child name =>
    simp only [singleStep] at h
    split at h
    · cases h
      exact Value.takes_key hk ‹_› name
    · cases h
  | nth i =>
    simp only [singleStep] at h
    split at h
    · split at h
      · cases h
        exact takes_nth hk ‹_› ‹_›
      · split at h <;> cases h
    · cases h
  | _ => cases h

/-- The steps on which the last fragment acts are places that take every value. -/
theorem takes_targets [Libraries] (hk : v.kind.accepting) (h : targets a p doc v = .ok steps) :
    ∀ q ∈ steps, v.Takes q := by
  obtain ⟨before, f⟩ := p
  have ofChosen : ∀ q ∈ (chosen f doc v).map (·.1), v.Takes q := fun q hq => takes_chosen hk hq
  cases f with
  | child name =>
    simp only [targets] at h
    split at h
    · cases h
      intro q hq
      split at hq
      · obtain rfl := List.mem_singleton.mp hq
        exact Value.takes_key hk ‹_› name
      · cases hq
    · cases h
      exact ofChosen
  | nth i =>
    simp only [targets, bind, Except.bind] at h
    split at h
    · cases h
    · cases h
      intro q hq
      exact takes_singleStep hk (by rw [‹singleStep _ _ _ = _›, Option.mem_toList.mp hq])
  | union keys =>
    simp only [targets] at h
    split at h
    · cases h
      intro q hq
      obtain ⟨k, -, hk'⟩ := List.mem_filterMap.mp hq
      cases k with
      | key name =>
        dsimp only at hk'
        split at hk'
        · cases hk'
          exact Value.takes_key hk ‹_› name
        · cases hk'
      | index i =>
        dsimp only at hk'
        split at hk'
        · obtain ⟨n, hn, rfl⟩ := Option.map_eq_some_iff.mp hk'
          exact takes_nth hk ‹_› hn
        · cases hk'
    · cases h
      exact ofChosen
  | _ =>
    cases h
    exact ofChosen

/-- An action that does not set names only children that are there. -/
theorem exists_step?_of_mem_targets [Libraries] (ha : a.isSet = false)
    (h : targets a p doc v = .ok steps) :
    ∀ q ∈ steps, ∃ c, v.step? q = some c := by
  obtain ⟨before, f⟩ := p
  have ofChosen : ∀ q ∈ (chosen f doc v).map (·.1), ∃ c, v.step? q = some c := by
    intro q hq
    obtain ⟨e, he, rfl⟩ := List.mem_map.mp hq
    exact exists_step?_of_mem_chosen he
  cases f with
  | child name | union keys =>
    simp only [targets, ha, Bool.false_eq_true, if_false] at h
    cases h
    exact ofChosen
  | nth i =>
    simp only [targets, singleStep, bind, Except.bind] at h
    split at h
    · cases h
    · rename_i found hfound
      cases h
      intro q hq
      obtain rfl := Option.mem_toList.mp hq
      split at hfound
      · rename_i ho
        split at hfound
        · rename_i n hn
          cases hfound
          cases v with
          | array items | slots refused items =>
            exact ⟨_, List.getElem?_eq_getElem (lt_of_normalizeIndex hn)⟩
          | _ => cases ho
        · split at hfound <;> cases hfound
      · cases hfound
  | _ =>
    cases h
    exact ofChosen

theorem writeAll_succeeds {w : Value} (steps : List Step) (c : Changed)
    (hk : c.value.kind.accepting) (h : ∀ q ∈ steps, c.value.Takes q) :
    (writeAll p one w steps c).2 = none := by
  induction steps generalizing c with
  | nil => rfl
  | cons q steps ih =>
    obtain ⟨v, hv⟩ := h q List.mem_cons_self w
    simp only [writeAll, hv]
    split
    · rfl
    · have hkind := Value.writeChild_kind hv
      refine ih { c with value := v, changed := true } (hkind ▸ hk) fun r hr => ?_
      exact (h r (List.mem_cons_of_mem q hr)).writeChild hk hv

theorem rewriteAll_succeeds {rewrite : List Value → Value → Option Value} (steps : List Step)
    (c : Changed) (hk : c.value.kind.accepting) :
    (rewriteAll p one rewrite steps c).2 = none := by
  induction steps generalizing c with
  | nil => rfl
  | cons q steps ih =>
    simp only [rewriteAll]
    cases hq : c.value.step? q with
    | none => exact ih c hk
    | some old =>
      dsimp only
      cases rewrite c.seen.reverse old with
      | none => exact ih { c with seen := old :: c.seen } hk
      | some w =>
        obtain ⟨v, hv⟩ := Value.takes_of_step? hk hq w
        simp only [hv]
        split
        · rfl
        · exact ih ⟨v, true, old :: c.seen⟩ (Value.writeChild_kind hv ▸ hk)

/-- In a container that takes every value, all that the last fragment asks for is done. -/
theorem actOn_succeeds (steps : List Step) (c : Changed) (hk : c.value.kind.accepting)
    (h : ∀ q ∈ steps, c.value.Takes q) : (actOn a one p steps c).2 = none := by
  cases a with
  | set w => exact writeAll_succeeds steps c hk h
  | delete | remove =>
    simp only [actOn]
    cases hstops : c.value.removeChildren (if one then steps.take 1 else steps) with
    | mk r stop =>
      cases stop with
      | none => rfl
      | some cause =>
        have stuck := withholds_of_removeChildren hstops
        exact absurd (Kind.yielding_of_accepting hk) stuck.not_yielding
  | modify rewrite => exact rewriteAll_succeeds steps c hk

theorem mayFail_of_obstacle (hk : v.kind.accepting) (h : Obstacle a p v e) : a.mayFail e := by
  cases h with
  | short strict => exact strict
  | scalar sets | shape sets | length sets => exact sets
  | @refused q c cause sets single write =>
    obtain ⟨v', hv'⟩ := takes_singleStep hk single c
    cases write.symm.trans hv'

/-- The container at a location that is about to be taken takes every value. -/
def State.Accepting (s : State) : Prop :=
  ∀ before f rest expanded loc locs levels v,
    s.levels = ⟨before, f :: rest, expanded, loc :: locs⟩ :: levels → f.moves →
      s.doc.pointer? loc = some v → v.kind.accepting

theorem State.Accepting.error [Libraries] {o : Outcome} (hs : s.Accepting)
    (h : s.step a one = .inl o) (he : o.error = some e) : a.mayFail e := by
  cases State.fails_of_step h he with
  | @last before f expanded loc locs levels top error =>
    obtain ⟨v, hv, hmoves, hcase⟩ := apply_obstacle error
    have hk := hs before f [] expanded loc locs levels v top hmoves hv
    rcases hcase with ⟨hobstacle, -⟩ | ⟨steps, htargets, hacted⟩
    · exact mayFail_of_obstacle hk hobstacle
    · rw [actOn_succeeds steps _ hk (takes_targets hk htargets)] at hacted
      cases hacted
  | @onward before more f next expanded loc locs levels top error =>
    obtain ⟨v, hv, hmoves, hobstacle⟩ := advance_obstacle error
    have hk := hs before f (next :: more) expanded loc locs levels v top hmoves hv
    exact mayFail_of_obstacle hk hobstacle

theorem State.Within.accepting (h : s.Within Kind.accepting) : s.Accepting :=
  fun _ _ _ _ _ _ _ _ _ _ hv => (Value.formed_iff.mp (Value.formed_pointer? h.value hv)).1

/-- Without descents, what waits lies so deep that its way down ends at one depth, above which
all containers take every value. -/
structure State.Above (n : Nat) (s : State) : Prop where
  direct : ∀ l ∈ s.levels, .descent ∉ l.rest
  depth : ∀ l ∈ s.levels, ∀ loc ∈ l.waiting, loc.length + l.rest.countP Fragment.moves = n
  openTo : s.doc.OpenTo n

variable {n : Nat}

theorem State.Above.accepting (h : s.Above n) : s.Accepting := by
  intro before f rest expanded loc locs levels v htop hf hv
  have hdepth := h.depth _ (htop ▸ List.mem_cons_self) loc List.mem_cons_self
  have hopen := h.openTo.pointer? hv
  rw [List.countP_cons_of_pos hf] at hdepth
  obtain ⟨k, hk⟩ : ∃ k, n - loc.length = k + 1 := ⟨rest.countP Fragment.moves, by omega⟩
  rw [hk] at hopen
  exact hopen.1

theorem openTo_of_edited {d : Value} (h : Value.EditedAt loc doc d) (hd : doc.OpenTo n)
    (hn : n = loc.length + 1) : d.OpenTo n := by
  rcases h with rfl | ⟨v, w, hv, hk, hput⟩
  · exact hd
  · have hopen := hd.pointer? hv
    refine hd.put? ?_ hput
    rw [hn, Nat.add_sub_cancel_left] at hopen ⊢
    exact ⟨hk ▸ hopen.1, fun _ _ => trivial⟩

theorem follow_above {d : Value} {reached : Option Location} {k : Nat} (hd : doc.OpenTo n)
    (hn : n = loc.length + (k + 1)) (h : follow a p next doc loc = .ok (d, reached)) :
    d.OpenTo n ∧ ∀ l ∈ reached.toList, l.length + k = n := by
  have below : ∀ q : Step, ∀ l ∈ (some (loc ++ [q])).toList, l.length + k = n := by
    intro q l hl
    obtain rfl := List.mem_singleton.mp hl
    rw [List.length_append, List.length_singleton, hn]
    omega
  cases follows_of_follow h with
  | nowhere => exact ⟨hd, nofun⟩
  | child => exact ⟨hd, below _⟩
  | created hv _ _ hc hw hput =>
    have hopen := hd.pointer? hv
    have hfresh := Value.openTo_of_formed
      (formed_fresh (fun _ => Kind.accepting_of_isJson) hc) k
    refine ⟨hd.put? ?_ hput, below _⟩
    rw [hn, Nat.add_sub_cancel_left] at hopen ⊢
    exact hopen.writeChild hfresh hw

theorem advance_above [Libraries] {d : Value} {expanded : Bool} {queued : List Level}
    (hd : doc.OpenTo n) (hf : f.moves ∨ loc = []) (hdescent : f ≠ .descent)
    (hn : n = loc.length + (f :: next :: rest).countP Fragment.moves)
    (h : advance a ⟨before, f :: next :: rest, expanded, [loc]⟩ f next rest doc loc =
      .ok (d, queued)) :
    d.OpenTo n ∧ ∀ l ∈ queued, l.rest = next :: rest ∧
      ∀ m ∈ l.waiting, m.length + (next :: rest).countP Fragment.moves = n := by
  have onward : ∀ {d : Value} {locs : List Location}, d.OpenTo n →
      (∀ m ∈ locs, m.length + (next :: rest).countP Fragment.moves = n) →
      d.OpenTo n ∧ ∀ l ∈ [(⟨before ++ [f], next :: rest, false, locs⟩ : Level)],
        l.rest = next :: rest ∧
          ∀ m ∈ l.waiting, m.length + (next :: rest).countP Fragment.moves = n := by
    intro d locs hd hlocs
    refine ⟨hd, fun l hl => ?_⟩
    obtain rfl := List.mem_singleton.mp hl
    exact ⟨rfl, hlocs⟩
  have stays : ¬f.moves → ∀ m ∈ [loc], m.length + (next :: rest).countP Fragment.moves = n := by
    intro hnot m hm
    obtain rfl := List.mem_singleton.mp hm
    rw [hn, List.countP_cons_of_neg hnot]
  have goes : f.moves → n = loc.length + ((next :: rest).countP Fragment.moves + 1) := by
    intro hmoves
    rw [hn, List.countP_cons_of_pos hmoves]
  cases onward_of_advance h with
  | root fragment =>
    subst fragment
    obtain rfl := hf.resolve_left nofun
    exact onward hd (stays nofun)
  | here hnot => exact onward hd (stays hnot)
  | descends fragment | descended fragment => exact absurd fragment hdescent
  | single moves _ followed =>
    obtain ⟨hopen, hreached⟩ := follow_above hd (goes moves) followed
    exact onward hopen hreached
  | gone => exact ⟨hd, List.forall_mem_nil _⟩
  | children moves =>
    refine onward hd fun m hm => ?_
    obtain ⟨q, -, rfl⟩ := List.mem_map.mp hm
    rw [List.length_append, List.length_singleton, goes moves]
    omega

theorem State.Above.step [Libraries] (h : s.Above n) (ho : s.Orderly) (hs : s.step a one = .inr t) :
    t.Above n := by
  -- the levels that stay hold what they held, but for the location that is taken
  have left {before rest : List Fragment} {expanded : Bool} {loc : Location}
      {locs : List Location} {levels : List Level}
      (top : s.levels = ⟨before, rest, expanded, loc :: locs⟩ :: levels) :
      ∀ l ∈ (⟨before, rest, expanded, locs⟩ : Level) :: levels, .descent ∉ l.rest ∧
        ∀ m ∈ l.waiting, m.length + l.rest.countP Fragment.moves = n := by
    have hlevels : ∀ l ∈ s.levels, .descent ∉ l.rest ∧
        ∀ m ∈ l.waiting, m.length + l.rest.countP Fragment.moves = n :=
      fun l hl => ⟨h.direct l hl, h.depth l hl⟩
    rw [top] at hlevels
    obtain ⟨⟨hdirect, hdepth⟩, hmore⟩ := List.forall_mem_cons.mp hlevels
    exact List.forall_mem_cons.mpr
      ⟨⟨hdirect, fun m hm => hdepth m (List.mem_cons_of_mem loc hm)⟩, hmore⟩
  cases State.turns_of_step hs with
  | usedUp top =>
    exact ⟨fun l hl => h.direct l (top ▸ List.mem_cons_of_mem _ hl),
      fun l hl => h.depth l (top ▸ List.mem_cons_of_mem _ hl), h.openTo⟩
  | idle top => exact ⟨fun l hl => (left top l hl).1, fun l hl => (left top l hl).2, h.openTo⟩
  | @last before f expanded loc locs levels top =>
    refine ⟨fun l hl => (left top l hl).1, fun l hl => (left top l hl).2, ?_⟩
    have here := h.depth _ (top ▸ List.mem_cons_self) loc List.mem_cons_self
    by_cases hmoves : f.moves
    · rw [List.countP_cons_of_pos hmoves] at here
      exact openTo_of_edited (apply_edits hmoves s.seen) h.openTo here.symm
    · obtain rfl := (ho.moves_or_nil top).resolve_left hmoves
      rw [List.countP_cons_of_neg hmoves] at here
      exact here ▸ trivial
  | @onward before more f next expanded loc locs levels queued d top hadvance =>
    have here := h.depth _ (top ▸ List.mem_cons_self) loc List.mem_cons_self
    have hdirect := h.direct _ (top ▸ List.mem_cons_self)
    have hdescent : f ≠ .descent := fun hf => hdirect (hf ▸ List.mem_cons_self)
    obtain ⟨hopen, hqueued⟩ :=
      advance_above h.openTo (ho.moves_or_nil top) hdescent here.symm hadvance
    refine ⟨fun l hl => ?_, fun l hl => ?_, hopen⟩
    · rcases List.mem_append.mp hl with hl | hl
      · rw [(hqueued l hl).1]
        exact fun hmem => hdirect (List.mem_cons_of_mem f hmem)
      · exact (left top l hl).1
    · rcases List.mem_append.mp hl with hl | hl
      · rw [(hqueued l hl).1]
        exact (hqueued l hl).2
      · exact (left top l hl).2

/-- Every state of the loop has an accepting container at hand, if all that is written is of
accepting kinds or no descent comes back to what has been written. -/
theorem accepting_of_leads [Libraries] {q : Path} (hq : q.Anchored) (hd : doc.Plain)
    (h : a.Keeps Kind.accepting ∨ .descent ∉ q)
    (hs : State.Leads a one ⟨doc, [], [⟨[], q, false, [[]]⟩]⟩ s) : s.Accepting := by
  have hopen : doc.formed Kind.accepting :=
    Value.formed_mono (fun _ => Kind.accepting_of_isJson) hd
  rcases h with ha | hdirect
  · exact (within_of_leads (fun _ => Kind.accepting_of_isJson) ha hs ⟨hopen, nofun⟩).accepting
  · have above : s.Above (q.countP Fragment.moves) := by
      induction hs with
      | refl =>
        refine ⟨fun l hl => ?_, fun l hl m hm => ?_, Value.openTo_of_formed hopen _⟩
        · exact List.mem_singleton.mp hl ▸ hdirect
        · obtain rfl := List.mem_singleton.mp hl
          obtain rfl := List.mem_singleton.mp hm
          exact Nat.zero_add _
      | tail hs hstep ih => exact ih.step (orderly_of_leads hq hs) hstep
    exact above.accepting

end Update
end DocPath

namespace DocPath.Path

open Update (State Level)

/-- An update by a path that has been read fails, in a plain document, only in the ways that its
action allows, and never because a write is refused. Whenever its last fragment has been turned
into steps from a container, these can be written to in any order and any number of times. This
holds for values of any kind as long as the path has no descents; with descents, for values in
which every container takes all values. -/
theorem update_not_refused [Libraries] {bytes : List UInt8} {p : Path}
    (hp : Path.parseBytes bytes = .ok p) (a : Action) (one : Bool) {doc : Value} (hd : doc.Plain)
    (h : a.Keeps Kind.accepting ∨ .descent ∉ p) :
    (∀ e, (p.update a one doc).error = some e → a.mayFail e) ∧
    ∀ s before f expanded loc locs levels v steps,
      State.Leads a one ⟨doc, [], [⟨[], p, false, [[]]⟩]⟩ s →
      s.levels = ⟨before, [f], expanded, loc :: locs⟩ :: levels →
      s.doc.pointer? loc = some v → Update.targets a ⟨before, f⟩ s.doc v = .ok steps →
        v.Writable steps ∧ (a.isSet = false → ∀ q ∈ steps, ∃ c, v.step? q = some c) := by
  have hanchored := anchored_of_parseBytes hp
  constructor
  · intro e he
    obtain ⟨res, hres⟩ : ∃ res, Update.visit a one [] p [] ⟨doc, []⟩ = some res := by
      rcases h with ha | hdirect
      · exact Update.visit_of_anchored (fun _ => Kind.accepting_of_isJson) ha hanchored
          (Value.formed_mono (fun _ => Kind.accepting_of_isJson) hd)
      · exact Update.visit_of_direct p hdirect [] [] ⟨doc, []⟩
    obtain ⟨s, hs, hlast⟩ := Update.ends_of_visit hres
    unfold update at he
    split at he
    · cases he
      rfl
    · split at he
      · rw [(Update.ends_of_visit hres).run_eq] at he
        exact (Update.accepting_of_leads hanchored hd h hs).error hlast he
      · cases he
        rfl
  · intro s before f expanded loc locs levels v steps hs htop hv htargets
    refine ⟨?_, fun ha => Update.exists_step?_of_mem_targets ha htargets⟩
    by_cases hf : f.moves
    · have hk := Update.accepting_of_leads hanchored hd h hs before f [] expanded loc locs levels v
        htop hf hv
      exact Value.writable_of_takes hk (Update.takes_targets hk htargets)
    · have none : steps = [] := by
        cases f with
        | root | current | bracket =>
          cases htargets
          rfl
        | _ => exact absurd rfl hf
      subst none
      exact fun _ _ => nofun

/-- In `{"a":[1],"b":{"a":[]}}` the descent comes to the array that has no place for the write. -/
theorem update_not_refused_of_short_array :
    let p : Path := [.root, .descent, .child "a", .nth 0]
    let doc : Value := .object [("a", .array [.int 1]), ("b", .object [("a", .array [])])]
    let a : Action := .set (.str "x")
    doc.Plain ∧ a.Keeps Kind.accepting ∧
      (p.update a false doc).error = some (.outOfBounds "$..a[0]") ∧
      a.mayFail (.outOfBounds "$..a[0]") := by
  intro p doc a
  have hp : Path.parseBytes (Text.Utf8.encode "$..a[0]".toList) = .ok p := rfl
  have hd : doc.Plain := by decide
  have ha : a.Keeps Kind.accepting := by
    change (Value.str "x").formed Kind.accepting
    decide
  have herror : (p.update a false doc).error = some (.outOfBounds "$..a[0]") :=
    State.run_of_rounds (g := Update.Outcome.error) (n := 30) (by decide +kernel)
  exact ⟨hd, ha, herror, (update_not_refused hp a false hd (Or.inl ha)).1 _ herror⟩

/-- In `{"x":{"y":{"b":1}}}` the first write replaces `1` by a record without fields. The second
descent comes down to it once more, and it has no `b`. In `{"x":{"y":[1]}}` it comes down to a
sequence that refuses sequences of its own type. -/
theorem update_refused_of_record :
    let p : Path := [.root, .descent, .wildcard, .descent, .child "b"]
    let doc : Value := .object [("x", .object [("y", .object [("b", .int 1)])])]
    let w : Value := .keyed .record []
    let q : Path := [.root, .descent, .wildcard, .descent, .nth 0]
    let doc' : Value := .object [("x", .object [("y", .array [.int 1])])]
    let w' : Value := .slots [.slots] [.int 1]
    Path.parse "$..*..b" = .ok p ∧ doc.Plain ∧ w.WellFormed ∧
      (p.set w doc).error = some (.refused "set" "$..*..b" ⟨"b", "keyed"⟩) ∧
      Path.parse "$..*..[0]" = .ok q ∧ doc'.Plain ∧ w'.WellFormed ∧
        (q.set w' doc').error = some (.refused "set" "$..*..[0]" ⟨"0", "indexed"⟩) := by
  intro p doc w q doc' w'
  have hp : Path.parse "$..*..b" = .ok p := rfl
  have hq : Path.parse "$..*..[0]" = .ok q := rfl
  have herror : (p.set w doc).error = some (.refused "set" "$..*..b" ⟨"b", "keyed"⟩) :=
    State.run_of_rounds (g := Update.Outcome.error) (n := 31) (by decide +kernel)
  have herror' : (q.set w' doc').error = some (.refused "set" "$..*..[0]" ⟨"0", "indexed"⟩) :=
    State.run_of_rounds (g := Update.Outcome.error) (n := 40) (by decide +kernel)
  exact ⟨hp, by decide, by decide, herror, hq, by decide, by decide, herror'⟩

end DocPath.Path
