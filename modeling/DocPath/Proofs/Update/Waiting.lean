import DocPath.Builtin
import DocPath.Proofs.Path.Anchored
import DocPath.Proofs.Query.Chosen
import DocPath.Proofs.Update.Effect
import DocPath.Proofs.Value.Standing

/-!
# Locations that wait

The stack of an update holds locations while the document changes. A round edits the node at
the location that it takes, and queues children of that node before the node itself. So of the
locations that wait, none lies below one that is taken before it. Hence no round gives another
meaning to a location that it leaves waiting: when its turn comes, it still leads to the node
for which it was queued. This is so in documents of every model, for every action.
-/

namespace DocPath

open Update (chosen containerSteps)

theorem Value.exists_step?_of_mem_entries {v : Value} {e : Step × Value} (h : e ∈ v.entries) :
    ∃ c, v.step? e.1 = some c := by
  cases v with
  | array items | slots refused items =>
    obtain ⟨p, hp, rfl⟩ := List.mem_map.mp h
    exact ⟨p.1, List.mem_zipIdx_iff_getElem?.mp hp⟩
  | object ms =>
    obtain ⟨m, hm, rfl⟩ := List.mem_map.mp h
    exact Option.isSome_iff_exists.mp
      (Members.lookup_isSome_iff.mpr (List.mem_map_of_mem (f := (·.1)) hm))
  | keyed kind ms =>
    obtain ⟨m, hm, rfl⟩ := List.mem_map.mp h
    have hn := List.mem_map_of_mem (f := (·.1)) hm
    obtain ⟨c, hc⟩ := Option.isSome_iff_exists.mp (Members.lookup_isSome_iff.mpr hn)
    exact ⟨c, Value.step?_eq_some_iff.mpr (.field (kind.resolve?_of_mem hn) hc)⟩
  | _ => cases h

/-- Whatever the names, the step listed with a chosen child leads to a child. -/
theorem exists_step?_of_mem_chosen [Libraries] {f : Fragment} {doc v : Value} {e : Step × Value}
    (h : e ∈ chosen f doc v) : ∃ c, v.step? e.1 = some c := by
  cases f with
  | root | current | bracket | descent => cases h
  | child name => exact ⟨e.2, step?_of_memberAt? (Option.mem_toList.mp h)⟩
  | nth i => exact ⟨e.2, step?_of_elementAt? (Option.mem_toList.mp h)⟩
  | wildcard => exact Value.exists_step?_of_mem_entries h
  | slice s =>
    simp only [chosen] at h
    split at h
    · obtain ⟨i, -, hi⟩ := List.mem_filterMap.mp h
      obtain ⟨c, hc, rfl⟩ := Option.map_eq_some_iff.mp hi
      exact ⟨c, hc⟩
    · cases h
  | union keys =>
    obtain ⟨k, -, hk⟩ := List.mem_filterMap.mp h
    cases k with
    | key name => exact ⟨e.2, step?_of_memberAt? hk⟩
    | index i => exact ⟨e.2, step?_of_elementAt? hk⟩
  | filter template => exact Value.exists_step?_of_mem_entries (List.mem_of_mem_filter h)

namespace Update

open Value (Aside ChangedAt EditedAt Persists)

variable {a : Action} {one : Bool} {p : Place} {doc d v : Value} {loc : Location}
  {before rest more : List Fragment} {f next : Fragment} {expanded : Bool}

/-- To act on children keeps what each single write and each single removal keeps. -/
theorem actOn_induction {P : Value → Prop}
    (write : ∀ {v v' w : Value} {s : Step}, P v → v.writeChild s w = .ok v' → P v')
    (remove : ∀ v v', v.Removal v' → P v → P v') (steps : List Step) {c : Changed}
    (hc : P c.value) : P (actOn a one p steps c).1.value := by
  cases a with
  | set w =>
    simp only [actOn]
    induction steps generalizing c with
    | nil => exact hc
    | cons s steps ih =>
      simp only [writeAll]
      split
      · exact hc
      · have hv := write hc ‹_›
        split
        · exact hv
        · exact ih hv
  | delete | remove => exact Value.removeChildren_induction remove hc _
  | modify rewrite =>
    simp only [actOn]
    induction steps generalizing c with
    | nil => exact hc
    | cons s steps ih =>
      simp only [rewriteAll]
      split
      · exact ih hc
      · split
        · exact ih hc
        · split
          · exact hc
          · have hv := write hc ‹_›
            split
            · exact hv
            · exact ih hv

/-- To act on the children of a container leaves it of its kind. -/
theorem actOn_kind (steps : List Step) (c : Changed) :
    (actOn a one p steps c).1.value.kind = c.value.kind :=
  actOn_induction (P := fun v => v.kind = c.value.kind)
    (fun hv hw => (Value.writeChild_kind hw).trans hv)
    (fun _ _ h hv => h.kind.trans hv) steps rfl

theorem applyChildren_edits [Libraries] (seen : List Value) :
    EditedAt loc doc (applyChildren a one p doc loc seen).1.value := by
  unfold applyChildren actAt
  cases hv : doc.pointer? loc with
  | none => exact .refl loc doc
  | some v =>
    dsimp only
    cases targets a p doc v with
    | error e =>
      rw [Value.put?_pointer? hv]
      exact .refl loc doc
    | ok steps =>
      dsimp only
      generalize hact : actOn a one p steps ⟨v, false, seen⟩ = act
      have hk : act.1.value.kind = v.kind := by
        rw [← hact]
        exact actOn_kind steps ⟨v, false, seen⟩
      obtain ⟨d, hput⟩ := Value.exists_put? hv act.1.value
      rw [hput]
      exact Or.inr ⟨v, act.1.value, hv, hk, hput⟩

theorem apply_edits [Libraries] (hf : f.moves) (seen : List Value) :
    EditedAt loc doc (apply a one ⟨before, f⟩ doc loc seen).1.value := by
  rw [apply_of_moves hf]
  exact applyChildren_edits seen

/-- What comes of a location: its node is edited, and what is queued are children of the node
and then perhaps the node itself, all of them there, for fragments that go down. -/
structure Queues (loc : Location) (doc d : Value) (queued : List Level) : Prop where
  edited : EditedAt loc doc d
  moves : ∀ l ∈ queued, ∀ f ∈ l.rest, f.moves
  near : ∃ (steps : List Step) (stay : List Location), (stay = [] ∨ stay = [loc]) ∧
    queued.flatMap (·.waiting) = steps.map (fun s => loc ++ [s]) ++ stay
  there : ∀ l ∈ queued.flatMap (·.waiting), ∃ v, d.pointer? l = some v

theorem Queues.nothing (h : EditedAt loc doc d) : Queues loc doc d [] where
  edited := h
  moves := nofun
  near := ⟨[], [], Or.inl rfl, rfl⟩
  there := nofun

theorem Queues.here (hmoves : ∀ g ∈ rest, g.moves) (hv : doc.pointer? loc = some v) :
    Queues loc doc doc [⟨before, rest, expanded, [loc]⟩] where
  edited := .refl loc doc
  moves := by simpa using hmoves
  near := ⟨[], [loc], Or.inr rfl, rfl⟩
  there := by simp [hv]

theorem Queues.children (steps : List Step) (h : EditedAt loc doc d)
    (hmoves : ∀ g ∈ rest, g.moves) (hv : d.pointer? loc = some v)
    (hsteps : ∀ s ∈ steps, ∃ c, v.step? s = some c) :
    Queues loc doc d [⟨before, rest, expanded, steps.map fun s => loc ++ [s]⟩] where
  edited := h
  moves := by simpa using hmoves
  near := ⟨steps, [], Or.inl rfl, by simp⟩
  there := by
    intro l hl
    rw [List.flatMap_singleton] at hl
    obtain ⟨s, hs, rfl⟩ := List.mem_map.mp hl
    obtain ⟨c, hc⟩ := hsteps s hs
    exact ⟨c, Value.pointer?_snoc_of_step? hv hc⟩

theorem follow_queues (hmoves : ∀ g ∈ rest, g.moves) {reached : Option Location}
    (h : follow a p next doc loc = .ok (d, reached)) :
    Queues loc doc d [⟨before, rest, false, reached.toList⟩] := by
  cases follows_of_follow h with
  | nowhere => exact ⟨.refl loc doc, by simpa using hmoves, ⟨[], [], Or.inl rfl, rfl⟩, by simp⟩
  | @child v c s hv _ hs => exact .children [s] (.refl loc doc) hmoves hv (by simp [hs])
  | @created v c v' _ s hv _ _ _ hw hput =>
    exact .children [s] (Or.inr ⟨v, v', hv, Value.writeChild_kind hw, hput⟩) hmoves
      (Value.pointer?_put? hput) (by simp [Value.step?_writeChild hw])

theorem descend_queues (l : Level) (hmoves : ∀ g ∈ l.rest, g.moves)
    (hv : doc.pointer? loc = some v) : Queues loc doc doc (descend l doc loc) := by
  rw [descend, hv]
  refine ⟨.refl loc doc, by simpa using hmoves, ⟨containerSteps v, [loc], Or.inr rfl, by simp⟩,
    fun m hm => ?_⟩
  simp only [List.flatMap_cons, List.flatMap_nil, List.append_nil, List.mem_append, List.mem_map,
    List.mem_singleton] at hm
  rcases hm with ⟨s, hs, rfl⟩ | rfl
  · obtain ⟨e, he, rfl⟩ := List.mem_map.mp hs
    obtain ⟨c, hc⟩ := Value.exists_step?_of_mem_entries (List.mem_of_mem_filter he)
    exact ⟨c, Value.pointer?_snoc_of_step? hv hc⟩
  · exact ⟨v, hv⟩

/-- When fragments follow the first, its round queues what they are to go on from. -/
theorem advance_queues [Libraries] {queued : List Level} (hf : f.moves ∨ loc = [])
    (hmoves : ∀ g ∈ next :: more, g.moves) (hv : doc.pointer? loc = some v)
    (h : advance a ⟨before, f :: next :: more, expanded, [loc]⟩ f next more doc loc =
      .ok (d, queued)) : Queues loc doc d queued := by
  cases onward_of_advance h with
  | root fragment =>
    subst fragment
    obtain rfl := hf.resolve_left nofun
    exact .here hmoves hv
  | here | descended => exact .here hmoves hv
  | descends fragment =>
    subst fragment
    exact descend_queues _ (List.forall_mem_cons.mpr ⟨rfl, hmoves⟩) hv
  | single _ _ followed => exact follow_queues hmoves followed
  | gone missing => cases hv.symm.trans missing
  | children _ _ there =>
    refine .children _ (.refl loc doc) hmoves there fun s hs => ?_
    obtain ⟨e, he, rfl⟩ := List.mem_map.mp hs
    exact exists_step?_of_mem_chosen (List.mem_of_mem_filter he)

def State.waiting (s : State) : List Location := s.levels.flatMap (·.waiting)

/-- What holds of every state that a path which has been read comes to. A path that starts with
`$` or `@` is an exception only as long as nothing has been done. -/
structure State.Orderly (s : State) : Prop where
  apart : s.waiting.Pairwise Aside
  there : ∀ l ∈ s.waiting, ∃ v, s.doc.pointer? l = some v
  moves : ∀ l ∈ s.levels, l.waiting ≠ [] →
    (∀ f ∈ l.rest, f.moves) ∨ Path.Anchored l.rest ∧ s.waiting = [[]]

theorem orderly_start {p : Path} (hp : p.Anchored) (doc : Value) :
    State.Orderly ⟨doc, [], [⟨[], p, false, [[]]⟩]⟩ where
  apart := List.pairwise_singleton Aside []
  there := by
    intro l hl
    obtain rfl := List.mem_singleton.mp hl
    exact ⟨doc, rfl⟩
  moves := by
    intro l hl _
    obtain rfl := List.mem_singleton.mp hl
    exact Or.inr ⟨hp, rfl⟩

variable {s t : State} {locs : List Location} {levels : List Level}

/-- One round: what it does with the location that it takes. Only an action at the document
itself does more than a location queues, and then nothing else waits. -/
theorem State.Orderly.round [Libraries] (h : s.Orderly)
    (htop : s.levels = ⟨before, rest, expanded, loc :: locs⟩ :: levels)
    (hs : s.step a one = .inr t) :
    ∃ queued, t.levels = queued ++ ⟨before, rest, expanded, locs⟩ :: levels ∧
      (Queues loc s.doc t.doc queued ∨
        loc = [] ∧ queued = [] ∧ locs ++ levels.flatMap (·.waiting) = []) := by
  -- a fragment that stays at the document is the first of its path
  have only : ∀ {f : Fragment} {more : List Fragment}, rest = f :: more →
      (f.moves ∨ loc = [] ∧ locs ++ levels.flatMap (·.waiting) = []) ∧ ∀ g ∈ more, g.moves := by
    rintro f more rfl
    rcases h.moves _ (htop ▸ List.mem_cons_self) (List.cons_ne_nil loc locs) with
      hmoves | ⟨hmore, hone⟩
    · obtain ⟨hf, hmore⟩ := List.forall_mem_cons.mp hmoves
      exact ⟨Or.inl hf, hmore⟩
    · rw [State.waiting, htop] at hone
      exact ⟨Or.inr (List.cons.inj hone), hmore⟩
  cases State.turns_of_step hs with
  | usedUp top empty =>
    cases htop.symm.trans top
    cases empty
  | idle top =>
    cases htop.symm.trans top
    exact ⟨[], rfl, Or.inl (.nothing (.refl loc s.doc))⟩
  | last top =>
    cases htop.symm.trans top
    rcases (only rfl).1 with hf | ⟨rfl, hnone⟩
    · exact ⟨[], rfl, Or.inl (.nothing (apply_edits hf s.seen))⟩
    · exact ⟨[], rfl, Or.inr ⟨rfl, rfl, hnone⟩⟩
  | @onward _ _ _ _ _ _ _ _ queued _ top hadvance =>
    cases htop.symm.trans top
    obtain ⟨hf, hmore⟩ := only rfl
    obtain ⟨v, hv⟩ := h.there loc (by simp [State.waiting, htop])
    exact ⟨queued, rfl, Or.inl (advance_queues (hf.imp_right And.left) hmore hv hadvance)⟩

/-- The first fragment of a level goes down, or it is still at the document. -/
theorem State.Orderly.moves_or_nil (h : s.Orderly)
    (htop : s.levels = ⟨before, f :: rest, expanded, loc :: locs⟩ :: levels) :
    f.moves ∨ loc = [] := by
  rcases h.moves _ (htop ▸ List.mem_cons_self) (List.cons_ne_nil loc locs) with hmoves | ⟨-, hone⟩
  · exact Or.inl (hmoves f List.mem_cons_self)
  · rw [State.waiting, htop] at hone
    exact Or.inr (List.cons.inj hone).1

/-- What is queued is aside from the location that was taken, and the parts of it from each
other. -/
theorem Queues.aside {queued : List Level} (h : Queues loc doc d queued) {l m : Location}
    (hm : m ∈ queued.flatMap (·.waiting)) (hl : Aside loc l) : Aside m l := by
  obtain ⟨steps, stay, hstay, hnear⟩ := h.near
  rw [hnear] at hm
  rcases List.mem_append.mp hm with hm | hm
  · obtain ⟨s, -, rfl⟩ := List.mem_map.mp hm
    exact hl.append [s]
  · rcases hstay with rfl | rfl
    · cases hm
    · obtain rfl := List.mem_singleton.mp hm
      exact hl

theorem Queues.pairwise {queued : List Level} (h : Queues loc doc d queued) :
    (queued.flatMap (·.waiting)).Pairwise Aside := by
  obtain ⟨steps, stay, hstay, hnear⟩ := h.near
  rw [hnear, List.pairwise_append]
  refine ⟨?_, ?_, fun m hm l hl => ?_⟩
  · exact List.pairwise_map.mpr (List.pairwise_of_forall fun s t => .snoc_snoc loc s t)
  · rcases hstay with rfl | rfl
    · exact List.Pairwise.nil
    · exact List.pairwise_singleton Aside loc
  · obtain ⟨s, -, rfl⟩ := List.mem_map.mp hm
    rcases hstay with rfl | rfl
    · cases hl
    · obtain rfl := List.mem_singleton.mp hl
      exact (Aside.refl l).append [s]

theorem State.Orderly.of_idle (h : s.waiting = []) : s.Orderly where
  apart := by
    rw [h]
    exact List.Pairwise.nil
  there := by simp [h]
  moves l hl hne := absurd (List.flatMap_eq_nil_iff.mp h l hl) hne

/-- A round keeps the stack in order. Unless it empties the stack, every location that waits
leads to the same node after it. -/
theorem State.Orderly.step [Libraries] (h : s.Orderly) (hs : s.step a one = .inr t) :
    t.Orderly ∧ (t.waiting ≠ [] → ∀ l ∈ s.waiting, Persists l s.doc t.doc) := by
  have stays : ∀ l ∈ s.waiting, Persists l s.doc s.doc := by
    intro l hl
    obtain ⟨v, hv⟩ := h.there l hl
    exact .refl hv
  obtain ⟨doc, seen, stack⟩ := s
  cases stack with
  | nil => cases hs
  | cons top levels =>
    obtain ⟨before, rest, expanded, waiting⟩ := top
    cases waiting with
    | nil =>
      cases hs
      refine ⟨⟨h.apart, h.there, fun l hl => ?_⟩, fun _ => stays⟩
      exact h.moves l (List.mem_cons_of_mem _ hl)
    | cons loc locs =>
      obtain ⟨queued, hlevels, hcase⟩ := h.round rfl hs
      have hwaiting : t.waiting =
          queued.flatMap (·.waiting) ++ (locs ++ levels.flatMap (·.waiting)) := by
        rw [State.waiting, hlevels, List.flatMap_append]
        rfl
      rcases hcase with hq | ⟨-, rfl, hnone⟩
      · obtain ⟨haside, hothers⟩ := List.pairwise_cons.mp h.apart
        have persists : ∀ l ∈ loc :: (locs ++ levels.flatMap (·.waiting)),
            Persists l doc t.doc := by
          intro l hl
          obtain ⟨v, hv⟩ := h.there l hl
          rcases List.mem_cons.mp hl with rfl | hl
          · exact hq.edited.persists (.refl l) hv
          · exact hq.edited.persists (haside l hl) hv
        refine ⟨⟨?_, fun l hl => ?_, fun l hl hne => ?_⟩, fun _ => persists⟩
        · rw [hwaiting, List.pairwise_append]
          exact ⟨hq.pairwise, hothers, fun m hm l hl => hq.aside hm (haside l hl)⟩
        · rw [hwaiting] at hl
          rcases List.mem_append.mp hl with hl | hl
          · exact hq.there l hl
          · obtain ⟨-, v, -, hv, -⟩ := (persists l (List.mem_cons_of_mem loc hl)).pointer?
            exact ⟨v, hv⟩
        · rw [hlevels] at hl
          rcases List.mem_append.mp hl with hl | hl
          · exact Or.inl (hq.moves l hl)
          · -- something waits beside the location that was taken
            have others : locs ++ levels.flatMap (·.waiting) ≠ [] := by
              rw [← List.flatMap_cons (f := Level.waiting) (x := ⟨before, rest, expanded, locs⟩)]
              exact fun hnone => hne (List.flatMap_eq_nil_iff.mp hnone l hl)
            left
            rcases List.mem_cons.mp hl with rfl | hl
            · rcases h.moves _ List.mem_cons_self (List.cons_ne_nil loc locs) with
                hmoves | ⟨-, hone⟩
              · exact hmoves
              · exact absurd (List.cons.inj hone).2 others
            · rcases h.moves l (List.mem_cons_of_mem _ hl) hne with hmoves | ⟨-, hone⟩
              · exact hmoves
              · exact absurd (List.cons.inj hone).2 others
      · have hidle := hwaiting.trans hnone
        exact ⟨.of_idle hidle, fun hne => absurd hidle hne⟩

theorem orderly_of_leads [Libraries] {p : Path} (hp : p.Anchored)
    (hs : State.Leads a one ⟨doc, [], [⟨[], p, false, [[]]⟩]⟩ s) : s.Orderly := by
  induction hs with
  | refl => exact orderly_start hp doc
  | tail _ hstep ih => exact (ih.step hstep).1

/-- As long as a location stays on the stack, it leads to the same node. -/
theorem State.Orderly.persists [Libraries] {l : Location} {below : List Location} (h : s.Orderly)
    (hl : l :: below <:+ s.waiting)
    (hst : Relation.ReflTransGen (fun s t => s.step a one = .inr t ∧ l :: below <:+ t.waiting)
      s t) : t.Orderly ∧ l :: below <:+ t.waiting ∧ Persists l s.doc t.doc := by
  induction hst with
  | refl =>
    obtain ⟨v, hv⟩ := h.there l (hl.subset List.mem_cons_self)
    exact ⟨h, hl, .refl hv⟩
  | tail _ hstep ih =>
    obtain ⟨horderly, hwaits, hpersists⟩ := ih
    obtain ⟨hnext, hsame⟩ := horderly.step hstep.1
    have hne := List.ne_nil_of_mem (hstep.2.subset List.mem_cons_self)
    exact ⟨hnext, hstep.2, hpersists.trans (hsame hne l (hwaits.subset List.mem_cons_self))⟩

theorem formed_advance [Libraries] {kinds : Kind → Bool} (json : ∀ k, Kind.isJson k → kinds k)
    {l : Level} {queued : List Level} (hd : doc.formed kinds)
    (h : advance a l f next more doc loc = .ok (d, queued)) : d.formed kinds := by
  cases onward_of_advance h with
  | single _ _ followed => exact (follow_effect json hd followed).1
  | _ => exact hd

/-- The document and all that was handed to the rewriting are of the given kinds. -/
abbrev State.Within (kinds : Kind → Bool) (s : State) : Prop := Update.Within kinds s.doc s.seen

/-- A round keeps the document well-formed and within its kinds, also when it is the last. -/
theorem State.Within.round [Libraries] {kinds : Kind → Bool} (json : ∀ k, Kind.isJson k → kinds k)
    (ha : a.Keeps kinds) (h : s.Within kinds) (one : Bool) :
    Sum.elim (fun o : Outcome => o.doc.formed kinds = true) (State.Within kinds)
      (s.step a one) := by
  have happly {p : Place} {loc : Location} : (apply a one p s.doc loc s.seen).Within kinds :=
    within_apply (json _ rfl) ha h
  unfold State.step
  split
  · exact h.value
  · exact h
  · dsimp only
    split
    · exact h
    · split
      · exact happly.value
      · exact happly
    · split
      · exact h.value
      · exact ⟨formed_advance json h.value ‹_›, h.seen⟩

theorem State.Within.step [Libraries] {kinds : Kind → Bool} (json : ∀ k, Kind.isJson k → kinds k)
    (ha : a.Keeps kinds) (h : s.Within kinds) (hs : s.step a one = .inr t) : t.Within kinds := by
  have hround := h.round json ha one
  rwa [hs] at hround

theorem State.Within.outcome [Libraries] {kinds : Kind → Bool} {o : Outcome}
    (json : ∀ k, Kind.isJson k → kinds k) (ha : a.Keeps kinds) (h : s.Within kinds)
    (hs : s.step a one = .inl o) : o.doc.formed kinds := by
  have hround := h.round json ha one
  rwa [hs] at hround

theorem within_of_leads [Libraries] {kinds : Kind → Bool} (json : ∀ k, Kind.isJson k → kinds k)
    (ha : a.Keeps kinds) (hst : s.Leads a one t) (h : s.Within kinds) : t.Within kinds := by
  induction hst with
  | refl => exact h
  | tail _ hstep ih => exact ih.step json ha hstep

end Update
end DocPath

namespace DocPath.Path

open Update (State)
open Value (ChangedAt Persists)

/-- An update by a path that has been read, at any time of its run. The location whose turn has
come leads to a node, and none that still waits lies below it. The round changes the document at
most at that node; in a plain document, what still waits and is not on the way there keeps its
value. And as long as a location stays on the stack, it leads to the node to which it led at
first. -/
theorem waiting_persist [Libraries] {text : String} {p : Path} (hp : Path.parse text = .ok p)
    (a : Action) (one : Bool) (doc : Value) {s : State}
    (hs : State.Leads a one ⟨doc, [], [⟨[], p, false, [[]]⟩]⟩ s) :
    (∀ before rest expanded loc locs levels,
      s.levels = ⟨before, rest, expanded, loc :: locs⟩ :: levels →
      let others := locs ++ levels.flatMap (·.waiting)
      (∃ v, s.doc.pointer? loc = some v) ∧ (∀ l ∈ others, ¬(loc <+: l ∧ loc ≠ l)) ∧
      ∀ t, s.step a one = .inr t → ChangedAt loc s.doc t.doc ∧
        (doc.Plain → a.Formed Kind.isJson →
          ∀ l ∈ others, l <+: loc ∨ t.doc.pointer? l = s.doc.pointer? l)) ∧
    ∀ l below t, l :: below <:+ s.waiting →
      Relation.ReflTransGen (fun s t => s.step a one = .inr t ∧ l :: below <:+ t.waiting) s t →
      Persists l s.doc t.doc := by
  have horderly := Update.orderly_of_leads (anchored_of_parseBytes hp) hs
  refine ⟨fun before rest expanded loc locs levels htop => ?_, fun l below t hl hst =>
    (horderly.persists hl hst).2.2⟩
  have hwaiting : s.waiting = loc :: (locs ++ levels.flatMap (·.waiting)) := by
    rw [State.waiting, htop]
    rfl
  have hapart := horderly.apart
  rw [hwaiting, List.pairwise_cons] at hapart
  have below : ∀ l ∈ locs ++ levels.flatMap (·.waiting), ¬(loc <+: l ∧ loc ≠ l) :=
    fun l hl => (hapart.1 l hl).not_below
  refine ⟨horderly.there loc (hwaiting ▸ List.mem_cons_self), below, fun t hstep => ?_⟩
  have hchanged : ChangedAt loc s.doc t.doc := by
    obtain ⟨queued, -, hq | ⟨rfl, -, -⟩⟩ := horderly.round htop hstep
    · exact hq.edited.changedAt
    · exact Or.inr ⟨t.doc, rfl⟩
  refine ⟨hchanged, fun hd ha l hl => ?_⟩
  by_cases habove : l <+: loc
  · exact Or.inl habove
  · right
    have hplain := (Update.within_of_leads (fun _ h => h) ha.keeps hs ⟨hd, nofun⟩).value
    refine hchanged.pointer?_eq hplain habove fun hle => ?_
    refine below l hl ⟨hle, ?_⟩
    rintro rfl
    exact habove hle

/-- A name under a descent. When the inner object is written to, the document itself still
waits, and it is still the same node afterwards. -/
theorem waiting_persist_of_nested :
    let p : Path := [.root, .descent, .child "a"]
    let doc : Value := .object [("a", .object [("a", .int 1)])]
    let start : State := ⟨doc, [], [⟨[], p, false, [[]]⟩]⟩
    let d : Value := .object [("a", .object [("a", .null)])]
    ∃ s t : State, Path.parse "$..a" = .ok p ∧ State.Leads (.set .null) false start s ∧
      s.waiting = [[.key "a"], []] ∧ s.step (.set .null) false = .inr t ∧ t.doc = d ∧
      Persists [] s.doc t.doc := by
  intro p doc start d
  let next : Bool → List Location → Update.Level := fun expanded locs =>
    ⟨[.root], [.descent, .child "a"], expanded, locs⟩
  let under : List Update.Level :=
    [next false [], next true [[]], next false [], ⟨[], p, false, []⟩]
  let s : State := ⟨doc, [], ⟨[.root, .descent], [.child "a"], false, [[.key "a"]]⟩ ::
    next true [] :: under⟩
  let t : State := ⟨d, [], ⟨[.root, .descent], [.child "a"], false, []⟩ :: next true [] :: under⟩
  have hp : Path.parse "$..a" = .ok p := rfl
  have hs : State.Leads (.set .null) false start s :=
    .head rfl (.head rfl (.head rfl (.head rfl (.head rfl .refl))))
  have hstep : s.step (.set .null) false = .inr t := rfl
  have hround : Relation.ReflTransGen
      (fun s t => s.step (.set .null) false = .inr t ∧ [] :: [] <:+ t.waiting) s t :=
    .single ⟨hstep, List.suffix_refl _⟩
  have hsuffix : [] :: [] <:+ s.waiting := List.suffix_cons _ _
  exact ⟨s, t, hp, hs, rfl, hstep, rfl,
    (waiting_persist hp (.set .null) false doc hs).2 [] [] t hsuffix hround⟩

end DocPath.Path
