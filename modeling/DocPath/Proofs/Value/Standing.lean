import DocPath.Proofs.Value.Writing

/-!
# Nodes that keep their places

A change inside one node moves no other node that lies on the way there or is a child beside
that way. Such locations lead to the same nodes afterwards: nothing above them has gained or
lost a child. This needs no condition on the document, not even in records, where two names
may lead to one field. In a plain document, what lies on other branches does not change at
all.
-/

namespace DocPath.Value

/-- The second location is on the way to the first, or one step beside that way. -/
inductive Aside : Location → Location → Prop
  | top (loc : Location) : Aside loc []
  | beside (s t : Step) (loc : Location) : Aside (s :: loc) [t]
  | down (s : Step) {loc l : Location} (h : Aside loc l) : Aside (s :: loc) (s :: l)

namespace Aside

variable {loc l : Location}

theorem refl (loc : Location) : Aside loc loc := by
  induction loc with
  | nil => exact .top []
  | cons s loc ih => exact .down s ih

theorem append (h : Aside loc l) (m : Location) : Aside (loc ++ m) l := by
  induction h with
  | top loc => exact .top (loc ++ m)
  | beside s t loc => exact .beside s t (loc ++ m)
  | down s _ ih => exact .down s ih

/-- Two children of one node are aside from each other. -/
theorem snoc_snoc (loc : Location) (s t : Step) : Aside (loc ++ [s]) (loc ++ [t]) := by
  induction loc with
  | nil => exact .beside s t []
  | cons u loc ih => exact .down u ih

/-- What is aside from a location does not lie below it. -/
theorem not_below (h : Aside loc l) : ¬(loc <+: l ∧ loc ≠ l) := by
  induction h with
  | top loc =>
    rintro ⟨hle, hne⟩
    exact hne (List.prefix_nil.mp hle)
  | beside s t loc =>
    rintro ⟨hle, hne⟩
    obtain ⟨rfl, htail⟩ := List.cons_prefix_cons.mp hle
    exact hne (congrArg (s :: ·) (List.prefix_nil.mp htail))
  | down s _ ih =>
    rintro ⟨hle, hne⟩
    exact ih ⟨(List.cons_prefix_cons.mp hle).2, fun heq => hne (congrArg (s :: ·) heq)⟩

end Aside

/-- The location leads in the second document to the node that it leads to in the first. Every
container on the way has its children where they were, and the node is still of its kind. -/
inductive Persists : Location → Value → Value → Prop
  | here {v v' : Value} (kind : v'.kind = v.kind) : Persists [] v v'
  | child {v v' c c' : Value} {s : Step} {l : Location} (kind : v'.kind = v.kind)
    (steps : v'.steps = v.steps) (old : v.step? s = some c) (new : v'.step? s = some c')
    (below : Persists l c c') : Persists (s :: l) v v'

namespace Persists

variable {l : Location} {d d' d'' v : Value}

theorem refl (h : d.pointer? l = some v) : Persists l d d := by
  induction l generalizing d with
  | nil => exact .here rfl
  | cons s l ih =>
    obtain ⟨c, hc, hv⟩ := Option.bind_eq_some_iff.mp h
    exact .child rfl rfl hc hc (ih hv)

theorem trans (h : Persists l d d') (h' : Persists l d' d'') : Persists l d d'' := by
  induction h generalizing d'' with
  | here kind =>
    cases h' with
    | here kind' => exact .here (kind'.trans kind)
  | child kind steps old new _ ih =>
    cases h' with
    | child kind' steps' old' new' below' =>
      obtain rfl := Option.some.inj (new.symm.trans old')
      exact .child (kind'.trans kind) (steps'.trans steps) old new' (ih below')

/-- There is a node at the location before and after, of the same kind. -/
theorem pointer? (h : Persists l d d') :
    ∃ v v', d.pointer? l = some v ∧ d'.pointer? l = some v' ∧ v'.kind = v.kind := by
  induction h with
  | @here v v' kind => exact ⟨v, v', rfl, rfl, kind⟩
  | child _ _ old new _ ih =>
    obtain ⟨u, u', hu, hu', kind⟩ := ih
    exact ⟨u, u', by simp [Value.pointer?, old, hu], by simp [Value.pointer?, new, hu'], kind⟩

end Persists

variable {d d' v v' c c' u w : Value} {s t : Step} {loc l : Location}

/-- An exchange of one child for another of its kind leaves every child of its kind, even where
two steps lead to one child. -/
theorem step?_putStep?_kind (hs : v.step? s = some c) (hk : c'.kind = c.kind)
    (hput : v.putStep? s c' = some v') (ht : v.step? t = some u) :
    ∃ u', v'.step? t = some u' ∧ u'.kind = u.kind := by
  have same : t = s → ∃ u', v'.step? t = some u' ∧ u'.kind = u.kind := by
    rintro rfl
    obtain rfl := Option.some.inj (hs.symm.trans ht)
    exact ⟨c', step?_putStep?_self hput, hk⟩
  cases putStep?_eq_some_iff.mp hput with
  | @member ms name _ hn =>
    cases t with
    | index j => cases ht
    | key other =>
      by_cases ho : other = name
      · exact same (congrArg Step.key ho)
      · exact ⟨u, (Members.lookup_replace_of_ne ho).trans ht, rfl⟩
  | @field kind ms key name _ found =>
    cases t with
    | index j => cases ht
    | key other =>
      obtain ⟨name', hname', hu⟩ := Option.bind_eq_some_iff.mp ht
      have found' : kind.resolve? (Members.replace name c' ms) other = some name' :=
        (kind.resolve?_congr (Members.replace_names name c' ms) other).trans hname'
      have there : ∀ {x}, (Members.replace name c' ms).lookup name' = some x →
          (keyed kind (Members.replace name c' ms)).step? (.key other) = some x :=
        fun hx => step?_eq_some_iff.mpr (.field found' hx)
      by_cases ho : name' = name
      · subst ho
        obtain ⟨old, hold, hc⟩ := Option.bind_eq_some_iff.mp hs
        obtain rfl := Option.some.inj (found.symm.trans hold)
        obtain rfl := Option.some.inj (hc.symm.trans hu)
        exact ⟨c', there (Members.lookup_replace_self (KeyedKind.mem_of_resolve? found)), hk⟩
      · exact ⟨u, there ((Members.lookup_replace_of_ne ho).trans hu), rfl⟩
  | @element items i _ hi | @slot refused items i _ hi =>
    cases t with
    | key other => cases ht
    | index j =>
      by_cases hj : j = i
      · exact same (congrArg Step.index hj)
      · exact ⟨u, (List.getElem?_set_ne (Ne.symm hj)).trans ht, rfl⟩

theorem put?_kind (hv : d.pointer? loc = some v) (hk : w.kind = v.kind)
    (hput : d.put? loc w = some d') : d'.kind = d.kind := by
  cases loc with
  | nil =>
    cases hv
    cases hput
    exact hk
  | cons s loc =>
    rw [put?_cons] at hput
    obtain ⟨c, -, hput⟩ := Option.bind_eq_some_iff.mp hput
    obtain ⟨c', -, hput⟩ := Option.bind_eq_some_iff.mp hput
    exact putStep?_kind hput

/-- An exchange behind a step is one in the child that the step leads to. -/
theorem through_put? (hv : d.pointer? (s :: loc) = some v) (hput : d.put? (s :: loc) w = some d') :
    ∃ c c', d.step? s = some c ∧ c.pointer? loc = some v ∧ c.put? loc w = some c' ∧
      d.putStep? s c' = some d' := by
  rw [put?_cons] at hput
  obtain ⟨c, hc, hrest⟩ := Option.bind_eq_some_iff.mp hput
  obtain ⟨c', hc', hstep⟩ := Option.bind_eq_some_iff.mp hrest
  rw [Value.pointer?, hc, Option.bind_some] at hv
  exact ⟨c, c', hc, hv, hc', hstep⟩

/-- At most the node at a location has been exchanged, for one of its kind. -/
def EditedAt (loc : Location) (d d' : Value) : Prop :=
  d' = d ∨ ∃ v w, d.pointer? loc = some v ∧ w.kind = v.kind ∧ d.put? loc w = some d'

theorem EditedAt.refl (loc : Location) (d : Value) : EditedAt loc d d := Or.inl rfl

theorem EditedAt.changedAt (h : EditedAt loc d d') : ChangedAt loc d d' := by
  rcases h with rfl | ⟨v, w, -, -, hput⟩
  · exact .refl loc d'
  · exact Or.inr ⟨w, hput⟩

/-- An edit leaves in its place what is aside from it. -/
theorem EditedAt.persists (h : EditedAt loc d d') (haside : Aside loc l)
    (hl : d.pointer? l = some u) : Persists l d d' := by
  rcases h with rfl | ⟨v, w, hv, hk, hput⟩
  · exact .refl hl
  · induction haside generalizing d d' with
    | top loc => exact .here (put?_kind hv hk hput)
    | beside s t loc =>
      obtain ⟨c, c', hc, hvc, hc', hstep⟩ := through_put? hv hput
      obtain ⟨b, hb, -⟩ := Option.bind_eq_some_iff.mp hl
      obtain ⟨b', hb', hkind⟩ := step?_putStep?_kind hc (put?_kind hvc hk hc') hstep hb
      exact .child (putStep?_kind hstep) (putStep?_steps hstep) hb hb' (.here hkind)
    | down s _ ih =>
      obtain ⟨c, c', hc, hvc, hc', hstep⟩ := through_put? hv hput
      rw [Value.pointer?, hc, Option.bind_some] at hl
      exact .child (putStep?_kind hstep) (putStep?_steps hstep) hc (step?_putStep?_self hstep)
        (ih hl hvc hc')

/-- In a plain document, an exchange leaves what lies neither above nor below it as it is. -/
theorem ChangedAt.pointer?_eq (h : ChangedAt loc d d') (hd : d.Plain) (habove : ¬l <+: loc)
    (hbelow : ¬loc <+: l) : d'.pointer? l = d.pointer? l := by
  rcases h with rfl | ⟨w, hput⟩
  · rfl
  · induction loc generalizing d d' l with
    | nil => exact absurd List.nil_prefix hbelow
    | cons s loc ih =>
      cases l with
      | nil => exact absurd List.nil_prefix habove
      | cons t l =>
        obtain ⟨hkind, hn, -⟩ := formed_iff.mp hd
        obtain ⟨v, hv⟩ := exists_pointer? hput
        obtain ⟨c, c', hc, -, hc', hstep⟩ := through_put? hv hput
        rw [Value.pointer?, Value.pointer?, putStep?_eq_reviseAll hkind hn hstep,
          step?_reviseAll hkind]
        by_cases ht : t = s
        · subst ht
          rw [List.cons_prefix_cons] at habove hbelow
          have hrest := ih (formed_step? hd hc) (fun hle => habove ⟨rfl, hle⟩)
            (fun hle => hbelow ⟨rfl, hle⟩) hc'
          simpa [hc] using hrest
        · simp [ht]

/-- The children of the two have the same places: names and their order, or a number of them. -/
structure SameShape (v v' : Value) : Prop where
  kind : v'.kind = v.kind
  names : v'.names = v.names
  length : v'.containerLen? = v.containerLen?

theorem sameShape_of_putStep? (h : v.putStep? s w = some v') : SameShape v v' where
  kind := putStep?_kind h
  names := putStep?_names h
  length := by
    cases putStep?_eq_some_iff.mp h with
    | @member ms name | @field _ ms _ name =>
      have names := congrArg List.length (Members.replace_names name w ms)
      rw [List.length_map, List.length_map] at names
      exact congrArg some names
    | element | slot => exact congrArg some List.length_set

/-- A container above the location of an exchange keeps its shape. -/
theorem sameShape_of_put? (hput : d.put? (l ++ s :: loc) w = some d') :
    ∃ c c', d.pointer? l = some c ∧ d'.pointer? l = some c' ∧ SameShape c c' := by
  obtain ⟨v, hv⟩ := exists_pointer? hput
  rw [pointer?_append] at hv
  obtain ⟨c, hc, -⟩ := Option.bind_eq_some_iff.mp hv
  rw [put?_append hc] at hput
  obtain ⟨c', hc', hput⟩ := Option.bind_eq_some_iff.mp hput
  rw [put?_cons] at hc'
  obtain ⟨b, -, hb⟩ := Option.bind_eq_some_iff.mp hc'
  obtain ⟨b', -, hstep⟩ := Option.bind_eq_some_iff.mp hb
  exact ⟨c, c', hc, pointer?_put? hput, sameShape_of_putStep? hstep⟩

theorem isSome_put? (d : Value) (l : Location) (w : Value) :
    (d.put? l w).isSome ↔ (d.pointer? l).isSome := by
  simp only [Option.isSome_iff_exists]
  constructor
  · rintro ⟨d', hput⟩
    exact exists_pointer? hput
  · rintro ⟨v, hv⟩
    exact exists_put? hv w

/-- A node can be exchanged exactly where one is found. The new one is then found with all that it
holds, everything on other branches as it was, and the containers above with their old shapes. -/
theorem Plain.put?_replaces_node (hd : d.Plain) (l : Location) (w : Value) :
    ((d.put? l w).isSome ↔ (d.pointer? l).isSome) ∧
    ∀ d', d.put? l w = some d' →
      (∀ below, d'.pointer? (l ++ below) = w.pointer? below) ∧
      (∀ m, ¬l <+: m → ¬m <+: l → d'.pointer? m = d.pointer? m) ∧
      ∀ above, above <+: l → above ≠ l → ∃ c c',
        d.pointer? above = some c ∧ d'.pointer? above = some c' ∧ SameShape c c' := by
  refine ⟨isSome_put? d l w, fun d' hput => ⟨fun below => ?_, fun m hbelow habove => ?_, ?_⟩⟩
  · rw [pointer?_append, pointer?_put? hput, Option.bind_some]
  · exact ChangedAt.pointer?_eq (Or.inr ⟨w, hput⟩) hd habove hbelow
  · rintro above ⟨rest, rfl⟩ hne
    cases rest with
    | nil => exact absurd (List.append_nil above).symm hne
    | cons s rest => exact sameShape_of_put? hput

theorem Plain.put?_replaces_node_of_nested :
    let d : Value := .object
      [("a", .array [.int 1, .object [("b", .null), ("c", .bool true)]]), ("d", .int 2)]
    ∃ d', d.put? [.key "a", .index 1, .key "b"] (.object [("e", .int 3)]) = some d' ∧
      d'.pointer? [.key "a", .index 1, .key "b", .key "e"] = some (.int 3) ∧
      d'.pointer? [.key "a", .index 1, .key "c"] = some (.bool true) ∧
      ∃ c', d'.pointer? [.key "a"] = some c' ∧ c'.containerLen? = some 2 := by
  intro d
  have hd : d.Plain := by decide
  obtain ⟨found, replaced⟩ :=
    hd.put?_replaces_node [.key "a", .index 1, .key "b"] (.object [("e", .int 3)])
  obtain ⟨d', hput⟩ := Option.isSome_iff_exists.mp (found.mpr rfl)
  obtain ⟨below, aside, above⟩ := replaced d' hput
  obtain ⟨c, c', hc, hc', shape⟩ := above [.key "a"] (by decide) (by decide)
  refine ⟨d', hput, below [.key "e"], aside _ (by decide) (by decide), c', hc', ?_⟩
  rw [shape.length, ← Option.some.inj hc]
  rfl

theorem writeChild_kind (h : v.writeChild s w = .ok v') : v'.kind = v.kind := by
  rcases writeChild_cases h with hput | ⟨name, -, hadd⟩
  · exact putStep?_kind hput
  · cases hadd <;> rfl

/-- What has been written is there. -/
theorem step?_writeChild (h : v.writeChild s w = .ok v') : v'.step? s = some w := by
  rcases writeChild_cases h with hput | ⟨name, rfl, hadd⟩
  · exact step?_putStep?_self hput
  · cases hadd with
    | object fresh => simpa [step?, getKey?] using lookup_append_fresh (w := w) fresh name
    | @table ms name w fresh =>
      have found : KeyedKind.table.resolve? (ms ++ [(name, w)]) name = some name :=
        KeyedKind.table.resolve?_of_mem (by simp)
      refine step?_eq_some_iff.mpr (.field found ?_)
      simpa using lookup_append_fresh (w := w) fresh name

end DocPath.Value
