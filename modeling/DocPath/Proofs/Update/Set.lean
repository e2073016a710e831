import DocPath.Builtin
import DocPath.Proofs.Query.First
import DocPath.Proofs.Update.Effect
import DocPath.Proofs.Update.Settle

/-!
# What can be read after setting

Setting creates members that are missing, so that the document grows while other locations
still wait. A member that is created lies at the only step that its fragment aims at, so that
what is selected in the end was selected before or has been created and written.
-/

namespace DocPath

open Value (Writes)

namespace Update

open DocPath.Path (Fits containers)

variable {w u : Value} {q rest : Path} {f g next : Fragment} {loc : Location}
  {before : List Fragment} {call : Location → Progress → Option Visited}

/-- A name or position aims at one step of a container that suits it. -/
theorem singleStep_set (w : Value) (before : List Fragment) (hf : single f) (u : Value) :
    (f.suits u = false ∧ singleStep (.set w) ⟨before, f⟩ u = .ok none) ∨
      (f.suits u ∧ ∃ s, singleStep (.set w) ⟨before, f⟩ u = .ok (some s) ∧
        ∀ t, f.Aims u.extent t ↔ t = s) ∨
      ∃ e, singleStep (.set w) ⟨before, f⟩ u = .error e := by
  cases f with
  | child name =>
    cases hk : u.isKeyed with
    | false => exact Or.inl ⟨hk, by simp [singleStep, hk]⟩
    | true => exact Or.inr (Or.inl ⟨hk, .key name, by simp [singleStep, hk], fun t => Iff.rfl⟩)
  | nth i =>
    cases ho : u.isOrdered with
    | false => exact Or.inl ⟨ho, by simp [singleStep, ho]⟩
    | true =>
      cases hn : normalizeIndex i u.extent with
      | some n =>
        refine Or.inr (Or.inl ⟨ho, .index n, singleStep_nth ho hn, fun t => ?_⟩)
        constructor
        · rintro ⟨m, hm, rfl⟩
          rw [hn, Option.some.injEq] at hm
          rw [hm]
        · rintro rfl
          exact ⟨n, hn, rfl⟩
      | none =>
        refine Or.inr (Or.inr ⟨.outOfBounds (Place.text ⟨before, .nth i⟩), ?_⟩)
        simp [singleStep, ho, Value.containerLen?_of_isOrdered ho, hn, Action.isStrict]
  | _ => cases hf

theorem isContainer_of_suits {v : Value} (h : f.suits v) : v.isContainer := by
  cases f with
  | child name =>
    rw [Fragment.suits] at h
    rw [Value.isContainer, h, Bool.true_or]
  | nth i =>
    rw [Fragment.suits] at h
    rw [Value.isContainer, h, Bool.or_true]
  | _ => cases h

theorem Fresh.suits {c : Value} (h : Fresh next c) : next.suits c := by
  cases h <;> rfl

/-- A container is created with the kind that the next fragment needs. -/
theorem fits_of_fresh {p : Place} {c : Value} (h : fresh p next = .ok c) (rest : Path) :
    c.Plain ∧ Fits (next :: rest) c := by
  have hfresh := fresh_of_fresh h
  refine ⟨formed_fresh (fun _ => id) h, hfresh.suits, fun s b _ hstep hinner => ?_⟩
  rw [hfresh.not_isContainer hstep] at hinner
  cases hinner

/-- Where a name or position has nothing to go to, nothing is selected. -/
theorem settled_of_not_suits (hf : single f) (hu : u.PlainTo (q.length + 1))
    (hsuits : f.suits u = false) (hq : q ≠ []) : Settled (f :: q) w u u := by
  obtain ⟨g, rest, rfl⟩ := List.exists_cons_of_ne_nil hq
  refine ⟨rfl, hu, fun l c h => ⟨c, h⟩, ?_, ?_, fun _ _ => rfl⟩
  · intro l c hsel
    cases hsel with
    | through haims hstep =>
      cases f with
      | child name =>
        obtain rfl := haims
        exact absurd (isKeyed_of_step? hstep) (by simpa [Fragment.suits] using hsuits)
      | nth i =>
        obtain ⟨n, -, rfl⟩ := haims
        exact absurd (Value.isOrdered_of_step? hstep) (by simpa [Fragment.suits] using hsuits)
      | _ => cases hf
  · intro hfits
    exact absurd hfits.1 (by simp [hsuits])

/-- A child that a name or position leads to has been settled. It was there before, or it has
been created with the kind that the path needs. -/
theorem settled_of_child {s : Step} {c c' u' : Value} (hsuits : f.suits u)
    (haims : ∀ t, f.Aims u.extent t ↔ t = s) (hu : u.PlainTo ((g :: rest).length + 1))
    (hc : c.isContainer) (hthere : u.step? s = some c ∨ u.step? s = none ∧ Fits (g :: rest) c)
    (h : Settled (g :: rest) w c c') (hw : Writes [s] c' u u')
    (hsame : u.step? s = some c → c' = c → u' = u) : Settled (f :: g :: rest) w u u' where
  kind := hw.alike.kind
  plain := hu.writes h.plain hw
  selected l b hsel := by
    cases hsel with
    | @through _ _ _ _ b' _ t l haim hstep hinner hmore =>
      obtain rfl := (haims t).mp haim
      rcases hthere with hthere | ⟨hnone, -⟩
      · obtain rfl := Option.some.inj (hthere.symm.trans hstep)
        obtain ⟨d, hd⟩ := h.selected l b hmore
        refine ⟨d, .through ?_ hw.step?_self ?_ hd⟩
        · rw [Value.extent_of_alike hw.alike]
          exact haim
        · rw [Value.isContainer_of_kind h.kind]
          exact hinner
      · rw [hnone] at hstep
        cases hstep
  written l b hsel := by
    cases hsel with
    | @through _ _ _ _ b' _ t l haim hstep hinner hmore =>
      rw [Value.extent_of_alike hw.alike] at haim
      obtain rfl := (haims t).mp haim
      obtain rfl := Option.some.inj (hw.step?_self.symm.trans hstep)
      exact h.written l b hmore
  reached hfits := by
    have hchild : Fits (g :: rest) c := by
      rcases hthere with hthere | ⟨-, hfresh⟩
      · exact hfits.2 s c ((haims s).mpr rfl) hthere hc
      · exact hfresh
    obtain ⟨l, hl⟩ := h.reached hchild
    refine ⟨s :: l, .through ?_ hw.step?_self ?_ hl⟩
    · rw [Value.extent_of_alike hw.alike]
      exact (haims s).mpr rfl
    · rw [Value.isContainer_of_kind h.kind]
      exact hc
  untouched hsingle hfits := by
    rcases hthere with hthere | ⟨hnone, -⟩
    · refine hsame hthere (h.untouched (fun f hf => hsingle f (List.mem_cons_of_mem _ hf)) ?_)
      intro hchild
      refine hfits ⟨hsuits, fun t b haim hstep _ => ?_⟩
      obtain rfl := (haims t).mp haim
      obtain rfl := Option.some.inj (hthere.symm.trans hstep)
      exact hchild
    · refine absurd ⟨hsuits, fun t b haim hstep _ => ?_⟩ hfits
      obtain rfl := (haims t).mp haim
      rw [hnone] at hstep
      cases hstep

/-- The ways of a set across a name or position: it ends where nothing suits the fragment, it
fails, it goes on in a container that is there, or in one that it creates. -/
inductive Crossing (w : Value) (before : List Fragment) (f g : Fragment)
    (call : Location → Progress → Option Visited) (loc : Location) (r : Progress) (u : Value) :
    Prop
  | nowhere (suits : f.suits u = false)
    (ends : across (.set w) ⟨before, f⟩ g call loc r = some (.ok r))
  | fails (e : UpdateError)
    (ends : across (.set w) ⟨before, f⟩ g call loc r = some (.error (r.finish (some e))))
  | child {s : Step} {c : Value} (suits : f.suits u) (aims : ∀ t, f.Aims u.extent t ↔ t = s)
    (step : u.step? s = some c) (inner : c.isContainer)
    (goes : across (.set w) ⟨before, f⟩ g call loc r = call (loc ++ [s]) r)
  | created {s : Step} {c v d : Value} (suits : f.suits u)
    (aims : ∀ t, f.Aims u.extent t ↔ t = s) (step : u.step? s = none)
    (new : fresh ⟨before, f⟩ g = .ok c) (write : u.writeChild s c = .ok v)
    (put : r.doc.put? loc v = some d)
    (goes : across (.set w) ⟨before, f⟩ g call loc r = call (loc ++ [s]) { r with doc := d })

theorem crossing (w : Value) (before : List Fragment) (hf : single f) (g : Fragment)
    (call : Location → Progress → Option Visited) {r : Progress}
    (hr : r.doc.pointer? loc = some u) : Crossing w before f g call loc r u := by
  rcases singleStep_set w before hf u with
    ⟨hsuits, hnone⟩ | ⟨hsuits, s, hs, haims⟩ | ⟨e, he⟩
  · exact .nowhere hsuits (across_of_none (by simp only [follow, hr, hnone, bind, Except.bind]))
  · cases hc : u.step? s with
    | some c =>
      cases hinner : c.isContainer with
      | true =>
        refine .child hsuits haims hc hinner (across_of_some ?_)
        simp only [follow, hr, hs, hc, hinner, bind, Except.bind, if_true]
      | false =>
        refine .fails (.blocked c.typeName (Place.text ⟨before, f⟩)) (across_of_error ?_)
        simp only [follow, hr, hs, hc, hinner, Action.isSet, bind, Except.bind, if_true,
          Bool.false_eq_true, if_false]
    | none =>
      cases hfresh : fresh ⟨before, f⟩ g with
      | error e =>
        refine .fails e (across_of_error ?_)
        simp only [follow, hr, hs, hc, hfresh, Action.isSet, bind, Except.bind, if_true]
      | ok c =>
        cases hwrite : u.writeChild s c with
        | error e =>
          refine .fails (.refused "set" (Place.text ⟨before, f⟩) e) (across_of_error ?_)
          simp only [follow, hr, hs, hc, hfresh, hwrite, Action.isSet, bind, Except.bind, if_true]
        | ok v =>
          obtain ⟨d, hput⟩ := Value.exists_put? hr v
          refine .created hsuits haims hc hfresh hwrite hput (across_of_some ?_)
          simp only [follow, hr, hs, hc, hfresh, hwrite, hput, Action.isSet, bind, Except.bind,
            if_true, Option.getD_some]
  · exact .fails e (across_of_error (by simp only [follow, hr, he, bind, Except.bind]))

theorem across_settles (hf : single f) (h : Settles (g :: rest) w call) :
    Settles (f :: g :: rest) w (across (.set w) ⟨before, f⟩ g call) := by
  intro loc r u hr hu
  obtain ⟨hk, hn, hplain⟩ := hu
  cases crossing w before hf g call hr with
  | nowhere hsuits hends =>
    exact Or.inl ⟨u, r, settled_of_not_suits hf ⟨hk, hn, hplain⟩ hsuits (List.cons_ne_nil _ _),
      Value.put?_pointer? hr, hends⟩
  | fails e hends => exact .fails hends rfl
  | @child s c hsuits haims hc hinner hgoes =>
    have child := (h (loc ++ [s]) r c (Value.pointer?_snoc_of_step? hr hc)
      (hplain s c hc)).parent hr
    rw [Leaves, ← hgoes] at child
    refine Leaves.mono child ?_
    rintro u' ⟨c', hsettled, hput⟩
    refine settled_of_child hsuits haims ⟨hk, hn, hplain⟩ hinner (Or.inl hc) hsettled
      (Value.writes_of_putStep? hk hn hput) ?_
    rintro - rfl
    exact Option.some.inj (hput.symm.trans (Value.putStep?_step? hc))
  | @created s c v d hsuits haims hc hfresh hwrite hput hgoes =>
    obtain ⟨hc', hfits⟩ := fits_of_fresh hfresh rest
    have hv := Value.writes_of_writeChild hk hn hwrite
    -- the member has been created, and the rest of the path goes on below it
    have hd := Value.pointer?_put? hput
    have child := (h (loc ++ [s]) { r with doc := d } c
      (Value.pointer?_snoc_of_step? hd hv.step?_self) (hc'.plainTo _)).parent hd
    rcases child with ⟨u', r', ⟨c', hsettled, hput'⟩, hdoc, hdone⟩ | ⟨o, hdone, ho⟩
    · rw [Value.put?_put? hput] at hdoc
      have hw := Value.writes_of_putStep? (hv.alike.kind ▸ hk) hv.names hput'
      refine Or.inl ⟨u', r', ?_, hdoc, hgoes.trans hdone⟩
      refine settled_of_child hsuits haims ⟨hk, hn, hplain⟩ (isContainer_of_suits hfits.1)
        (Or.inr ⟨hc, hfits⟩) hsettled (hv.again hw) ?_
      intro hthere
      rw [hc] at hthere
      cases hthere
    · exact .fails (hgoes.trans hdone) ho

/-- Fragments that choose several children are followed into each of them. -/
theorem inTurn_settles [Libraries] (hf : single f = false) (hfilter : f.isFilter = false)
    (h : Settles (g :: rest) w call) (r : Progress) (hr : r.doc.pointer? loc = some u)
    (hu : u.PlainTo ((g :: rest).length + 1)) :
    Leaves (Settled (f :: g :: rest) w u)
      (inTurn call (((containers (chosen f r.doc u)).map (·.1)).map fun s => loc ++ [s]))
      loc r := by
  have hmem : ∀ {s c}, (s, c) ∈ containers (chosen f r.doc u) ↔
      (f.Aims u.extent s ∧ u.step? s = some c) ∧ c.isContainer := by
    intro s c
    rw [containers, List.mem_filter, mem_chosen hfilter hu.1 hu.2.1]
  have hsteps : ∀ s ∈ (containers (chosen f r.doc u)).map (·.1), ∃ c, u.step? s = some c := by
    intro s hs
    obtain ⟨⟨t, c⟩, he, rfl⟩ := List.mem_map.mp hs
    exact ⟨c, (hmem.mp he).1.2⟩
  refine (inTurn_advances h _ hu hsteps r hr).mono fun u' hadv => ?_
  refine ⟨hadv.alike.kind, hadv.plain, hadv.selected, ?_, ?_, ?_⟩
  · refine hadv.fulfilled fun s c haims hstep hinner => ?_
    exact List.mem_map_of_mem (f := (·.1)) (hmem.mpr ⟨⟨haims, hstep⟩, hinner⟩)
  · intro hfits
    have hsuits := hfits.1
    cases f with
    | child name | nth i => cases hf
    | _ => cases hsuits
  · intro hsingle
    rw [hsingle f List.mem_cons_self] at hf
    cases hf

/-- A visit of a location settles a flat path there. -/
theorem visit_settles [Libraries] (q : Path) (hq : q.Flat) {last : Fragment}
    (hlast : q.getLast? = some last)
    (hallows : (Action.set w).allows last) (before : List Fragment) :
    Settles q w (visit (.set w) false before q) := by
  induction q generalizing before with
  | nil => cases hlast
  | cons f rest ih =>
    obtain ⟨hpicks, hfilter⟩ := hq.head
    cases rest with
    | nil =>
      obtain rfl : f = last := Option.some.inj hlast
      exact act_settles hallows hpicks
    | cons g rest =>
      have onward := ih hq.tail (by simpa using hlast) (before ++ [f])
      cases f with
      | root | current | bracket | descent => cases hpicks
      | child name | nth i => exact across_settles rfl onward
      | wildcard | slice s | union keys | filter template =>
        intro loc r u hr hu
        have settled := inTurn_settles rfl hfilter onward r hr hu
        rw [Leaves] at settled ⊢
        simpa only [visit, hr] using settled

end Update
end DocPath

namespace DocPath.Path

open Update (Settled)

/-- An anchored path stays at the document with its first fragment, or it leads down from
there at once. -/
theorem Anchored.flat_cases {p : Path} (hp : p.Anchored) (hdescent : .descent ∉ p)
    (hfilter : ∀ f ∈ p, f.isFilter = false) :
    p.Flat ∨ ∃ f rest, p = f :: rest ∧ ¬f.moves ∧ Flat rest := by
  have picks : ∀ {f}, f ∈ p → f.moves → f.picks := by
    intro f hf hmoves
    cases f with
    | root | current | bracket => cases hmoves
    | descent => exact absurd hf hdescent
    | _ => rfl
  cases p with
  | nil => exact Or.inl nofun
  | cons f rest =>
    have hrest : Flat rest := fun g hg =>
      ⟨picks (List.mem_cons_of_mem f hg) (hp g hg), hfilter g (List.mem_cons_of_mem f hg)⟩
    by_cases hf : f.moves
    · left
      intro g hg
      rcases List.mem_cons.mp hg with rfl | hg
      · exact ⟨picks List.mem_cons_self hf, hfilter g List.mem_cons_self⟩
      · exact hrest g hg
    · exact Or.inr ⟨f, rest, rfl, hf, hrest⟩

/-- A set that succeeds has written wherever the path leads down. -/
theorem settled_of_set [Libraries] {p : Path} (hp : p.Anchored) (hdescent : .descent ∉ p)
    (hfilter : ∀ f ∈ p, f.isFilter = false) {doc : Value} (hd : doc.Plain) {w : Value}
    (hok : (p.set w doc).error = none) :
    ∃ q, q.Flat ∧ (p = q ∨ ∃ f, ¬f.moves ∧ p = f :: q ∧ q ≠ []) ∧
      Settled q w doc (p.set w doc).doc := by
  cases hlast : p.getLast? with
  | none => simp [set, update, hlast] at hok
  | some last =>
    cases hallows : (Action.set w).allows last with
    | false => simp [set, update, hlast, hallows] at hok
    | true =>
      -- what a visit that succeeds leaves is the document in the end
      have done : ∀ {q : Path} {before : List Fragment}, q.Flat → q.getLast? = some last →
          Update.visit (.set w) false [] p [] ⟨doc, []⟩ =
            Update.visit (.set w) false before q [] ⟨doc, []⟩ →
          Settled q w doc (p.set w doc).doc := by
        intro q before hq hqlast hsame
        rcases Update.visit_settles q hq hqlast hallows before [] ⟨doc, []⟩ doc rfl
          (hd.plainTo _) with ⟨u', r', hsettled, hput, hcall⟩ | ⟨o, hcall, ho⟩
        · have hend : p.set w doc = _ := update_of_visit hlast hallows (hsame.trans hcall)
          rw [hend]
          cases hput
          exact hsettled
        · have hend : p.set w doc = _ := update_of_visit hlast hallows (hsame.trans hcall)
          rw [hend] at hok
          rw [Update.Visited.outcome] at hok
          simp [hok] at ho
      rcases hp.flat_cases hdescent hfilter with hflat | ⟨f, rest, rfl, hf, hflat⟩
      · exact ⟨p, hflat, Or.inl rfl, done hflat hlast rfl⟩
      · cases rest with
        | nil =>
          obtain rfl : f = last := Option.some.inj hlast
          cases f with
          | root | current | bracket => cases hallows
          | _ => exact absurd rfl hf
        | cons g rest =>
          refine ⟨g :: rest, hflat, Or.inr ⟨f, hf, rfl, List.cons_ne_nil _ _⟩, ?_⟩
          have hqlast : (g :: rest).getLast? = some last := by simpa using hlast
          have stays : Update.visit (.set w) false [] (f :: g :: rest) [] ⟨doc, []⟩ =
              Update.visit (.set w) false [f] (g :: rest) [] ⟨doc, []⟩ := by
            cases f with
            | root | current | bracket => rfl
            | _ => exact absurd rfl hf
          exact done hflat hqlast stays

/-- Seen from the document, a first fragment that stays there does not count. -/
theorem nodes_of_settled [Libraries] {p q : Path} (h : p = q ∨ ∃ f, ¬f.moves ∧ p = f :: q ∧ q ≠ [])
    (order : Order) (d : Value) : nodes order d p ([], d) = nodes order d q ([], d) := by
  rcases h with rfl | ⟨f, hf, rfl, hq⟩
  · rfl
  · obtain ⟨g, rest, rfl⟩ := List.exists_cons_of_ne_nil hq
    exact nodes_of_not_moves hf order d g rest

theorem mem_nodes_of_settled [Libraries] {p q : Path} (hflat : q.Flat)
    (h : p = q ∨ ∃ f, ¬f.moves ∧ p = f :: q ∧ q ≠ []) {d : Value} (hd : d.PlainTo q.length)
    (k : Location) (c : Value) :
    (k, c) ∈ nodes .parentsFirst d p ([], d) ↔ Selects q d k c := by
  have hmem := mem_nodes_iff_selects hflat .parentsFirst d hd [] k c
  rw [nodes_of_settled h]
  simpa using hmem

/-- After a set that succeeds, a path without descents and filters selects the value that was
written and nothing else, and it selects every location that it selected before. -/
theorem get_set [Libraries] {text : String} {p : Path} (hp : Path.parse text = .ok p)
    (hdescent : .descent ∉ p)
    (hfilter : ∀ f ∈ p, f.isFilter = false) {doc : Value} (hd : doc.Plain) {w : Value}
    (hok : (p.set w doc).error = none) :
    let selected (d : Value) := nodes .parentsFirst d p ([], d)
    let doc' := (p.set w doc).doc
    (∀ d, (selected d).map (·.2) = p.get d) ∧ (∀ n ∈ selected doc, doc.pointer? n.1 = some n.2) ∧
      (∀ c ∈ p.get doc', c = w) ∧ ∀ n ∈ selected doc, (n.1, w) ∈ selected doc' := by
  intro selected doc'
  obtain ⟨q, hflat, hq, hsettled⟩ := settled_of_set (anchored_of_parseBytes hp) hdescent
    hfilter hd hok
  have hget (d : Value) : (selected d).map (·.2) = p.get d := nodes_values p d
  have hmem {d : Value} (hplain : d.PlainTo q.length) (k : Location) (c : Value) :
      (k, c) ∈ selected d ↔ Selects q d k c :=
    mem_nodes_of_settled hflat hq hplain k c
  have hwritten : ∀ k c, (k, c) ∈ selected doc' → c = w := fun k c h =>
    hsettled.written k c ((hmem hsettled.plain k c).mp h)
  refine ⟨hget, fun n hn => ?_, fun c hc => ?_, fun n hn => ?_⟩
  · have hroot : Node.At doc ([], doc) := rfl
    exact at_of_mem_nodes hd.wellFormed .parentsFirst p hroot hn
  · rw [← hget] at hc
    obtain ⟨⟨k, c⟩, hk, rfl⟩ := List.mem_map.mp hc
    exact hwritten k c hk
  · obtain ⟨k, c⟩ := n
    obtain ⟨c', hc'⟩ := hsettled.selected k c ((hmem (hd.plainTo _) k c).mp hn)
    have hk := (hmem hsettled.plain k c').mpr hc'
    exact hwritten k c' hk ▸ hk

/-- A union that names an element twice, above a member that is missing there. -/
theorem get_set_of_aliases :
    let p : Path := [.root, .union [.index 0, .index (-1)], .child "a"]
    let doc : Value := .array [.object []]
    Path.parse "$[0,-1].a" = .ok p ∧ doc.Plain ∧
      (p.set (.int 1) doc) = ⟨.array [.object [("a", .int 1)]], [], none⟩ ∧
      ∀ c ∈ p.get (p.set (.int 1) doc).doc, c = .int 1 := by
  intro p doc
  have hp : Path.parse "$[0,-1].a" = .ok p := rfl
  have hd : doc.Plain := by decide
  have hvisit : Update.visit (.set (.int 1)) false [] p [] ⟨doc, []⟩ =
      some (.ok ⟨.array [.object [("a", .int 1)]], []⟩) := rfl
  have hset : p.set (.int 1) doc = ⟨.array [.object [("a", .int 1)]], [], none⟩ :=
    update_of_visit rfl rfl hvisit
  have hdescent : .descent ∉ p := by simp [p]
  have hfilter : ∀ f ∈ p, f.isFilter = false := by decide
  obtain ⟨-, -, hall, -⟩ := get_set hp hdescent hfilter hd (congrArg Update.Outcome.error hset)
  exact ⟨hp, hd, hset, hall⟩

/-- Setting by names and positions alone. If no container on the way is of the wrong kind, a
set that succeeds can be read back; if one is, the set succeeds without writing anything. -/
theorem first?_set [Libraries] {steps : Path} (hne : steps ≠ [])
    (hsteps : ∀ f ∈ steps, Update.single f) {doc : Value} (hd : doc.Plain) {w : Value}
    (hok : (Path.set (.root :: steps) w doc).error = none) :
    let p : Path := .root :: steps
    let doc' := (p.set w doc).doc
    (Fits steps doc → p.first? doc' = some w) ∧ (¬Fits steps doc → doc' = doc) := by
  intro p doc'
  have hmoves : ∀ f ∈ steps, f.moves ∧ f ≠ .descent ∧ f.isFilter = false := by
    intro f hf
    have hsingle := hsteps f hf
    cases f with
    | child name | nth i => exact ⟨rfl, nofun, rfl⟩
    | _ => cases hsingle
  have hp : p.Anchored := fun f hf => (hmoves f hf).1
  have hdescent : .descent ∉ p := by
    intro h
    rcases List.mem_cons.mp h with h | h
    · cases h
    · exact (hmoves _ h).2.1 rfl
  have hfilter : ∀ f ∈ p, f.isFilter = false := List.forall_mem_cons.mpr
    ⟨rfl, fun f hf => (hmoves f hf).2.2⟩
  obtain ⟨q, hflat, hq, hsettled⟩ := settled_of_set hp hdescent hfilter hd hok
  obtain rfl : q = steps := by
    rcases hq with hq | ⟨f, -, hq, -⟩
    · subst hq
      cases (hflat .root List.mem_cons_self).1
    · exact (List.cons.inj hq).2.symm
  constructor
  · intro hfits
    obtain ⟨l, hl⟩ := hsettled.reached hfits
    have hmem {c : Value} : c ∈ p.get doc' ↔ ∃ k, Selects q doc' k c := by
      have h := mem_nodes_of_settled hflat hq hsettled.plain
      rw [← nodes_values, List.mem_map]
      constructor
      · rintro ⟨⟨k, c⟩, hk, rfl⟩
        exact ⟨k, (h k c).mp hk⟩
      · rintro ⟨k, hk⟩
        exact ⟨(k, c), (h k c).mpr hk, rfl⟩
    have hfirst : p.first? doc' = (p.get doc').head? := Search.first?_eq_head?_get _ doc'
    rw [hfirst]
    cases hget : p.get doc' with
    | nil =>
      have hw := hmem.mpr ⟨l, hl⟩
      rw [hget] at hw
      cases hw
    | cons c cs =>
      obtain ⟨k, hk⟩ := hmem.mp (hget ▸ List.mem_cons_self)
      rw [List.head?_cons, hsettled.written k c hk]
  · exact hsettled.untouched hsteps

/-- A member is created on the way and read back. -/
theorem first?_set_of_missing_member :
    let steps : Path := [.nth 0, .child "m", .child "k"]
    let p : Path := .root :: steps
    let doc : Value := .array [.object []]
    steps ≠ [] ∧ (∀ f ∈ steps, Update.single f) ∧ doc.Plain ∧
      p.set (.int 7) doc = ⟨.array [.object [("m", .object [("k", .int 7)])]], [], none⟩ ∧
      p.first? (p.set (.int 7) doc).doc = some (.int 7) := by
  intro steps p doc
  have hne : steps ≠ [] := List.cons_ne_nil _ _
  have hsteps : ∀ f ∈ steps, Update.single f := by decide
  have hd : doc.Plain := by decide
  have hvisit : Update.visit (.set (.int 7)) false [] p [] ⟨doc, []⟩ =
      some (.ok ⟨.array [.object [("m", .object [("k", .int 7)])]], []⟩) := rfl
  have hset : p.set (.int 7) doc = ⟨.array [.object [("m", .object [("k", .int 7)])]], [], none⟩ :=
    update_of_visit rfl rfl hvisit
  have hfits : Fits steps doc := by
    refine ⟨rfl, ?_⟩
    rintro s c ⟨n, hn, rfl⟩ hstep -
    obtain rfl : n = 0 := (Option.some.inj hn).symm
    obtain rfl : Value.object [] = c := Option.some.inj hstep
    refine ⟨rfl, ?_⟩
    rintro s c rfl hstep -
    cases hstep
  obtain ⟨hread, -⟩ := first?_set hne hsteps hd (congrArg Update.Outcome.error hset)
  exact ⟨hne, hsteps, hd, hset, hread hfits⟩

/-- A name is not looked for in a list: the set succeeds, and nothing can be read back. -/
theorem first?_set_of_wrong_kind :
    let p : Path := [.root, .child "a"]
    let doc : Value := .array []
    p.set (.int 1) doc = ⟨doc, [], none⟩ ∧ p.first? (p.set (.int 1) doc).doc = none := by
  intro p doc
  have hvisit : Update.visit (.set (.int 1)) false [] p [] ⟨doc, []⟩ = some (.ok ⟨doc, []⟩) := rfl
  have hset : p.set (.int 1) doc = ⟨doc, [], none⟩ := update_of_visit rfl rfl hvisit
  refine ⟨hset, ?_⟩
  have hfirst : p.first? doc = (p.get doc).head? := Search.first?_eq_head?_get _ doc
  rw [hset, hfirst, ← nodes_values, nodes_root, nodes]
  rfl

end DocPath.Path
