import DocPath.Builtin
import DocPath.Proofs.Update.Set
import DocPath.Proofs.Value.Standing

/-!
# What a set by names and positions touches

Such a set goes one way down. It writes where that way ends, or it appends one member to the
first object that lacks the next name. What it creates below that member follows the path: an
object for every name, and for a position nulls up to it. If it fails, the value is nowhere in
what has been created, and to delete the member is to undo everything.
-/

namespace DocPath

/-- What has been created for the rest of a path when a set fails there: objects of one member
each, and at the end an empty object or an array of nulls. -/
inductive Scaffold : Path → Value → Prop where
  | object (name : String) (rest : Path) : Scaffold (.child name :: rest) (.object [])
  | array {i : Int64} (rest : Path) (forward : 0 ≤ i.toInt) :
    Scaffold (.nth i :: rest) (.array (List.replicate (i.toInt.toNat + 1) .null))
  | member (name : String) {rest : Path} {c : Value} (more : Scaffold rest c) :
    Scaffold (.child name :: rest) (.object [(name, c)])

/-- What has been created for the rest of a path when a set has written its value there. -/
inductive Built (w : Value) : Path → Value → Prop where
  | here : Built w [] w
  | element {i : Int64} (forward : 0 ≤ i.toInt) :
    Built w [.nth i] (.array (List.replicate i.toInt.toNat .null ++ [w]))
  | member (name : String) {rest : Path} {c : Value} (more : Built w rest c) :
    Built w (.child name :: rest) (.object [(name, c)])

def Path.LeadsTo (p : Path) (v : Value) (l : Location) (c : Value) : Prop :=
  p = [] ∧ l = [] ∧ c = v ∨ Selects p v l c

/-- One object on the path has got one more member, with something in it that the rest of the
path tells. -/
inductive Appended (created : Path → Value → Prop) (p : Path) (v v' : Value) : Prop where
  | intro {before after : Path} {name : String} {l : Location} {ms : Members} {c : Value}
    (split : p = before ++ .child name :: after) (leads : before.LeadsTo v l (.object ms))
    (missing : name ∉ ms.map (·.1)) (new : created after c)
    (put : v.put? l (.object (ms ++ [(name, c)])) = some v')

/-- One value that the path selects has been exchanged for `w`. -/
def Replaced (w : Value) (p : Path) (v v' : Value) : Prop :=
  ∃ l c, Selects p v l c ∧ v.put? l w = some v'

def Written (w : Value) (p : Path) (v v' : Value) : Prop :=
  v' = v ∨ Replaced w p v v' ∨ Appended (Built w) p v v'

def Abandoned (p : Path) (v v' : Value) : Prop := v' = v ∨ Appended Scaffold p v v'

variable {w v v' c c' : Value} {p rest : Path} {f g : Fragment} {s : Step} {l : Location}

theorem Path.LeadsTo.cons {b : Value} (haims : f.Aims v.extent s) (hs : v.step? s = some c)
    (hc : c.isContainer) (h : p.LeadsTo c l b) : Path.LeadsTo (f :: p) v (s :: l) b := by
  rcases h with ⟨rfl, rfl, rfl⟩ | h
  · exact Or.inr (.last haims hs)
  · cases h with
    | last haims' hs' => exact Or.inr (.through haims hs hc (.last haims' hs'))
    | through haims' hs' hc' more =>
      exact Or.inr (.through haims hs hc (.through haims' hs' hc' more))

section child

variable (haims : f.Aims v.extent s) (hs : v.step? s = some c) (hc : c.isContainer)
  (hput : v.putStep? s c' = some v')
include haims hs hc hput

theorem Appended.cons {created : Path → Value → Prop} (h : Appended created p c c') :
    Appended created (f :: p) v v' := by
  obtain ⟨rfl, hleads, hmissing, hnew, hc'⟩ := h
  exact .intro (List.cons_append).symm (hleads.cons haims hs hc) hmissing hnew
    (by rw [Value.put?_cons, hs, Option.bind_some, hc', Option.bind_some, hput])

theorem Replaced.cons (h : Replaced w (g :: rest) c c') : Replaced w (f :: g :: rest) v v' := by
  obtain ⟨l, b, hsel, hc'⟩ := h
  refine ⟨s :: l, b, .through haims hs hc hsel, ?_⟩
  rw [Value.put?_cons, hs, Option.bind_some, hc', Option.bind_some, hput]

theorem Written.cons (h : Written w (g :: rest) c c') : Written w (f :: g :: rest) v v' := by
  rcases h with rfl | h | h
  · exact Or.inl (Option.some.inj (hput.symm.trans (Value.putStep?_step? hs)))
  · exact Or.inr (Or.inl (h.cons haims hs hc hput))
  · exact Or.inr (Or.inr (h.cons haims hs hc hput))

theorem Abandoned.cons (h : Abandoned p c c') : Abandoned (f :: p) v v' := by
  rcases h with rfl | h
  · exact Or.inl (Option.some.inj (hput.symm.trans (Value.putStep?_step? hs)))
  · exact Or.inr (h.cons haims hs hc hput)

end child

namespace Update

variable {u : Value} {before : List Fragment} {loc : Location} {r : Progress}
  {call : Location → Progress → Option Visited}

/-- The ways of a set at its last name or position: nothing there suits it, it fails, or it
writes. -/
inductive Landing [Libraries] (w : Value) (before : List Fragment) (f : Fragment) (loc : Location)
    (r : Progress) (u : Value) : Prop
  | nowhere (suits : f.suits u = false)
    (ends : visit (.set w) false before [f] loc r = some (.ok r))
  | fails (e : UpdateError)
    (ends : visit (.set w) false before [f] loc r = some (.error (r.finish (some e))))
  | written {s : Step} {v d : Value} (suits : f.suits u) (aims : ∀ t, f.Aims u.extent t ↔ t = s)
    (write : u.writeChild s w = .ok v) (put : r.doc.put? loc v = some d)
    (ends : visit (.set w) false before [f] loc r = some (.ok { r with doc := d }))

theorem targets_single [Libraries] (w : Value) (before : List Fragment) (hf : single f)
    (doc u : Value) :
    targets (.set w) ⟨before, f⟩ doc u =
      (singleStep (.set w) ⟨before, f⟩ u).map Option.toList := by
  cases f with
  | child name =>
    simp only [targets, singleStep, Action.isSet, if_true, Except.map]
    split <;> rfl
  | nth i => rfl
  | _ => cases hf

theorem landing [Libraries] (w : Value) (before : List Fragment) (hf : single f)
    (hr : r.doc.pointer? loc = some u) : Landing w before f loc r u := by
  have hpicks : f.picks := by
    cases f with
    | child name | nth i => rfl
    | _ => cases hf
  have hvisit : visit (.set w) false before [f] loc r =
      some (r.act (.set w) false ⟨before, f⟩ loc) := rfl
  rw [Progress.act, apply_picks hpicks, applyChildren, actAt, hr] at hvisit
  dsimp only at hvisit
  rw [targets_single w before hf] at hvisit
  have same := Value.put?_pointer? hr
  rcases singleStep_set w before hf u with
    ⟨hsuits, hnone⟩ | ⟨hsuits, s, hs, haims⟩ | ⟨e, he⟩
  · refine .nowhere hsuits (hvisit.trans ?_)
    simp [hnone, Except.map, actOn, writeAll, same]
  · cases hwrite : u.writeChild s w with
    | error e =>
      refine .fails (.refused "set" (Place.text ⟨before, f⟩) e) (hvisit.trans ?_)
      simp [hs, Except.map, actOn, writeAll, hwrite, same]
    | ok v =>
      obtain ⟨d, hput⟩ := Value.exists_put? hr v
      refine .written hsuits haims hwrite hput (hvisit.trans ?_)
      simp [hs, Except.map, actOn, writeAll, hwrite, hput]
  · refine .fails e (hvisit.trans ?_)
    simp [he, Except.map, same]

/-- A call leaves at its location what `done` tells if it succeeds, and what `failed` tells if
it does not. -/
def Makes (done failed : Value → Prop) (call : Progress → Option Visited) (loc : Location)
    (r : Progress) : Prop :=
  (∃ u' r', done u' ∧ r.doc.put? loc u' = some r'.doc ∧ call r = some (.ok r')) ∨
    ∃ u' o, failed u' ∧ r.doc.put? loc u' = some o.doc ∧ o.error.isSome ∧ call r = some (.error o)

namespace Makes

variable {done failed done' failed' : Value → Prop} {call call' : Progress → Option Visited}

theorem mono (h : Makes done failed call loc r) (hdone : ∀ u', done u' → done' u')
    (hfailed : ∀ u', failed u' → failed' u') : Makes done' failed' call loc r := by
  rcases h with ⟨u', r', hu', hput, hcall⟩ | ⟨u', o, hu', hput, ho, hcall⟩
  · exact Or.inl ⟨u', r', hdone u' hu', hput, hcall⟩
  · exact Or.inr ⟨u', o, hfailed u' hu', hput, ho, hcall⟩

theorem stays (hu : r.doc.pointer? loc = some u) (hdone : done u)
    (hcall : call r = some (.ok r)) : Makes done failed call loc r :=
  Or.inl ⟨u, r, hdone, Value.put?_pointer? hu, hcall⟩

theorem fails {e : UpdateError} (hu : r.doc.pointer? loc = some u) (hfailed : failed u)
    (hcall : call r = some (.error (r.finish (some e)))) : Makes done failed call loc r :=
  Or.inr ⟨u, r.finish (some e), hfailed, Value.put?_pointer? hu, rfl, hcall⟩

/-- What a call makes of a child, it makes in the container. -/
theorem parent (hu : r.doc.pointer? loc = some u) (h : Makes done failed call (loc ++ [s]) r)
    (hsame : call' r = call r) :
    Makes (fun u' => ∃ c', done c' ∧ u.putStep? s c' = some u')
      (fun u' => ∃ c', failed c' ∧ u.putStep? s c' = some u') call' loc r := by
  rcases h with ⟨c', r', hc', hput, hcall⟩ | ⟨c', o, hc', hput, ho, hcall⟩
  · rw [Value.put?_snoc hu] at hput
    obtain ⟨u', hu', hput⟩ := Option.bind_eq_some_iff.mp hput
    exact Or.inl ⟨u', r', ⟨c', hc', hu'⟩, hput, hsame.trans hcall⟩
  · rw [Value.put?_snoc hu] at hput
    obtain ⟨u', hu', hput⟩ := Option.bind_eq_some_iff.mp hput
    exact Or.inr ⟨u', o, ⟨c', hc', hu'⟩, hput, ho, hsame.trans hcall⟩

/-- A call that is made after the node at its location has been exchanged. -/
theorem after_put {d : Value} (hput : r.doc.put? loc u = some d)
    (h : Makes done failed call' loc { r with doc := d })
    (hsame : call r = call' { r with doc := d }) : Makes done failed call loc r := by
  rcases h with ⟨u', r', hu', hput', hcall⟩ | ⟨u', o, hu', hput', ho, hcall⟩
  · rw [Value.put?_put? hput] at hput'
    exact Or.inl ⟨u', r', hu', hput', hsame.trans hcall⟩
  · rw [Value.put?_put? hput] at hput'
    exact Or.inr ⟨u', o, hu', hput', ho, hsame.trans hcall⟩

end Makes

theorem Fresh.scaffold (h : Fresh f u) (rest : Path) : Scaffold (f :: rest) u := by
  cases h with
  | object name => exact .object name rest
  | array forward => exact .array rest forward

theorem Fresh.names_nodup (h : Fresh f u) : u.names.Nodup := by
  cases h <;> exact List.nodup_nil

theorem Fresh.single (h : Fresh f u) : single f := by
  cases h <;> rfl

/-- A member that is written where there is none comes at the end. -/
theorem append_of_writeChild (hk : u.kind.isJson) (hs : u.step? s = none)
    (h : u.writeChild s c = .ok v) :
    ∃ ms name, u = .object ms ∧ s = .key name ∧ name ∉ ms.map (·.1) ∧
      v = .object (ms ++ [(name, c)]) := by
  rcases Value.writeChild_cases h with hput | ⟨name, rfl, hadd⟩
  · obtain ⟨b, hb⟩ := Value.exists_step? hput
    rw [hs] at hb
    cases hb
  · cases hadd with
    | object missing => exact ⟨_, _, rfl, rfl, missing, rfl⟩
    | table => cases hk

theorem putStep?_append {ms : Members} {name : String} (missing : name ∉ ms.map (·.1))
    (c c' : Value) : (Value.object (ms ++ [(name, c)])).putStep? (.key name) c' =
      some (.object (ms ++ [(name, c')])) := by
  have replaced : Members.replace name c' (ms ++ [(name, c)]) = ms ++ [(name, c')] := by
    induction ms with
    | nil => simp [Members.replace]
    | cons m ms ih =>
      obtain ⟨k, b⟩ := m
      simp only [List.map_cons, List.mem_cons, not_or] at missing
      simp [Members.replace, Ne.symm missing.1, ih missing.2]
  rw [← replaced]
  exact Value.putStep?_eq_some_iff.mpr (.member (by simp))

/-- Only a name aims at a member. -/
theorem eq_child_of_aims {name : String} {n : Nat} (hf : single f)
    (haims : ∀ t, f.Aims n t ↔ t = .key name) : f = .child name := by
  have hname := (haims (.key name)).mpr rfl
  cases f with
  | child other => rw [Step.key.inj hname]
  | nth i =>
    obtain ⟨m, -, hm⟩ := hname
    cases hm
  | _ => cases hf

theorem Fresh.built {v : Value} (h : Fresh f u) (haims : ∀ t, f.Aims u.extent t ↔ t = s)
    (hwrite : u.writeChild s w = .ok v) : Built w [f] v := by
  cases h with
  | object name =>
    obtain rfl := (haims (.key name)).mp rfl
    cases hwrite
    exact .member name .here
  | @array i forward =>
    obtain ⟨n, hn, rfl⟩ := (haims s).mpr rfl
    obtain rfl : n = i.toInt.toNat := by
      have hneg : ¬i.toInt < 0 := Int.not_lt.mpr forward
      simp only [normalizeIndex, hneg, if_false, Option.ite_none_right_eq_some] at hn
      exact (Option.some.inj hn.2.2).symm
    rw [Value.writeChild, if_pos (by simp)] at hwrite
    cases hwrite
    rw [List.replicate_succ', List.set_append_right _ _ (by simp)]
    simpa using Built.element (w := w) forward

theorem visit_across [Libraries] (w : Value) (before : List Fragment) (hf : single f) :
    visit (.set w) false before (f :: g :: rest) =
      across (.set w) ⟨before, f⟩ g (visit (.set w) false (before ++ [f]) (g :: rest)) := by
  cases f with
  | child name | nth i => rfl
  | _ => cases hf

/-- Below a container that has just been created, all is created for the path. -/
theorem visit_builds [Libraries] (w : Value) (rest : Path) (hrest : ∀ g ∈ rest, single g)
    (before : List Fragment) (hu : Fresh f u) (hr : r.doc.pointer? loc = some u) :
    Makes (Built w (f :: rest)) (Scaffold (f :: rest)) (visit (.set w) false before (f :: rest) loc)
      loc r := by
  induction rest generalizing f before loc r u with
  | nil =>
    cases landing w before hu.single hr with
    | nowhere hsuits => exact absurd hu.suits (by simp [hsuits])
    | fails e hends => exact .fails hr (hu.scaffold []) hends
    | written _ haims hwrite hput hends =>
      exact Or.inl ⟨_, _, hu.built haims hwrite, hput, hends⟩
  | cons g rest ih =>
    rw [visit_across w before hu.single]
    cases crossing w before hu.single g (visit (.set w) false (before ++ [f]) (g :: rest)) hr with
    | nowhere hsuits => exact absurd hu.suits (by simp [hsuits])
    | fails e hends => exact .fails hr (hu.scaffold (g :: rest)) hends
    | child _ _ hs hinner => exact absurd hinner (by simp [hu.not_isContainer hs])
    | @created s c v d _ haims hs hnew hwrite hput hgoes =>
      have hk : u.kind.isJson := by cases hu <;> rfl
      obtain ⟨ms, name, rfl, rfl, hmissing, rfl⟩ := append_of_writeChild hk hs hwrite
      obtain rfl := eq_child_of_aims hu.single haims
      obtain rfl : ms = [] := by cases hu; rfl
      have hd := Value.pointer?_put? hput
      have hchild : ({ r with doc := d } : Progress).doc.pointer? (loc ++ [.key name]) = some c :=
        Value.pointer?_snoc_of_step? hd (Value.step?_writeChild hwrite)
      have below := ih (fun h hh => hrest h (List.mem_cons_of_mem g hh)) (before ++ [.child name])
        (fresh_of_fresh hnew) hchild
      refine ((below.parent hd rfl).after_put hput hgoes).mono ?_ ?_
      all_goals
        rintro u' ⟨c', hc', hput'⟩
        rw [putStep?_append hmissing, Option.some.injEq] at hput'
        exact hput' ▸ .member name hc'

/-- What a set makes of the value to one of whose places its last name or position leads. -/
theorem visit_writes_last [Libraries] (w : Value) (hf : single f) (before : List Fragment)
    (hu : u.Plain) (hr : r.doc.pointer? loc = some u) :
    Makes (Written w [f] u) (Abandoned [f] u) (visit (.set w) false before [f] loc) loc r := by
  cases landing w before hf hr with
  | nowhere _ hends => exact .stays hr (Or.inl rfl) hends
  | fails e hends => exact .fails hr (Or.inl rfl) hends
  | @written s v d _ haims hwrite hput hends =>
    refine Or.inl ⟨_, _, Or.inr ?_, hput, hends⟩
    cases hs : u.step? s with
    | some c =>
      left
      have hput' : u.putStep? s w = some v := by
        obtain ⟨v', hv'⟩ := Value.exists_putStep? hs w
        have hwrite' := Value.writeChild_of_putStep? (Value.formed_iff.mp hu).1 hv'
        rw [hwrite, Except.ok.injEq] at hwrite'
        rwa [hwrite']
      refine ⟨[s], c, .last ((haims s).mpr rfl) hs, ?_⟩
      rw [Value.put?_cons, hs]
      exact hput'
    | none =>
      right
      obtain ⟨ms, name, rfl, rfl, hmissing, rfl⟩ :=
        append_of_writeChild (Value.formed_iff.mp hu).1 hs hwrite
      obtain rfl := eq_child_of_aims hf haims
      exact .intro rfl (Or.inl ⟨rfl, rfl, rfl⟩) hmissing .here rfl

/-- What a set by names and positions makes of the value where it starts. -/
theorem visit_writes [Libraries] (w : Value) (hf : single f) (rest : Path)
    (hrest : ∀ g ∈ rest, single g)
    (before : List Fragment) (hu : u.Plain) (hr : r.doc.pointer? loc = some u) :
    Makes (Written w (f :: rest) u) (Abandoned (f :: rest) u)
      (visit (.set w) false before (f :: rest) loc) loc r := by
  induction rest generalizing f before loc r u with
  | nil => exact visit_writes_last w hf before hu hr
  | cons g rest ih =>
    have hmore : ∀ h ∈ rest, single h := fun h hh => hrest h (List.mem_cons_of_mem g hh)
    rw [visit_across w before hf]
    cases crossing w before hf g (visit (.set w) false (before ++ [f]) (g :: rest)) hr with
    | nowhere _ hends => exact .stays hr (Or.inl rfl) hends
    | fails e hends => exact .fails hr (Or.inl rfl) hends
    | @child s c _ haims hs hinner hgoes =>
      have below := ih (hrest g List.mem_cons_self) hmore (before ++ [f]) (Value.formed_step? hu hs)
        (Value.pointer?_snoc_of_step? hr hs)
      have haim := (haims s).mpr rfl
      refine (below.parent hr hgoes).mono ?_ ?_
      · rintro u' ⟨c', hc', hput⟩
        exact hc'.cons haim hs hinner hput
      · rintro u' ⟨c', hc', hput⟩
        exact hc'.cons haim hs hinner hput
    | @created s c v d _ haims hs hnew hwrite hput hgoes =>
      obtain ⟨ms, name, rfl, rfl, hmissing, rfl⟩ :=
        append_of_writeChild (Value.formed_iff.mp hu).1 hs hwrite
      obtain rfl := eq_child_of_aims hf haims
      have hd := Value.pointer?_put? hput
      have hchild : ({ r with doc := d } : Progress).doc.pointer? (loc ++ [.key name]) = some c :=
        Value.pointer?_snoc_of_step? hd (Value.step?_writeChild hwrite)
      have below := visit_builds w rest hmore (before ++ [.child name]) (fresh_of_fresh hnew)
        hchild
      refine ((below.parent hd rfl).after_put hput hgoes).mono ?_ ?_
      · rintro u' ⟨c', hc', hput'⟩
        rw [putStep?_append hmissing, Option.some.injEq] at hput'
        exact Or.inr (Or.inr
          (.intro rfl (Or.inl ⟨rfl, rfl, rfl⟩) hmissing hc' (congrArg some hput')))
      · rintro u' ⟨c', hc', hput'⟩
        rw [putStep?_append hmissing, Option.some.injEq] at hput'
        exact Or.inr (.intro rfl (Or.inl ⟨rfl, rfl, rfl⟩) hmissing hc' (congrArg some hput'))

end Update
end DocPath

namespace DocPath.Path

open Update (single)

theorem flat_of_single {q : Path} (h : ∀ f ∈ q, single f) : q.Flat := by
  intro f hf
  have hsingle := h f hf
  cases f with
  | child name | nth i => exact ⟨rfl, rfl⟩
  | _ => cases hsingle

theorem mem_nodes_of_leadsTo [Libraries] {q : Path} (hq : ∀ f ∈ q, single f) {doc : Value}
    (hd : doc.Plain) {l : Location} {c : Value} (h : q.LeadsTo doc l c) :
    (l, c) ∈ nodes .parentsFirst doc (.root :: q) ([], doc) := by
  rcases h with ⟨rfl, rfl, rfl⟩ | h
  · rw [nodes_itself (by decide)]
    exact List.mem_singleton_self _
  · cases q with
    | nil => cases h
    | cons f rest =>
      rw [nodes_root]
      exact (mem_nodes_iff_selects (flat_of_single hq) .parentsFirst doc (hd.plainTo _) [] l c).mpr
        ⟨l, rfl, h⟩

/-- To delete a member that has been appended gives the document back. -/
theorem undo_append {doc doc' : Value} {l : Location} {ms : Members} {name : String} {c : Value}
    (hl : doc.pointer? l = some (.object ms)) (missing : name ∉ ms.map (·.1))
    (hput : doc.put? l (.object (ms ++ [(name, c)])) = some doc') :
    ∃ v, doc'.pointer? l = some v ∧ doc'.put? l (v.removeMember name).1 = some doc := by
  refine ⟨_, Value.pointer?_put? hput, ?_⟩
  have erased : Members.erase name (ms ++ [(name, c)]) = ms := by
    rw [Members.erase, List.eraseP_append_right]
    · simp
    · intro m hm hname
      exact missing (List.mem_map.mpr ⟨m, hm, by simpa using hname⟩)
  rw [Value.put?_put? hput, Value.removeMember, erased]
  exact Value.put?_pointer? hl

/-- A set by names and positions touches one place at most. If it succeeds, it has left the
document as it was, written its value where the path leads, or appended one member to one object
on the way. If it fails, it has left the document as it was or appended one member that holds
nothing but containers created for the rest of the path; to delete that member gives the document
back as it was. -/
theorem set_touches_one [Libraries] {steps : Path} (hne : steps ≠ [])
    (hsteps : ∀ f ∈ steps, single f) {doc : Value} (hd : doc.Plain) (w : Value) :
    let o := Path.set (.root :: steps) w doc
    let selected (q : Path) : List Node := nodes .parentsFirst doc (.root :: q) ([], doc)
    let appended (created : Path → Value → Prop) : Prop :=
      ∃ before name after l ms c, steps = before ++ .child name :: after ∧
        (l, .object ms) ∈ selected before ∧ name ∉ ms.map (·.1) ∧ created after c ∧
        doc.put? l (.object (ms ++ [(name, c)])) = some o.doc ∧
        ∃ v, o.doc.pointer? l = some v ∧ o.doc.put? l (v.removeMember name).1 = some doc
    (o.error = none → o.doc = doc ∨ (∃ n ∈ selected steps, doc.put? n.1 w = some o.doc) ∨
      appended (Built w)) ∧
    (o.error ≠ none → o.doc = doc ∨ appended Scaffold) := by
  intro o selected appended
  obtain ⟨f, rest, rfl⟩ := List.exists_cons_of_ne_nil hne
  obtain ⟨last, hlast⟩ : ∃ last, (.root :: f :: rest : Path).getLast? = some last :=
    ⟨_, List.getLast?_eq_some_getLast (List.cons_ne_nil _ _)⟩
  have hallows : (Action.set w).allows last := by
    have hmem : last ∈ f :: rest := List.mem_of_getLast? (by simpa using hlast)
    have hsingle := hsteps last hmem
    cases last with
    | child name | nth i => rfl
    | _ => cases hsingle
  -- what is told by steps from the document, told by the nodes that the path selects
  have grown : ∀ {created : Path → Value → Prop} {d : Value}, d = o.doc →
      Appended created (f :: rest) doc d → appended created := by
    rintro created d rfl ⟨hsplit, hleads, hmissing, hnew, hput⟩
    have hmem := mem_nodes_of_leadsTo
      (fun g hg => hsteps g (hsplit ▸ List.mem_append_left _ hg)) hd hleads
    have hroot : Node.At doc ([], doc) := rfl
    have hat := at_of_mem_nodes hd.wellFormed .parentsFirst _ hroot hmem
    exact ⟨_, _, _, _, _, _, hsplit, hmem, hmissing, hnew, hput, undo_append hat hmissing hput⟩
  have hvisit : Update.visit (.set w) false [] (.root :: f :: rest) [] ⟨doc, []⟩ =
      Update.visit (.set w) false [.root] (f :: rest) [] ⟨doc, []⟩ := rfl
  have start : (⟨doc, []⟩ : Update.Progress).doc.pointer? [] = some doc := rfl
  rcases Update.visit_writes w (hsteps f List.mem_cons_self) rest
      (fun g hg => hsteps g (List.mem_cons_of_mem f hg)) [.root] hd start with
    ⟨u, r', hdone, hput, hcall⟩ | ⟨u, o', hfailed, hput, ho, hcall⟩
  · have hend : o = _ := update_of_visit hlast hallows (hvisit.trans hcall)
    have hdoc : u = o.doc := by
      rw [hend]
      exact Option.some.inj hput
    refine ⟨fun _ => ?_, fun hne => absurd (congrArg Update.Outcome.error hend) hne⟩
    rcases hdone with rfl | ⟨l, c, hsel, hw⟩ | happ
    · exact Or.inl hdoc.symm
    · have hmem := mem_nodes_of_leadsTo hsteps hd (Or.inr hsel)
      exact Or.inr (Or.inl ⟨(l, c), hmem, hdoc ▸ hw⟩)
    · exact Or.inr (Or.inr (grown hdoc happ))
  · have hend : o = o' := update_of_visit hlast hallows (hvisit.trans hcall)
    have hdoc : u = o.doc := by
      rw [hend]
      exact Option.some.inj hput
    refine ⟨fun hnone => ?_, fun _ => ?_⟩
    · rw [← hend, hnone] at ho
      cases ho
    · rcases hfailed with rfl | happ
      · exact Or.inl hdoc.symm
      · exact Or.inr (grown hdoc happ)

/-- In `{"a":{}}` a list is created and nulls are put in the way of the rest of the path. -/
theorem set_touches_one_of_padding :
    let steps : Path := [.child "a", .child "b", .nth 1, .child "c"]
    let p : Path := .root :: steps
    let doc : Value := .object [("a", .object [])]
    let d : Value := .object [("a", .object [("b", .array [.null, .null])])]
    steps ≠ [] ∧ (∀ f ∈ steps, single f) ∧ doc.Plain ∧
      p.set (.int 1) doc = ⟨d, [], some (.blocked "null" "$.a.b[1]")⟩ ∧
      ∃ before name after l ms c, steps = before ++ .child name :: after ∧
        name ∉ ms.map (·.1) ∧ Scaffold after c ∧
        doc.put? l (.object (ms ++ [(name, c)])) = some d ∧
        ∃ v, d.pointer? l = some v ∧ d.put? l (v.removeMember name).1 = some doc := by
  intro steps p doc d
  have hne : steps ≠ [] := List.cons_ne_nil _ _
  have hsteps : ∀ f ∈ steps, single f := by decide
  have hd : doc.Plain := by decide
  have hvisit : Update.visit (.set (.int 1)) false [] p [] ⟨doc, []⟩ =
      some (.error ⟨d, [], some (.blocked "null" "$.a.b[1]")⟩) := rfl
  have hset : p.set (.int 1) doc = ⟨d, [], some (.blocked "null" "$.a.b[1]")⟩ :=
    update_of_visit rfl rfl hvisit
  have hfailed := (set_touches_one hne hsteps hd (.int 1)).2
  rw [hset] at hfailed
  rcases hfailed nofun with hsame | ⟨before, name, after, l, ms, c, hsplit, -, hmissing, hnew, hput,
    hundo⟩
  · have height : d.height = doc.height := congrArg Value.height hsame
    exact absurd height (by decide)
  · exact ⟨hne, hsteps, hd, hset, before, name, after, l, ms, c, hsplit, hmissing, hnew, hput,
      hundo⟩

end DocPath.Path
