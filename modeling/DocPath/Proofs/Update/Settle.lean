import DocPath.Proofs.Query.Aims
import DocPath.Proofs.Update.Choice

/-!
# Writing wherever a path aims

A path is settled at a value when everything that it selects there has been written. The last
fragment settles itself by its writes. Above it, calls go from child to child while the value
changes; a child that has been settled stays so, and none gains a selected place that is not
written.
-/

namespace DocPath

open Value (Alike Writes)

/-- Containers of the kind that a name or position needs. -/
def Fragment.suits (v : Value) : Fragment → Bool
  | .child _ => v.isKeyed
  | .nth _ => v.isOrdered
  | _ => false

/-- A path of names and positions meets only containers of the kinds that these need. -/
def Path.Fits : Path → Value → Prop
  | [], _ => True
  | f :: rest, v => f.suits v ∧
      ∀ s c, f.Aims v.extent s → v.step? s = some c → c.isContainer → Fits rest c

namespace Update

open DocPath.Path (Fits containers containers_sublist)

/-- All that a path selects below a value is `w`. -/
def Fulfilled (q : Path) (w v : Value) : Prop := ∀ l c, Selects q v l c → c = w

/-- What a path selects below a value, it selects below the other. -/
def StillSelected (q : Path) (v v' : Value) : Prop :=
  ∀ l c, Selects q v l c → ∃ c', Selects q v' l c'

/-- A value has changed so that a path selects no less, and nothing else than `w` if it did
so before. -/
structure Grows (q : Path) (w v v' : Value) : Prop where
  kind : v'.kind = v.kind
  selected : StillSelected q v v'
  fulfilled : Fulfilled q w v → Fulfilled q w v'

/-- `w` has been written wherever a path aims below a value. -/
structure Settled (q : Path) (w v v' : Value) : Prop where
  kind : v'.kind = v.kind
  plain : v'.PlainTo q.length
  selected : StillSelected q v v'
  written : Fulfilled q w v'
  reached : Fits q v → ∃ l, Selects q v' l w
  untouched : (∀ f ∈ q, single f) → ¬Fits q v → v' = v

theorem Settled.grows {q : Path} {w v v' : Value} (h : Settled q w v v') : Grows q w v v' :=
  ⟨h.kind, h.selected, fun _ => h.written⟩

theorem Grows.refl (q : Path) (w v : Value) : Grows q w v v :=
  ⟨rfl, fun _ c h => ⟨c, h⟩, id⟩

theorem Grows.trans {q : Path} {w v v' v'' : Value} (h : Grows q w v v') (h' : Grows q w v' v'') :
    Grows q w v v'' where
  kind := h'.kind.trans h.kind
  selected l c hc := by
    obtain ⟨c', hc'⟩ := h.selected l c hc
    exact h'.selected l c' hc'
  fulfilled hf := h'.fulfilled (h.fulfilled hf)

/-- A call leaves a value with a property at a location, or it fails. -/
def Leaves (P : Value → Prop) (call : Progress → Option Visited) (loc : Location)
    (r : Progress) : Prop :=
  (∃ u' r', P u' ∧ r.doc.put? loc u' = some r'.doc ∧ call r = some (.ok r')) ∨
    ∃ o, call r = some (.error o) ∧ o.error.isSome

namespace Leaves

variable {P Q : Value → Prop} {call call' : Progress → Option Visited} {loc : Location}
  {r : Progress} {u : Value}

theorem mono (h : Leaves P call loc r) (hPQ : ∀ u', P u' → Q u') : Leaves Q call loc r := by
  rcases h with ⟨u', r', hP, hput, hcall⟩ | hfail
  · exact Or.inl ⟨u', r', hPQ u' hP, hput, hcall⟩
  · exact Or.inr hfail

theorem stays (hu : r.doc.pointer? loc = some u) (hP : P u) :
    Leaves P (fun r => some (.ok r)) loc r :=
  Or.inl ⟨u, r, hP, Value.put?_pointer? hu, rfl⟩

theorem fails {o : Outcome} (hcall : call r = some (.error o)) (ho : o.error.isSome) :
    Leaves P call loc r :=
  Or.inr ⟨o, hcall, ho⟩

theorem andThen (h : Leaves P call loc r)
    (h' : ∀ u' r', P u' → r'.doc.pointer? loc = some u' → Leaves Q call' loc r') :
    Leaves Q (fun r => (call r).bind (Visited.andThen · call')) loc r := by
  rcases h with ⟨u', r', hP, hput, hcall⟩ | ⟨o, hcall, ho⟩
  · rcases h' u' r' hP (Value.pointer?_put? hput) with
      ⟨u'', r'', hQ, hput', hcall'⟩ | ⟨o, hcall', ho⟩
    · rw [Value.put?_put? hput] at hput'
      exact Or.inl ⟨u'', r'', hQ, hput', by simpa [hcall, Visited.andThen] using hcall'⟩
    · exact fails (by simpa [hcall, Visited.andThen] using hcall') ho
  · exact fails (by simp [hcall, Visited.andThen]) ho

/-- What a call leaves at a child, it leaves in the container. -/
theorem parent {s : Step} (hu : r.doc.pointer? loc = some u)
    (h : Leaves P call (loc ++ [s]) r) :
    Leaves (fun u' => ∃ c', P c' ∧ u.putStep? s c' = some u') call loc r := by
  rcases h with ⟨c', r', hP, hput, hcall⟩ | hfail
  · rw [Value.put?_snoc hu] at hput
    obtain ⟨u', hu', hput⟩ := Option.bind_eq_some_iff.mp hput
    exact Or.inl ⟨u', r', ⟨c', hP, hu'⟩, hput, hcall⟩
  · exact Or.inr hfail

end Leaves

/-- A call settles a path at every value that is plain as far down as the path goes. -/
def Settles (q : Path) (w : Value) (call : Location → Progress → Option Visited) : Prop :=
  ∀ loc (r : Progress) u, r.doc.pointer? loc = some u → u.PlainTo q.length →
    Leaves (Settled q w u) (call loc) loc r

/-- The calls for some children of a value have been made. -/
structure Advances (q : Path) (w : Value) (ss : List Step) (u u' : Value) : Prop where
  alike : Alike u u'
  plain : u'.PlainTo (q.length + 1)
  children (s : Step) : Option.Rel (Grows q w) (u.step? s) (u'.step? s)
  done : ∀ s ∈ ss, ∀ c, u'.step? s = some c → Fulfilled q w c

namespace Advances

variable {q rest : Path} {w u u' u'' : Value} {ss ts : List Step} {f g : Fragment}

theorem refl (hu : u.PlainTo (q.length + 1)) : Advances q w [] u u where
  alike := .refl u
  plain := hu
  children s := by
    cases u.step? s with
    | none => exact .none
    | some c => exact .some (.refl q w c)
  done := nofun

theorem trans (h : Advances q w ss u u') (h' : Advances q w ts u' u'') :
    Advances q w (ss ++ ts) u u'' where
  alike := h.alike.trans h'.alike
  plain := h'.plain
  children s := by
    have first := h.children s
    have second := h'.children s
    revert first second
    cases u.step? s <;> cases u'.step? s <;> cases u''.step? s <;> intro first second
    all_goals cases first
    all_goals cases second
    · exact .none
    · exact .some (.trans ‹_› ‹_›)
  done s hs c hc := by
    rcases List.mem_append.mp hs with hs | hs
    · have second := h'.children s
      rw [hc] at second
      cases hb : u'.step? s with
      | none =>
        rw [hb] at second
        cases second
      | some b =>
        rw [hb] at second
        cases second with
        | some hgrows => exact hgrows.fulfilled (h.done s hs b hb)
    · exact h'.done s hs c hc

theorem of_writes {s : Step} {c c' : Value} (hu : u.PlainTo (q.length + 1))
    (hc : u.step? s = some c) (h : Settled q w c c') (hw : Writes [s] c' u u') :
    Advances q w [s] u u' where
  alike := hw.alike
  plain := hu.writes h.plain hw
  children t := by
    by_cases ht : t = s
    · rw [ht, hc, hw.step?_self]
      exact .some h.grows
    · rw [hw.step?_of_ne ht]
      cases u.step? t with
      | none => exact .none
      | some b => exact .some (.refl q w b)
  done t ht b hb := by
    obtain rfl := List.mem_singleton.mp ht
    obtain rfl := Option.some.inj (hw.step?_self.symm.trans hb)
    exact h.written

theorem selected (h : Advances (g :: rest) w ss u u') :
    StillSelected (f :: g :: rest) u u' := by
  intro l c hsel
  cases hsel with
  | @through _ _ _ _ b _ s l haims hstep hinner hmore =>
    have hchild := h.children s
    rw [hstep] at hchild
    cases hb : u'.step? s with
    | none =>
      rw [hb] at hchild
      cases hchild
    | some b' =>
      rw [hb] at hchild
      cases hchild with
      | some hgrows =>
        obtain ⟨c', hc'⟩ := hgrows.selected l c hmore
        refine ⟨c', .through ?_ hb ?_ hc'⟩
        · rw [Value.extent_of_alike h.alike]
          exact haims
        · rw [Value.isContainer_of_kind hgrows.kind]
          exact hinner

theorem fulfilled (h : Advances (g :: rest) w ss u u')
    (hall : ∀ s c, f.Aims u.extent s → u.step? s = some c → c.isContainer → s ∈ ss) :
    Fulfilled (f :: g :: rest) w u' := by
  intro l c hsel
  cases hsel with
  | @through _ _ _ _ b' _ s l haims hstep hinner hmore =>
    have hchild := h.children s
    rw [hstep] at hchild
    rw [Value.extent_of_alike h.alike] at haims
    cases hb : u.step? s with
    | none =>
      rw [hb] at hchild
      cases hchild
    | some b =>
      rw [hb] at hchild
      cases hchild with
      | some hgrows =>
        rw [Value.isContainer_of_kind hgrows.kind] at hinner
        exact h.done s (hall s b haims hb hinner) b' hstep l c hmore

end Advances

variable {w u : Value} {q rest : Path} {f g next : Fragment} {loc : Location}
  {before : List Fragment} {call : Location → Progress → Option Visited}

/-- Calls for children that are there go on from one to the next, even if a child comes twice. -/
theorem inTurn_advances (h : Settles q w call) (steps : List Step) (hu : u.PlainTo (q.length + 1))
    (hsteps : ∀ s ∈ steps, ∃ c, u.step? s = some c) (r : Progress)
    (hr : r.doc.pointer? loc = some u) :
    Leaves (Advances q w steps u) (inTurn call (steps.map fun s => loc ++ [s])) loc r := by
  induction steps generalizing u r with
  | nil => exact .stays hr (.refl hu)
  | cons s steps ih =>
    obtain ⟨c, hc⟩ := hsteps s List.mem_cons_self
    obtain ⟨hk, hn, hplain⟩ := hu
    have child := h (loc ++ [s]) r c (Value.pointer?_snoc_of_step? hr hc) (hplain s c hc)
    have first : Leaves (Advances q w [s] u) (call (loc ++ [s])) loc r := by
      refine (child.parent hr).mono fun u' => ?_
      rintro ⟨c', hsettled, hput⟩
      exact .of_writes ⟨hk, hn, hplain⟩ hc hsettled (Value.writes_of_putStep? hk hn hput)
    refine first.andThen fun u' r' hadv hr' => ?_
    have hthere : ∀ t ∈ steps, ∃ c, u'.step? t = some c := by
      intro t ht
      obtain ⟨b, hb⟩ := hsteps t (List.mem_cons_of_mem s ht)
      have hchild := hadv.children t
      rw [hb] at hchild
      cases hb' : u'.step? t with
      | none =>
        rw [hb'] at hchild
        cases hchild
      | some b' => exact ⟨b', rfl⟩
    exact (ih hadv.plain hthere r' hr').mono fun u'' h'' => hadv.trans h''

theorem writeAll_writes {p : Place} (steps : List Step) (c : Changed) (hk : c.value.kind.isJson)
    (hn : c.value.names.Nodup) (hok : (writeAll p false w steps c).2 = none) :
    Writes steps w c.value (writeAll p false w steps c).1.value := by
  induction steps generalizing c with
  | nil => exact .none w hn
  | cons s steps ih =>
    cases h : c.value.writeChild s w with
    | error e => simp [writeAll, h] at hok
    | ok v =>
      have hv := Value.writes_of_writeChild hk hn h
      simp only [writeAll, h, Bool.false_eq_true, if_false] at hok ⊢
      exact hv.cons (ih { c with value := v, changed := true } (hv.alike.kind ▸ hk) hv.names hok)

theorem isKeyed_of_step? {v c : Value} {name : String} (h : v.step? (.key name) = some c) :
    v.isKeyed := by
  cases v with
  | object ms | keyed kind ms => rfl
  | _ => cases h

theorem singleStep_nth {a : Action} {i : Int64} {n : Nat} (ho : u.isOrdered)
    (hn : normalizeIndex i u.extent = some n) :
    singleStep a ⟨before, .nth i⟩ u = .ok (some (.index n)) := by
  simp only [singleStep, ho, if_true, Value.containerLen?_of_isOrdered ho, hn]

theorem targets_nth [Libraries] {a : Action} {i : Int64} {doc : Value} {n : Nat} (ho : u.isOrdered)
    (hn : normalizeIndex i u.extent = some n) :
    targets a ⟨before, .nth i⟩ doc u = .ok [.index n] := by
  simp only [targets, singleStep_nth ho hn, bind, Except.bind]
  rfl

/-- Whatever the last fragment selects after the writes has been written. -/
theorem mem_targets [Libraries] (hallows : (Action.set w).allows f) {doc u' c : Value}
    {steps : List Step}
    {s : Step} (hk : u.kind.isJson) (htargets : targets (.set w) ⟨before, f⟩ doc u = .ok steps)
    (hw : Writes steps w u u') (haims : f.Aims u'.extent s) (hstep : u'.step? s = some c) :
    s ∈ steps := by
  rw [Value.extent_of_alike hw.alike] at haims
  have keyed : ∀ name, s = .key name → u.isKeyed := by
    rintro name rfl
    rw [← Value.isKeyed_of_kind hw.alike.kind]
    exact isKeyed_of_step? hstep
  have ordered : ∀ n, s = .index n → u.isOrdered := by
    rintro n rfl
    rw [← Value.isOrdered_of_kind hw.alike.kind]
    exact Value.isOrdered_of_step? hstep
  cases f with
  | child name =>
    obtain rfl : s = .key name := haims
    simp only [targets, Action.isSet, if_true, keyed name rfl, Except.ok.injEq] at htargets
    exact htargets ▸ List.mem_cons_self
  | nth i =>
    obtain ⟨n, hn, rfl⟩ := haims
    rw [targets_nth (ordered n rfl) hn, Except.ok.injEq] at htargets
    exact htargets ▸ List.mem_cons_self
  | wildcard =>
    by_contra hs
    rw [hw.step?, if_neg hs] at hstep
    simp only [targets, chosen, Except.ok.injEq] at htargets
    exact hs (htargets ▸ List.mem_map_of_mem (f := (·.1)) (Value.mem_entries_of_step? hk hstep))
  | union keys =>
    obtain ⟨k, hmem, haims⟩ := haims
    simp only [targets, Action.isSet, if_true, Except.ok.injEq] at htargets
    rw [← htargets, List.mem_filterMap]
    refine ⟨k, hmem, ?_⟩
    cases k with
    | key name =>
      obtain rfl : s = .key name := haims
      simp only [keyed name rfl, if_true]
    | index i =>
      obtain ⟨n, hn, rfl⟩ := haims
      simp only [ordered n rfl, if_true, Value.containerLen?_of_isOrdered (ordered n rfl), hn,
        Option.map_some]
  | _ => cases hallows

/-- The last fragment writes wherever it aims. -/
theorem settled_of_writes [Libraries] (hallows : (Action.set w).allows f) {doc u' : Value}
    {steps : List Step}
    (hu : u.PlainTo 1) (htargets : targets (.set w) ⟨before, f⟩ doc u = .ok steps)
    (hw : Writes steps w u u') (hnil : steps = [] → u' = u) : Settled [f] w u u' where
  kind := hw.alike.kind
  plain := hu.writes trivial hw
  selected l c hsel := by
    cases hsel with
    | @last _ _ _ s haims hstep =>
      have hthere : ∃ c', u'.step? s = some c' := by
        rw [hw.step?]
        split
        · exact ⟨w, rfl⟩
        · exact ⟨c, hstep⟩
      obtain ⟨c', hc'⟩ := hthere
      exact ⟨c', .last (Value.extent_of_alike hw.alike ▸ haims) hc'⟩
  written l c hsel := by
    cases hsel with
    | last haims hstep =>
      have hmem := mem_targets hallows hu.1 htargets hw haims hstep
      rw [hw.step?, if_pos hmem] at hstep
      exact (Option.some.inj hstep).symm
  reached hfits := by
    have here : ∀ s, f.Aims u.extent s → steps = [s] → ∃ l, Selects [f] u' l w := by
      rintro s haims rfl
      exact ⟨[s], .last (Value.extent_of_alike hw.alike ▸ haims) hw.step?_self⟩
    cases f with
    | child name =>
      have hkeyed : u.isKeyed := hfits.1
      simp only [targets, Action.isSet, if_true, hkeyed, Except.ok.injEq] at htargets
      exact here (.key name) rfl htargets.symm
    | nth i =>
      have hordered : u.isOrdered := hfits.1
      cases hn : normalizeIndex i u.extent with
      | some n =>
        rw [targets_nth hordered hn, Except.ok.injEq] at htargets
        exact here (.index n) ⟨n, hn, rfl⟩ htargets.symm
      | none =>
        simp [targets, singleStep, hordered, Value.containerLen?_of_isOrdered hordered, hn,
          Action.isStrict, bind, Except.bind] at htargets
    | _ => cases hfits.1
  untouched hsingle hfits := by
    refine hnil ?_
    have hsuits : f.suits u = false := by
      by_contra hne
      exact hfits ⟨by simpa using hne, fun _ _ _ _ _ => trivial⟩
    cases f with
    | child name =>
      rw [Fragment.suits] at hsuits
      simp only [targets, Action.isSet, if_true, hsuits, Except.ok.injEq] at htargets
      exact htargets.symm
    | nth i =>
      rw [Fragment.suits] at hsuits
      simp only [targets, singleStep, hsuits, bind, Except.bind, Bool.false_eq_true, if_false,
        Except.ok.injEq] at htargets
      exact htargets.symm
    | _ => cases hsingle _ List.mem_cons_self

theorem act_settles [Libraries] (hallows : (Action.set w).allows f) (hf : f.picks) :
    Settles [f] w (visit (.set w) false before [f]) := by
  intro loc r u hr hu
  have hvisit : visit (.set w) false before [f] loc r =
      some (r.act (.set w) false ⟨before, f⟩ loc) := rfl
  rw [Progress.act, apply_picks hf, applyChildren, actAt, hr] at hvisit
  cases htargets : targets (.set w) ⟨before, f⟩ r.doc u with
  | error e =>
    simp only [htargets, Option.isSome_some, true_or, if_true] at hvisit
    exact .fails hvisit rfl
  | ok steps =>
    simp only [htargets, actOn] at hvisit
    cases herr : (writeAll ⟨before, f⟩ false w steps ⟨u, false, r.seen⟩).2 with
    | some e =>
      simp only [herr, Option.isSome_some, true_or, if_true] at hvisit
      exact .fails hvisit rfl
    | none =>
      have hw := writeAll_writes steps ⟨u, false, r.seen⟩ hu.1 hu.2.1 herr
      obtain ⟨d, hput⟩ := Value.exists_put? hr
        (writeAll ⟨before, f⟩ false w steps ⟨u, false, r.seen⟩).1.value
      simp only [herr, hput] at hvisit
      refine Or.inl ⟨_, _, settled_of_writes hallows hu htargets hw ?_, hput, by simpa using hvisit⟩
      rintro rfl
      rfl

end Update
end DocPath
