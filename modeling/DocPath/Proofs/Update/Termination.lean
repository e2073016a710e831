import DocPath.Builtin
import DocPath.Proofs.Path.Anchored
import DocPath.Proofs.Update.Effect

/-!
# Updates come to an end

A descent goes into the containers that it finds when it arrives. Whatever is written while
it is on its way lies at or below locations that it has left, so that the containers it has
still to call are those that it found, each lower than the one above it. A path that goes
back to the document in its middle breaks this, and such paths are left out.
-/

namespace DocPath.Update

open Value (ChangedAt)

/-- The document is of the given kinds, and so is all that was handed to the rewriting. -/
abbrev Progress.Within (kinds : Kind → Bool) (r : Progress) : Prop :=
  Update.Within kinds r.doc r.seen

def Visited.Within (kinds : Kind → Bool) : Visited → Prop
  | .ok r => r.Within kinds
  | .error _ => True

/-- A visit of a location ends and changes the document nowhere else. -/
def Total (kinds : Kind → Bool) (call : Location → Progress → Option Visited)
    (loc : Location) : Prop :=
  ∀ r : Progress, r.Within kinds →
    ∃ res, call loc r = some res ∧ res.Within kinds ∧ ChangedAt loc r.doc res.doc

variable {kinds : Kind → Bool} {call : Location → Progress → Option Visited} {loc : Location}

theorem Total.andThen {first : Visited} {d : Value} (h : Total kinds call loc)
    (hd : first.Within kinds) (hc : ChangedAt loc d first.doc) :
    ∃ res, first.andThen (call loc) = some res ∧ res.Within kinds ∧
      ChangedAt loc d res.doc := by
  cases first with
  | error o => exact ⟨.error o, rfl, hd, hc⟩
  | ok r =>
    obtain ⟨res, hres, hf, hr⟩ := h r hd
    exact ⟨res, hres, hf, hc.trans hr⟩

/-- Visits of children in turn end, when each of them does. -/
theorem inTurn_total (steps : List Step) (h : ∀ s ∈ steps, Total kinds call (loc ++ [s])) :
    Total kinds (fun loc => inTurn call (steps.map fun s => loc ++ [s])) loc := by
  induction steps with
  | nil => exact fun r hr => ⟨.ok r, rfl, hr, .refl loc r.doc⟩
  | cons s steps ih =>
    intro r hr
    obtain ⟨first, hfirst, hf, hc⟩ := h s List.mem_cons_self r hr
    obtain ⟨res, hres⟩ := (ih fun t ht => h t (List.mem_cons_of_mem s ht)).andThen hf hc.of_snoc
    exact ⟨res, by simpa [inTurn, hfirst] using hres⟩

theorem containerSteps_nodup {v : Value} (h : v.names.Nodup) : (containerSteps v).Nodup := by
  have hsub : List.Sublist (containerSteps v) v.steps := List.filter_sublist.map _
  exact (Value.steps_nodup h).sublist hsub

theorem mem_steps_of_mem_containerSteps {v : Value} {s : Step} (h : s ∈ containerSteps v) :
    s ∈ v.steps := by
  have hsub : List.Sublist (containerSteps v) v.steps := List.filter_sublist.map _
  exact hsub.subset h

/-- Visits of different children of `v` in turn end, when each of them does as long as its
child is as it was. In the document that a call leaves, the children still to be visited
are as they were. -/
theorem inTurn_children {v : Value} (steps : List Step) (hnodup : steps.Nodup)
    (hmem : ∀ s ∈ steps, s ∈ v.steps)
    (h : ∀ s ∈ steps, ∀ r : Progress, r.Within kinds →
      r.doc.pointer? (loc ++ [s]) = v.step? s → ∃ res, call (loc ++ [s]) r = some res ∧
        res.Within kinds ∧ ChangedAt (loc ++ [s]) r.doc res.doc)
    (r : Progress) (u : Value) (hr : r.Within kinds) (hu : r.doc.pointer? loc = some u)
    (hsteps : u.steps = v.steps) (hsame : ∀ s ∈ steps, u.step? s = v.step? s) :
    ∃ res, inTurn call (steps.map fun s => loc ++ [s]) r = some res ∧
      res.Within kinds ∧ ChangedAt loc r.doc res.doc := by
  induction steps generalizing r u with
  | nil => exact ⟨.ok r, rfl, hr, .refl loc r.doc⟩
  | cons s steps ih =>
    obtain ⟨hs, hnodup⟩ := List.nodup_cons.mp hnodup
    have hat : r.doc.pointer? (loc ++ [s]) = v.step? s := by
      rw [Value.pointer?_snoc, hu, Option.bind_some, hsame s List.mem_cons_self]
    obtain ⟨first, hfirst, hf, hc⟩ := h s List.mem_cons_self r hr hat
    cases first with
    | error o => exact ⟨.error o, by simp [inTurn, hfirst, Visited.andThen], hf, hc.of_snoc⟩
    | ok r' =>
      obtain ⟨u', hu', -, hput⟩ := hc.parent hu
      have hsteps' : u'.steps = v.steps := by
        rcases hput with rfl | ⟨w, hw⟩
        · exact hsteps
        · rw [Value.putStep?_steps hw, hsteps]
      have hsame' : ∀ t ∈ steps, u'.step? t = v.step? t := by
        intro t ht
        rcases hput with rfl | ⟨w, hw⟩
        · exact hsame t (List.mem_cons_of_mem s ht)
        · have hts : t ≠ s := fun e => hs (e ▸ ht)
          rw [Value.step?_putStep?_of_ne hw (hsteps ▸ hmem s List.mem_cons_self)
            (hsteps ▸ hmem t (List.mem_cons_of_mem s ht)) hts]
          exact hsame t (List.mem_cons_of_mem s ht)
      obtain ⟨res, hres, hf', hc'⟩ := ih hnodup (fun t ht => hmem t (List.mem_cons_of_mem s ht))
        (fun t ht => h t (List.mem_cons_of_mem s ht)) r' u' hf hu' hsteps' hsame'
      exact ⟨res, by simpa [inTurn, hfirst, Visited.andThen] using hres, hf', hc.of_snoc.trans hc'⟩

/-- A descent ends at every value, when what follows it does. The induction is on the height
of the value. -/
theorem underneath_total (h : ∀ loc, Total kinds call loc) (loc : Location) :
    Total kinds (underneath call) loc := by
  intro r hr
  cases hv : r.doc.pointer? loc with
  | none => exact ⟨.ok r, underneath_of_pointer?_none hv, hr, .refl loc r.doc⟩
  | some v =>
    induction hn : v.height using Nat.strongRecOn generalizing v loc r with
    | ind n ih =>
      subst hn
      have hnames := (Value.formed_iff.mp (Value.formed_pointer? hr.value hv)).2.1
      have child : ∀ s ∈ containerSteps v, ∀ r : Progress, r.Within kinds →
          r.doc.pointer? (loc ++ [s]) = v.step? s →
          ∃ res, underneath call (loc ++ [s]) r = some res ∧
            res.Within kinds ∧ ChangedAt (loc ++ [s]) r.doc res.doc := by
        intro s _ r hr hat
        cases hc : v.step? s with
        | none =>
          exact ⟨.ok r, underneath_of_pointer?_none (hat.trans hc), hr, .refl _ r.doc⟩
        | some c =>
          exact ih c.height (Value.height_lt_of_mem_children (Value.mem_children_of_step? hc))
            (loc ++ [s]) r hr c (hat.trans hc) rfl
      obtain ⟨below, hbelow, hf, hc⟩ := inTurn_children (containerSteps v)
        (containerSteps_nodup hnames) (fun s hs => mem_steps_of_mem_containerSteps hs) child
        r v hr hv rfl fun _ _ => rfl
      obtain ⟨res, hres⟩ := (h loc).andThen hf hc
      exact ⟨res, by simpa [underneath_of_pointer? hv, hbelow] using hres⟩

variable {a : Action} {one : Bool}

theorem act_doc [Libraries] (p : Place) (r : Progress) :
    (r.act a one p loc).doc = (apply a one p r.doc loc r.seen).1.value := by
  simp only [Progress.act]
  split <;> rfl

theorem within_act [Libraries] (p : Place) {r : Progress}
    (h : (apply a one p r.doc loc r.seen).Within kinds) : (r.act a one p loc).Within kinds := by
  simp only [Progress.act]
  split
  · trivial
  · exact h

/-- The step of a name or position ends, when what comes after it does. -/
theorem across_total (json : ∀ k, Kind.isJson k → kinds k) {p : Place} {next : Fragment}
    {onward : Location → Progress → Option Visited} (h : ∀ loc, Total kinds onward loc) :
    Total kinds (across a p next onward) loc := by
  intro r hr
  unfold across
  cases hf : follow a p next r.doc loc with
  | error e => exact ⟨.error (r.finish (some e)), rfl, trivial, .refl loc r.doc⟩
  | ok reached =>
    obtain ⟨doc, reached⟩ := reached
    obtain ⟨hd, hc, hreached⟩ := follow_effect json hr.value hf
    cases reached with
    | none => exact ⟨.ok { r with doc }, rfl, ⟨hd, hr.seen⟩, hc⟩
    | some l =>
      obtain ⟨s, rfl⟩ := hreached l rfl
      obtain ⟨res, hres, hf', hc'⟩ := h (loc ++ [s]) { r with doc } ⟨hd, hr.seen⟩
      exact ⟨res, hres, hf', hc.trans hc'.of_snoc⟩

/-- Visits end when the path does not go back to the document. -/
theorem visit_total [Libraries] (json : ∀ k, Kind.isJson k → kinds k) (ha : a.Keeps kinds)
    (rest : List Fragment) (hrest : ∀ f ∈ rest, f ≠ .root) (before : List Fragment)
    (loc : Location) : Total kinds (visit a one before rest) loc := by
  induction rest generalizing before loc with
  | nil => exact fun r hr => ⟨.ok r, rfl, hr, .refl loc r.doc⟩
  | cons f rest ih =>
    cases rest with
    | nil =>
      intro r hr
      refine ⟨r.act a one ⟨before, f⟩ loc, rfl, within_act _ (within_apply (json _ rfl) ha hr), ?_⟩
      rw [act_doc]
      exact apply_changedAt (json _ rfl) ha hr (hrest f List.mem_cons_self)
    | cons next more =>
      have onward : ∀ loc, Total kinds (visit a one (before ++ [f]) (next :: more)) loc :=
        ih (fun g hg => hrest g (List.mem_cons_of_mem f hg)) (before ++ [f])
      cases f with
      | root => exact absurd rfl (hrest .root List.mem_cons_self)
      | current | bracket => exact onward loc
      | child name | nth i => exact across_total json onward
      | descent => exact underneath_total onward loc
      | wildcard | slice s | union keys | filter template =>
        intro r hr
        simp only [visit]
        cases hv : r.doc.pointer? loc with
        | none => exact ⟨.ok r, rfl, hr, .refl loc r.doc⟩
        | some v => exact inTurn_total _ (fun s _ => onward (loc ++ [s])) r hr

theorem inTurn_some (h : ∀ loc r, ∃ res, call loc r = some res) (locs : List Location)
    (r : Progress) : ∃ res, inTurn call locs r = some res := by
  induction locs generalizing r with
  | nil => exact ⟨.ok r, rfl⟩
  | cons loc locs ih =>
    obtain ⟨first, hfirst⟩ := h loc r
    rw [inTurn, hfirst]
    cases first with
    | error o => exact ⟨.error o, rfl⟩
    | ok r' => exact ih r'

/-- Without descents, visits end whatever is written. -/
theorem visit_of_direct [Libraries] (rest : List Fragment) (hrest : .descent ∉ rest)
    (before : List Fragment)
    (loc : Location) (r : Progress) : ∃ res, visit a one before rest loc r = some res := by
  induction rest generalizing before loc r with
  | nil => exact ⟨.ok r, rfl⟩
  | cons f rest ih =>
    cases rest with
    | nil => exact ⟨_, rfl⟩
    | cons next more =>
      obtain ⟨hf, hmore⟩ := not_or.mp (mt List.mem_cons.mpr hrest)
      have onward := ih hmore (before ++ [f])
      cases f with
      | root => exact onward [] r
      | current | bracket => exact onward loc r
      | child name | nth i =>
        simp only [visit, across]
        split
        · exact ⟨_, rfl⟩
        · exact ⟨_, rfl⟩
        · exact onward _ _
      | descent => exact absurd rfl hf
      | wildcard | slice s | union keys | filter template =>
        simp only [visit]
        split
        · exact ⟨_, rfl⟩
        · exact inTurn_some onward _ r

/-- Only the first fragment of an anchored path may go back to the document, where the visit
is already. -/
theorem visit_of_anchored [Libraries] (json : ∀ k, Kind.isJson k → kinds k) (ha : a.Keeps kinds)
    {p : Path} (hp : p.Anchored) {doc : Value} (hd : doc.formed kinds) :
    ∃ res, visit a one [] p [] ⟨doc, []⟩ = some res := by
  have down : ∀ {rest : List Fragment}, (∀ f ∈ rest, f.moves) → ∀ before,
      ∃ res, visit a one before rest [] ⟨doc, []⟩ = some res := by
    intro rest hrest before
    have hroot : ∀ f ∈ rest, f ≠ .root := by
      rintro f hf rfl
      exact absurd (hrest .root hf) (by decide)
    obtain ⟨res, hres, -⟩ := visit_total json ha rest hroot before [] ⟨doc, []⟩ ⟨hd, nofun⟩
    exact ⟨res, hres⟩
  cases p with
  | nil => exact ⟨_, rfl⟩
  | cons f rest =>
    cases rest with
    | nil => exact ⟨_, rfl⟩
    | cons next more =>
      cases f with
      | root | current | bracket => exact down hp _
      | _ => exact down (List.forall_mem_cons.mpr ⟨rfl, hp⟩) []

end DocPath.Update

namespace DocPath.Path

/-- The loop of an update by an anchored path ends. -/
theorem ends_of_anchored [Libraries] {kinds : Kind → Bool} (json : ∀ k, Kind.isJson k → kinds k)
    {p : Path} (hp : p.Anchored) {last : Fragment} (hlast : p.getLast? = some last) {a : Action}
    (hallows : a.allows last) (ha : a.Keeps kinds) (one : Bool) {doc : Value}
    (hd : doc.formed kinds) :
    Update.State.Ends a one ⟨doc, [], [⟨[], p, false, [[]]⟩]⟩ (p.update a one doc) := by
  obtain ⟨res, hres⟩ : ∃ res, Update.visit a one [] p [] ⟨doc, []⟩ = some res :=
    Update.visit_of_anchored json ha hp hd
  rw [update_of_visit hlast hallows hres]
  exact Update.ends_of_visit hres

/-- An update by a path that has been read ends, and its document, its error and the values
handed to a rewriting are those of the procedure that calls itself. This holds of documents
of every model, plain ones among them. -/
theorem update_eq_carryOut [Libraries] {text : String} {p : Path} (hp : Path.parse text = .ok p)
    {a : Action} (ha : a.WellFormed) (one : Bool) {doc : Value} (hd : doc.WellFormed) :
    p.carryOut a one doc = some (p.update a one doc) ∧
      ∀ last, p.getLast? = some last → a.allows last →
        Update.State.Ends a one ⟨doc, [], [⟨[], p, false, [[]]⟩]⟩ (p.update a one doc) := by
  obtain ⟨res, hres⟩ : ∃ res, Update.visit a one [] p [] ⟨doc, []⟩ = some res :=
    Update.visit_of_anchored (fun _ _ => rfl) ha.keeps (anchored_of_parseBytes hp) hd
  constructor
  · unfold carryOut
    cases hlast : p.getLast? with
    | none => simp only [update, hlast]
    | some last =>
      by_cases hallows : a.allows last
      · simp only [hallows, if_true, hres, Option.map_some,
          update_of_visit hlast hallows hres]
      · simp only [update, hlast, if_neg hallows]
  · intro last hlast hallows
    exact ends_of_anchored (fun _ _ => rfl) (anchored_of_parseBytes hp) hlast hallows ha.keeps
      one hd

/-- Two descents, one below the other, over a document in which one name is nested. -/
theorem update_eq_carryOut_of_nested_descents :
    let p : Path := [.root, .descent, .child "a", .descent, .child "b"]
    let a : Action := .modify fun _ _ => some .null
    let doc : Value := .object [("a", .object [("a", .object [("b", .int 1)]), ("b", .int 2)])]
    Path.parse "$..a..b" = .ok p ∧ a.WellFormed ∧ doc.WellFormed ∧
      p.carryOut a false doc = some (p.update a false doc) ∧
      Update.State.Ends a false ⟨doc, [], [⟨[], p, false, [[]]⟩]⟩ (p.update a false doc) := by
  intro p a doc
  have hp : Path.parse "$..a..b" = .ok p := rfl
  have ha : a.WellFormed := by
    rintro _ _ _ ⟨⟩
    rfl
  have hd : doc.WellFormed := by decide
  obtain ⟨hsame, hends⟩ := update_eq_carryOut hp ha false hd
  exact ⟨hp, ha, hd, hsame, hends (.child "b") rfl rfl⟩

end DocPath.Path
