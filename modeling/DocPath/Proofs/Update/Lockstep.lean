import DocPath.Builtin
import DocPath.Proofs.Update.Failing
import DocPath.Proofs.Update.Remove
import DocPath.Proofs.Update.Termination
import DocPath.Proofs.Update.Waiting
import DocPath.Proofs.Value.Height

/-!
# Deleting and removing keep step

Deleting and removing do the same round after round. They part only at a position that a sequence
does not have, where deleting stops and removing passes on to the next location. A container that
refuses to give up an element stops both. Neither makes the document higher, so that both come to
an end, even by a path that goes back to the document in its middle.
-/

namespace DocPath.Update

variable {a : Action} {one : Bool} {p : Place} {doc v : Value} {loc : Location}
  {seen : List Value} {f next : Fragment} {more : List Fragment} {e : UpdateError}

theorem singleStep_delete (p : Place) (v : Value) :
    singleStep .delete p v = singleStep .remove p v ∨
      ∃ e, singleStep .delete p v = .error e ∧ singleStep .remove p v = .ok none := by
  obtain ⟨before, f⟩ := p
  cases f with
  | nth i =>
    simp only [singleStep]
    split
    · split
      · exact .inl rfl
      · exact .inr ⟨_, rfl, rfl⟩
    · exact .inl rfl
  | _ => exact .inl rfl

theorem targets_delete [Libraries] (p : Place) (doc v : Value) :
    targets .delete p doc v = targets .remove p doc v ∨
      ∃ e, targets .delete p doc v = .error e ∧ targets .remove p doc v = .ok [] := by
  obtain ⟨before, f⟩ := p
  cases f with
  | nth i =>
    simp only [targets]
    rcases singleStep_delete ⟨before, .nth i⟩ v with h | ⟨e, hstop, hskip⟩
    · exact .inl (by rw [h])
    · exact .inr ⟨e, by rw [hstop]; rfl, by rw [hskip]; rfl⟩
  | _ => exact .inl rfl

theorem follow_delete (p : Place) (next : Fragment) (doc : Value) (loc : Location) :
    follow .delete p next doc loc = follow .remove p next doc loc ∨
      ∃ e, follow .delete p next doc loc = .error e ∧
        follow .remove p next doc loc = .ok (doc, none) := by
  unfold follow
  cases doc.pointer? loc with
  | none => exact .inl rfl
  | some v =>
    dsimp only
    rcases singleStep_delete p v with h | ⟨e, hstop, hskip⟩
    · exact .inl (by rw [h]; rfl)
    · exact .inr ⟨e, by rw [hstop]; rfl, by rw [hskip]; rfl⟩

theorem advance_delete [Libraries] (l : Level) (f next : Fragment) (more : List Fragment)
    (doc : Value) (loc : Location) :
    advance .delete l f next more doc loc = advance .remove l f next more doc loc ∨
      ∃ e, advance .delete l f next more doc loc = .error e ∧
        advance .remove l f next more doc loc =
          .ok (doc, [⟨l.before ++ [f], next :: more, false, []⟩]) := by
  cases f with
  | child name | nth i =>
    simp only [advance]
    rcases follow_delete ⟨l.before, _⟩ next doc loc with h | ⟨e, hstop, hskip⟩
    · exact .inl (by rw [h])
    · exact .inr ⟨e, by rw [hstop]; rfl, by rw [hskip]; rfl⟩
  | _ => exact .inl rfl

theorem actOn_deleting (one : Bool) (steps : List Step) (old : Value) : ∃ v had,
    (∀ a : Action, a.deletes → ∀ p seen,
        actOn a one p steps ⟨old, false, seen⟩ = (⟨v, had, seen⟩, none)) ∨
      ∃ cause, Withholds old v cause ∧ ∀ a : Action, a.deletes → ∀ p seen,
        actOn a one p steps ⟨old, false, seen⟩ =
          (⟨v, had, seen⟩, some (.refused a.name p.text cause)) := by
  cases hstops : old.removeChildren (if one then steps.take 1 else steps) with
  | mk r stop =>
    obtain ⟨v, had⟩ := r
    refine ⟨v, had, ?_⟩
    cases stop with
    | none => exact .inl fun a ha p seen => actOn_deletes one p seen ha hstops
    | some cause =>
      refine .inr ⟨cause, withholds_of_removeChildren hstops, fun a ha p seen => ?_⟩
      cases a with
      | delete | remove => simp [actOn, hstops]
      | _ => cases ha

/-- Deleting and removing at a location: both change the same, deleting alone stops at a sequence
that is too short, or a container refuses both to give up an element. -/
inductive Sides (one : Bool) (p : Place) (doc : Value) (loc : Location) (seen : List Value)
    (act : Action → Attempt) : Prop
  | same (d : Value) (had : Bool) (acts : ∀ a : Action, a.deletes → act a = (⟨d, had, seen⟩, none))
  | short {v : Value} {e : UpdateError} (here : doc.pointer? loc = some v)
    (obstacle : Obstacle .delete p v e) (stops : act .delete = (⟨doc, false, seen⟩, some e))
    (skips : act .remove = (⟨doc, false, seen⟩, none))
  | withheld {old v d : Value} {cause : AssignError} (had : Bool)
    (here : doc.pointer? loc = some old) (stuck : Withholds old v cause)
    (left : doc.put? loc v = some d) (acts : ∀ a : Action, a.deletes →
      act a = (⟨d, had, seen⟩, some (.refused a.name p.text cause)))

theorem sides_of_applyChildren [Libraries] (one : Bool) (p : Place) (doc : Value) (loc : Location)
    (seen : List Value) :
    Sides one p doc loc seen fun a => applyChildren a one p doc loc seen := by
  cases hv : doc.pointer? loc with
  | none => exact .same doc false fun a _ => by simp [applyChildren, actAt, hv]
  | some old =>
    cases htargets : targets .remove p doc old with
    | error e => exact absurd (targets_obstacle htargets) Obstacle.not_remove
    | ok steps =>
      rcases targets_delete p doc old with hsame | ⟨e, hstop, hskip⟩
      · have named : ∀ a : Action, a.deletes → targets a p doc old = .ok steps := by
          intro a ha
          cases a with
          | delete => exact hsame.trans htargets
          | remove => exact htargets
          | _ => cases ha
        obtain ⟨v, had, hacts | ⟨cause, hstuck, hacts⟩⟩ := actOn_deleting one steps old
        all_goals obtain ⟨d, hput⟩ := Value.exists_put? hv v
        · refine .same d had fun a ha => ?_
          simp [applyChildren, actAt, hv, named a ha, hacts a ha, hput]
        · refine .withheld had hv hstuck hput fun a ha => ?_
          simp [applyChildren, actAt, hv, named a ha, hacts a ha, hput]
      · refine .short hv (targets_obstacle hstop) ?_ ?_
        · simp [applyChildren, actAt, hv, hstop, Value.put?_pointer? hv]
        · simp [applyChildren, actAt, hv, hskip, actOn, Value.removeChildren_nil,
            Value.put?_pointer? hv]

theorem sides_of_apply [Libraries] (one : Bool) (p : Place) (doc : Value) (loc : Location)
    (seen : List Value) : Sides one p doc loc seen fun a => apply a one p doc loc seen := by
  obtain ⟨before, f⟩ := p
  by_cases hf : f.moves
  · simp only [apply_of_moves hf]
    exact sides_of_applyChildren one _ doc loc seen
  · refine .same doc false fun a ha => ?_
    cases f with
    | root | current | bracket =>
      cases a with
      | delete | remove => rfl
      | _ => cases ha
    | _ => exact absurd rfl hf

/-- Deleting stops at a position outside a sequence, and removing goes on with what else waits. -/
inductive State.Parts [Libraries] (one : Bool) (s : State) : Prop
  | short {before more : List Fragment} {i : Int64} {expanded : Bool} {loc : Location}
    {locs : List Location} {levels : List Level} {v : Value}
    (top : s.levels = ⟨before, .nth i :: more, expanded, loc :: locs⟩ :: levels)
    (here : s.doc.pointer? loc = some v) (ordered : v.isOrdered)
    (missing : normalizeIndex i v.extent = none)
    (stops : s.step .delete one =
      .inl (s.finish (some (.outOfBounds (Path.text (before ++ [.nth i]))))))
    (skips : s.Leads .remove one
      ⟨s.doc, s.seen, ⟨before, .nth i :: more, expanded, locs⟩ :: levels⟩)

/-- Deleting and removing both end at a container that refuses to give up an element. -/
inductive State.Refuses [Libraries] (one : Bool) (s : State) : Prop
  | withheld (p : Place) {loc : Location} {old v d : Value} {cause : AssignError}
    (here : s.doc.pointer? loc = some old) (stuck : Withholds old v cause)
    (left : s.doc.put? loc v = some d)
    (ends : ∀ a : Action, a.deletes → s.step a one = .inl
      ⟨d, s.seen.reverse, some (.refused a.name p.text cause)⟩)

theorem State.refuses_of_apply [Libraries] {s : State} {before : List Fragment} {expanded : Bool}
    {locs : List Location} {levels : List Level} {old v d : Value} {had : Bool}
    {cause : AssignError} (top : s.levels = ⟨before, [f], expanded, loc :: locs⟩ :: levels)
    (here : s.doc.pointer? loc = some old) (stuck : Withholds old v cause)
    (left : s.doc.put? loc v = some d)
    (acts : ∀ a : Action, a.deletes → apply a one ⟨before, f⟩ s.doc loc s.seen =
      (⟨d, had, s.seen⟩, some (.refused a.name (Place.text ⟨before, f⟩) cause))) :
    s.Refuses one := by
  refine .withheld ⟨before, f⟩ here stuck left fun a ha => ?_
  simp only [State.step, top, acts a ha]
  rfl

theorem State.step_delete [Libraries] (one : Bool) (s : State) :
    s.step .delete one = s.step .remove one ∨ s.Parts one ∨ s.Refuses one := by
  obtain ⟨doc, seen, levels⟩ := s
  cases levels with
  | nil => exact .inl rfl
  | cons top levels =>
    obtain ⟨before, rest, expanded, waiting⟩ := top
    cases waiting with
    | nil => exact .inl rfl
    | cons loc locs =>
      cases rest with
      | nil => exact .inl rfl
      | cons f rest =>
        cases rest with
        | nil =>
          cases sides_of_apply one ⟨before, f⟩ doc loc seen with
          | same d had acts =>
            exact .inl (by simp only [State.step, acts .delete rfl, acts .remove rfl])
          | short hv hobstacle hstop hskip =>
            obtain ⟨i, rfl, ordered, missing, rfl⟩ := hobstacle.short_of_delete
            refine .inr (.inl (.short rfl hv ordered missing ?_ (.single ?_)))
            · simp only [State.step, hstop]
              rfl
            · simp [State.step, hskip]
          | withheld had here stuck left acts =>
            exact .inr (.inr (refuses_of_apply rfl here stuck left acts))
        | cons next more =>
          rcases advance_delete ⟨before, f :: next :: more, expanded, [loc]⟩ f next more doc loc
            with h | ⟨e, hstop, hskip⟩
          · exact .inl (by simp only [State.step, h])
          · obtain ⟨v, hv, -, hobstacle⟩ := advance_obstacle hstop
            obtain ⟨i, rfl, ordered, missing, rfl⟩ := hobstacle.short_of_delete
            refine .inr (.inl (.short rfl hv ordered missing ?_ ?_))
            · simp only [State.step, hstop]
              rfl
            · exact .head (step_of_advance (r := ⟨doc, seen⟩) hskip) (.single rfl)

/-- Nothing but a container that refuses to give up an element stops a removal. -/
theorem State.refuses_of_step_remove [Libraries] {s : State} {o : Outcome}
    (h : s.step .remove one = .inl o) (he : o.error = some e) : s.Refuses one := by
  cases fails_of_step h he with
  | @last before f expanded loc locs levels top error _ =>
    cases sides_of_apply one ⟨before, f⟩ s.doc loc s.seen with
    | same d had acts => cases error.symm.trans (congrArg Prod.snd (acts .remove rfl))
    | short _ _ _ skips => cases error.symm.trans (congrArg Prod.snd skips)
    | withheld had here stuck left acts => exact refuses_of_apply top here stuck left acts
  | onward _ error _ =>
    obtain ⟨v, -, -, hobstacle⟩ := advance_obstacle error
    exact absurd hobstacle Obstacle.not_remove

theorem State.Refuses.ends [Libraries] {s : State} (h : s.Refuses one) (ha : a.deletes) :
    ∃ o, s.step a one = .inl o ∧ o.error ≠ none := by
  cases h with
  | withheld _ _ _ _ ends => exact ⟨_, ends a ha, nofun⟩

theorem State.Refuses.not_yielding [Libraries] {s : State} (h : s.Refuses one) :
    ¬s.doc.formed Kind.yielding := by
  intro hyields
  cases h with
  | withheld _ here stuck =>
    have hformed := Value.formed_iff.mp (Value.formed_pointer? hyields here)
    exact stuck.not_yielding hformed.1

/-- As long as deleting goes on, removing goes with it. -/
theorem State.Leads.remove_of_delete [Libraries] {s t : State} (h : s.Leads .delete one t) :
    s.Leads .remove one t := by
  induction h with
  | refl => exact .refl
  | @tail t u _ hstep ih =>
    rcases t.step_delete one with hsame | hparts | hrefuses
    · exact ih.tail (hsame ▸ hstep)
    · cases hparts with
      | short _ _ _ _ stops => cases stops.symm.trans hstep
    · have ⟨_, ho, _⟩ := hrefuses.ends (a := .delete) rfl
      cases ho.symm.trans hstep

/-- Visits end, and leave no document higher than the given bound that was not. -/
def Lowers (n : Nat) (call : Location → Progress → Option Visited) (loc : Location) : Prop :=
  ∀ r : Progress, r.doc.height ≤ n → ∃ res, call loc r = some res ∧ res.doc.height ≤ n

variable {n : Nat} {call : Location → Progress → Option Visited}

theorem inTurn_lowers (locs : List Location) (h : ∀ loc ∈ locs, Lowers n call loc) (r : Progress)
    (hr : r.doc.height ≤ n) : ∃ res, inTurn call locs r = some res ∧ res.doc.height ≤ n := by
  induction locs generalizing r with
  | nil => exact ⟨.ok r, rfl, hr⟩
  | cons loc locs ih =>
    obtain ⟨first, hfirst, hd⟩ := h loc List.mem_cons_self r hr
    rw [inTurn, hfirst]
    cases first with
    | error o => exact ⟨.error o, rfl, hd⟩
    | ok r' => exact ih (fun loc hloc => h loc (List.mem_cons_of_mem _ hloc)) r' hd

/-- A descent ends because no location is longer than the document is high. -/
theorem underneath_lowers (h : ∀ loc, Lowers n call loc) (loc : Location) :
    Lowers n (underneath call) loc := by
  obtain ⟨left, hleft⟩ : ∃ left, n < loc.length + left := ⟨n + 1, by omega⟩
  induction left generalizing loc with
  | zero =>
    intro r hr
    cases hv : r.doc.pointer? loc with
    | none => exact ⟨.ok r, underneath_of_pointer?_none hv, hr⟩
    | some v =>
      have hle := Value.length_add_height_le hv
      omega
  | succ left ih =>
    intro r hr
    cases hv : r.doc.pointer? loc with
    | none => exact ⟨.ok r, underneath_of_pointer?_none hv, hr⟩
    | some v =>
      have children : ∀ l ∈ (containerSteps v).map fun s => loc ++ [s],
          Lowers n (underneath call) l := by
        intro l hl
        obtain ⟨s, -, rfl⟩ := List.mem_map.mp hl
        refine ih (loc ++ [s]) ?_
        rw [List.length_append, List.length_singleton]
        omega
      obtain ⟨below, hbelow, hd⟩ := inTurn_lowers _ children r hr
      rw [underneath_of_pointer? hv, hbelow]
      cases below with
      | error o => exact ⟨.error o, rfl, hd⟩
      | ok r' => exact h loc r' hd

theorem apply_lowers [Libraries] (ha : a.deletes) (one : Bool) (p : Place) (doc : Value)
    (loc : Location)
    (seen : List Value) : (apply a one p doc loc seen).1.value.height ≤ doc.height := by
  have children : (applyChildren a one p doc loc seen).1.value.height ≤ doc.height := by
    unfold applyChildren actAt
    cases hv : doc.pointer? loc with
    | none => exact Nat.le_refl _
    | some v =>
      have lowers : ∀ {w : Value}, w.height ≤ v.height →
          ((doc.put? loc w).getD doc).height ≤ doc.height := by
        intro w hw
        obtain ⟨d, hput⟩ := Value.exists_put? hv w
        rw [hput]
        exact Value.height_put?_le hput hv hw
      dsimp only
      cases targets a p doc v with
      | error e => exact lowers (Nat.le_refl _)
      | ok steps =>
        cases a with
        | delete | remove => exact lowers (Value.height_removeChildren_le v _)
        | _ => cases ha
  obtain ⟨before, f⟩ := p
  cases f with
  | root | current | bracket =>
    cases a with
    | delete | remove => exact Nat.le_refl _
    | _ => cases ha
  | _ => exact children

theorem follow_doc (hset : a.isSet = false) {doc' : Value} {reached : Option Location}
    (h : follow a p next doc loc = .ok (doc', reached)) : doc' = doc := by
  cases follows_of_follow h with
  | nowhere | child => rfl
  | created _ _ _ _ _ _ sets => exact absurd (sets.symm.trans hset) nofun

theorem visit_lowers [Libraries] (ha : a.deletes) (one : Bool) (n : Nat) (rest : List Fragment)
    (before : List Fragment) (loc : Location) : Lowers n (visit a one before rest) loc := by
  induction rest generalizing before loc with
  | nil => exact fun r hr => ⟨.ok r, rfl, hr⟩
  | cons f rest ih =>
    cases rest with
    | nil =>
      intro r hr
      refine ⟨_, rfl, ?_⟩
      rw [act_doc]
      exact Nat.le_trans (apply_lowers ha one ⟨before, f⟩ r.doc loc r.seen) hr
    | cons next more =>
      have onward := ih (before ++ [f])
      cases f with
      | root => exact onward []
      | current | bracket => exact onward loc
      | child name | nth i =>
        intro r hr
        simp only [visit, across]
        split
        · exact ⟨_, rfl, hr⟩
        · rename_i hfollow
          obtain rfl := follow_doc (Action.isSet_of_deletes ha) hfollow
          exact ⟨_, rfl, hr⟩
        · rename_i hfollow
          obtain rfl := follow_doc (Action.isSet_of_deletes ha) hfollow
          exact onward _ _ hr
      | descent => exact underneath_lowers onward loc
      | wildcard | slice s | union keys | filter template =>
        intro r hr
        simp only [visit]
        split
        · exact ⟨_, rfl, hr⟩
        · exact inTurn_lowers _ (fun loc _ => onward loc) r hr

end DocPath.Update

namespace DocPath.Path

open Update (State)

variable {p : Path} {last : Fragment}

/-- Deletions and removals end by every path and in every document. -/
theorem ends_of_deletes [Libraries] {a : Action} (ha : a.deletes) (hlast : p.getLast? = some last)
    (hallows : a.allows last) (one : Bool) (doc : Value) :
    State.Ends a one ⟨doc, [], [⟨[], p, false, [[]]⟩]⟩ (p.update a one doc) := by
  obtain ⟨res, hres, -⟩ := Update.visit_lowers ha one doc.height p [] [] ⟨doc, []⟩ (Nat.le_refl _)
  rw [update_of_visit hlast hallows hres]
  exact Update.ends_of_visit hres

/-- Removing does what deleting does, if that succeeds. Otherwise the two keep step until deleting
stops at a position that a sequence does not have, which removing passes over, or until both stop
with one document at a container that refuses to give up an element. Where no container does so,
removing succeeds. -/
theorem remove_follows_delete [Libraries] (hlast : p.getLast? = some last)
    (hallows : Action.delete.allows last) (one : Bool) (doc : Value) :
    let start : State := ⟨doc, [], [⟨[], p, false, [[]]⟩]⟩
    (start.Ends .delete one (p.update .delete one doc) ∧
        start.Ends .remove one (p.update .remove one doc)) ∧
      ((p.update .delete one doc).error = none →
        p.update .remove one doc = p.update .delete one doc) ∧
      ((p.update .delete one doc).error ≠ none → ∃ s : State,
        start.Leads .delete one s ∧ start.Leads .remove one s ∧
          s.step .delete one = .inl (p.update .delete one doc) ∧
            (s.Parts one ∨
              s.Refuses one ∧ s.step .remove one = .inl (p.update .remove one doc))) ∧
      (doc.formed Kind.yielding → (p.update .remove one doc).error = none) := by
  intro start
  have hdelete := ends_of_deletes rfl hlast hallows one doc
  have hremove := ends_of_deletes rfl hlast (allows_remove_of_delete hallows) one doc
  have ⟨s, hleads, hstops⟩ := hdelete
  have ⟨t, hgoes, hends⟩ := hremove
  refine ⟨⟨hdelete, hremove⟩, fun hok => ?_, fun hfails => ?_, fun hyields => ?_⟩
  · rcases s.step_delete one with hsame | hparts | hrefuses
    · have hboth : start.Ends .remove one (p.update .delete one doc) :=
        ⟨s, hleads.remove_of_delete, hsame ▸ hstops⟩
      rw [← hremove.run_eq, hboth.run_eq]
    · cases hparts with
      | short _ _ _ _ stops =>
        rw [← Sum.inl.inj (stops.symm.trans hstops)] at hok
        cases hok
    · have ⟨o, ho, herror⟩ := hrefuses.ends (a := .delete) rfl
      rw [← Sum.inl.inj (ho.symm.trans hstops)] at hok
      exact absurd hok herror
  · refine ⟨s, hleads, hleads.remove_of_delete, hstops, ?_⟩
    have both (hrefuses : s.Refuses one) :
        s.step .remove one = .inl (p.update .remove one doc) := by
      have ⟨o, ho, _⟩ := hrefuses.ends (a := .remove) rfl
      have hboth : start.Ends .remove one o := ⟨s, hleads.remove_of_delete, ho⟩
      rw [← hremove.run_eq, hboth.run_eq]
      exact ho
    rcases s.step_delete one with hsame | hparts | hrefuses
    · obtain ⟨e, he⟩ := Option.ne_none_iff_exists'.mp hfails
      have hrefuses := State.refuses_of_step_remove (hsame ▸ hstops) he
      exact .inr ⟨hrefuses, both hrefuses⟩
    · exact .inl hparts
    · exact .inr ⟨hrefuses, both hrefuses⟩
  · have hjson : ∀ k, Kind.isJson k → k.yielding := fun k hk => by
      cases k <;> first | rfl | cases hk
    have hwithin := Update.within_of_leads (a := .remove) hjson trivial hgoes ⟨hyields, nofun⟩
    cases he : (p.update .remove one doc).error with
    | none => rfl
    | some e => exact absurd hwithin.value (State.refuses_of_step_remove hends he).not_yielding

/-- In `[[1],[2,3]]` deleting stops at the array without a second element. -/
theorem remove_follows_delete_of_short_array :
    let p : Path := [.root, .wildcard, .nth 1]
    let doc : Value := .array [.array [.int 1], .array [.int 2, .int 3]]
    let start : State := ⟨doc, [], [⟨[], p, false, [[]]⟩]⟩
    p.delete doc = ⟨doc, [], some (.outOfBounds "$.*[1]")⟩ ∧ (p.remove doc).error = none ∧
      ∃ s : State, start.Leads .delete false s ∧ start.Leads .remove false s ∧ s.Parts false ∧
        s.step .delete false = .inl (p.delete doc) := by
  intro p doc start
  have hdelete : p.delete doc = ⟨doc, [], some (.outOfBounds "$.*[1]")⟩ :=
    State.run_of_rounds (g := id) (n := 30) rfl
  obtain ⟨-, -, hparts, hok⟩ := remove_follows_delete (p := p) rfl rfl false doc
  have hremove : (p.remove doc).error = none := hok (by decide)
  obtain ⟨s, hleads, hgoes, hstops, hcase⟩ := hparts fun hnone =>
    nomatch (congrArg Update.Outcome.error hdelete).symm.trans hnone
  refine ⟨hdelete, hremove, s, hleads, hgoes, ?_, hstops⟩
  rcases hcase with hparts | ⟨hrefuses, hsame⟩
  · exact hparts
  · have ⟨o, ho, herror⟩ := hrefuses.ends (a := .remove) rfl
    rw [← Sum.inl.inj (hsame.symm.trans ho)] at herror
    exact absurd hremove herror

end DocPath.Path
