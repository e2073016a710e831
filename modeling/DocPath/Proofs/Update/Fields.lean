import DocPath.Builtin
import DocPath.Proofs.Update.Failing
import DocPath.Proofs.Update.Termination
import DocPath.Proofs.Update.Waiting
import DocPath.Proofs.Value.Removal

/-!
# Records keep their fields

A record has the fields that it had at first, whatever calls are made on it: fields are neither
added nor dropped, and a removal clears them to null. This needs a path that does not end at the
document itself, which a rewriting could exchange for a value of any kind. A write that a container
refuses is the last thing that its call does, and leaves the document as it was just before.
-/

namespace DocPath

namespace Value

structure HasFields (fields : List String) (v : Value) : Prop where
  record : v.kind = .keyed .record
  names : v.names = fields

namespace HasFields

variable {fields : List String} {v v' w d d' : Value} {s : Step} {loc : Location}

theorem putStep? (h : v.HasFields fields) (hput : v.putStep? s w = some v') :
    v'.HasFields fields :=
  ⟨(putStep?_kind hput).trans h.record, (putStep?_names hput).trans h.names⟩

theorem writeChild (h : v.HasFields fields) (hwrite : v.writeChild s w = .ok v') :
    v'.HasFields fields := by
  rcases writeChild_cases hwrite with hput | ⟨name, -, hadd⟩
  · exact h.putStep? hput
  · cases hadd <;> cases h.record

theorem removal (h : v.HasFields fields) (hremoval : v.Removal v') : v'.HasFields fields := by
  cases hremoval with
  | same => exact h
  | cleared put => exact h.putStep? put
  | dropped _ _ _ loose => exact absurd h.record loose

/-- An exchange below the document leaves its fields, and one of the document itself as long as
the new value has them. -/
theorem put? (h : d.HasFields fields) (hv : d.pointer? loc = some v)
    (hw : v.HasFields fields → w.HasFields fields) (hput : d.put? loc w = some d') :
    d'.HasFields fields := by
  cases loc with
  | nil =>
    cases hv
    cases hput
    exact hw h
  | cons s loc =>
    obtain ⟨c, c', -, -, -, hstep⟩ := through_put? hv hput
    exact h.putStep? hstep

end HasFields
end Value

namespace Update

variable {fields : List String} {a : Action} {one : Bool} {p : Place} {doc d v w : Value}
  {loc : Location} {before more : List Fragment} {f next : Fragment} {expanded : Bool}
  {s t : State}

theorem fields_actOn (steps : List Step) {c : Changed} (h : c.value.HasFields fields) :
    (actOn a one p steps c).1.value.HasFields fields :=
  actOn_induction (P := fun v => v.HasFields fields) (fun hv hw => hv.writeChild hw)
    (fun _ _ h hv => hv.removal h) steps h

theorem fields_apply [Libraries] (hf : f.moves) (h : doc.HasFields fields) (a : Action) (one : Bool)
    (before : List Fragment) (loc : Location) (seen : List Value) :
    (apply a one ⟨before, f⟩ doc loc seen).1.value.HasFields fields := by
  rw [apply_of_moves hf]
  unfold applyChildren actAt
  cases hv : doc.pointer? loc with
  | none => exact h
  | some v =>
    have exchanged {w : Value} (hw : v.HasFields fields → w.HasFields fields) :
        ((doc.put? loc w).getD doc).HasFields fields := by
      obtain ⟨d, hput⟩ := Value.exists_put? hv w
      rw [hput]
      exact h.put? hv hw hput
    dsimp only
    split
    · exact exchanged id
    · exact exchanged fun hv => fields_actOn _ hv

theorem fields_follow {reached : Option Location} (h : doc.HasFields fields)
    (hfollow : follow a p next doc loc = .ok (d, reached)) : d.HasFields fields := by
  cases follows_of_follow hfollow with
  | nowhere | child => exact h
  | created hv _ _ _ hw hput => exact h.put? hv (fun hv => hv.writeChild hw) hput

theorem fields_advance [Libraries] {l : Level} {queued : List Level} (h : doc.HasFields fields)
    (hadvance : advance a l f next more doc loc = .ok (d, queued)) : d.HasFields fields := by
  cases onward_of_advance hadvance with
  | single _ _ followed => exact fields_follow h followed
  | _ => exact h

/-- A round leaves a record its fields, also when it is the last. -/
theorem State.fields_round [Libraries] (h : s.doc.HasFields fields)
    (hlast : ∀ l ∈ s.levels, ∀ f, l.rest = [f] → f.moves) (a : Action) (one : Bool) :
    Sum.elim (fun o : Outcome => o.doc.HasFields fields) (fun t : State => t.doc.HasFields fields)
      (s.step a one) := by
  unfold State.step
  split
  · exact h
  · exact h
  · rename_i before rest expanded loc locs levels htop
    dsimp only
    split
    · exact h
    · rename_i f
      have hf := hlast _ (htop ▸ List.mem_cons_self) f rfl
      have happly := fields_apply hf h a one before loc s.seen
      split <;> exact happly
    · split
      · exact h
      · exact fields_advance h ‹_›

theorem advance_rest [Libraries] {queued : List Level}
    (h : advance a ⟨before, f :: next :: more, expanded, [loc]⟩ f next more doc loc =
      .ok (d, queued)) : ∀ l ∈ queued, l.rest <:+ f :: next :: more := by
  have onward {locs : List Location} :
      ∀ l ∈ [(⟨before ++ [f], next :: more, false, locs⟩ : Level)],
        l.rest <:+ f :: next :: more := by
    intro l hl
    obtain rfl := List.mem_singleton.mp hl
    exact List.suffix_cons f _
  cases onward_of_advance h with
  | descends =>
    unfold descend
    split
    · exact nofun
    · simp
  | gone => exact nofun
  | _ => exact onward

/-- What is left of the path for a location that waits is an end of the path. -/
theorem suffix_of_leads [Libraries] {q : Path}
    (hs : State.Leads a one ⟨doc, [], [⟨[], q, false, [[]]⟩]⟩ s) :
    ∀ l ∈ s.levels, l.rest <:+ q := by
  induction hs with
  | refl => simp
  | tail _ hstep ih =>
    cases State.turns_of_step hstep with
    | usedUp top => exact fun l hl => ih l (top ▸ List.mem_cons_of_mem _ hl)
    | idle top | last top =>
      rw [top] at ih
      exact List.forall_mem_cons.mpr (List.forall_mem_cons.mp ih)
    | onward top hadvance =>
      rw [top] at ih
      obtain ⟨htop, hlevels⟩ := List.forall_mem_cons.mp ih
      refine List.forall_mem_append.mpr ⟨fun l hl => ?_, List.forall_mem_cons.mpr ⟨htop, hlevels⟩⟩
      exact (advance_rest hadvance l hl).trans htop

/-- The next round comes to write `w` behind the step `q` of the container at a location, when that
container has become `v`: to create what the path goes on to, or for the last fragment. -/
inductive State.Writes [Libraries] (a : Action) (one : Bool) (s : State) (loc : Location)
    (v : Value) (q : Step) (w : Value) : Prop
  | create {before more : List Fragment} {f next : Fragment} {expanded : Bool}
    {locs : List Location} {levels : List Level}
    (top : s.levels = ⟨before, f :: next :: more, expanded, loc :: locs⟩ :: levels)
    (here : s.doc.pointer? loc = some v) (sets : a.isSet)
    (single : singleStep a ⟨before, f⟩ v = .ok (some q)) (missing : v.step? q = none)
    (new : fresh ⟨before, f⟩ next = .ok w)
  | act {before : List Fragment} {f : Fragment} {expanded : Bool} {locs : List Location}
    {levels : List Level} {old : Value} {steps : List Step}
    (top : s.levels = ⟨before, [f], expanded, loc :: locs⟩ :: levels)
    (here : s.doc.pointer? loc = some old)
    (named : targets a ⟨before, f⟩ s.doc old = .ok steps)
    (tries : Tries one v q w a steps ⟨old, false, s.seen⟩)

theorem follow_of_refused {q : Step} {cause : AssignError} (hv : doc.pointer? loc = some v)
    (sets : a.isSet) (single : singleStep a p v = .ok (some q)) (missing : v.step? q = none)
    (new : fresh p next = .ok w) (hw : v.writeChild q w = .error cause) :
    follow a p next doc loc = .error (.refused "set" p.text cause) := by
  simp [follow, hv, single, missing, sets, new, hw, bind, Except.bind]

theorem advance_of_singleStep [Libraries] {q : Step}
    (single : singleStep a ⟨before, f⟩ v = .ok (some q)) :
    advance a ⟨before, f :: next :: more, expanded, [loc]⟩ f next more doc loc =
      (follow a ⟨before, f⟩ next doc loc).bind fun r =>
        .ok (r.1, [⟨before ++ [f], next :: more, false, r.2.toList⟩]) := by
  cases f with
  | child name | nth i => rfl
  | _ => cases single

theorem moves_of_tries [Libraries] {q : Step} {old : Value} {steps : List Step} {c : Changed}
    (named : targets a ⟨before, f⟩ doc old = .ok steps) (tries : Tries one v q w a steps c) :
    f.moves := by
  cases f with
  | root | current | bracket =>
    cases named
    cases tries with
    | clear _ _ _ stops =>
      have none : [].take 1 = ([] : List Step) := rfl
      rw [chosen, List.map_nil, none, ite_self, Value.removeChildren_nil] at stops
      cases stops
  | _ => rfl

/-- With a refused write the loop ends. The document is as it was just before. -/
theorem State.Writes.refused [Libraries] {q : Step} {cause : AssignError}
    (h : s.Writes a one loc v q w) (hw : v.writeChild q w = .error cause) :
    ∃ o text, s.step a one = .inl o ∧ s.doc.put? loc v = some o.doc ∧
      o.error = some (.refused a.name text cause) := by
  obtain ⟨doc, seen, levels⟩ := s
  cases h with
  | @create before more f next expanded locs levels top here sets single missing new =>
    cases top
    have hfails := follow_of_refused here sets single missing new hw
    cases a with
    | set u =>
      refine ⟨⟨doc, seen.reverse, some (.refused "set" (Place.text ⟨before, f⟩) cause)⟩,
        Place.text ⟨before, f⟩, ?_, Value.put?_pointer? here, rfl⟩
      simp only [State.step, advance_of_singleStep single, hfails, Except.bind]
      rfl
    | _ => cases sets
  | @act before f expanded locs levels old steps top here named tries =>
    cases top
    obtain ⟨hvalue, herror⟩ := tries.refused (p := ⟨before, f⟩) hw
    obtain ⟨d, hput⟩ := Value.exists_put? here v
    have happly : apply a one ⟨before, f⟩ doc loc seen =
        applyChildren a one ⟨before, f⟩ doc loc seen :=
      apply_of_moves (moves_of_tries named tries) doc loc seen
    simp only [applyChildren, actAt, here, named] at happly
    generalize actOn a one ⟨before, f⟩ steps ⟨old, false, seen⟩ = act at hvalue herror happly
    refine ⟨⟨d, act.1.seen.reverse, some (.refused a.name (Place.text ⟨before, f⟩) cause)⟩,
      Place.text ⟨before, f⟩, ?_, hput, rfl⟩
    simp only [State.step, happly, hvalue, herror, hput, Option.getD_some]
    rfl

theorem singleStep_ne_refused {name text : String} {cause : AssignError} :
    singleStep a p v ≠ .error (.refused name text cause) := by
  intro h
  cases singleStep_obstacle h with
  | refused _ single _ => cases h.symm.trans single

theorem targets_ne_refused [Libraries] {name text : String} {cause : AssignError} :
    targets a p doc v ≠ .error (.refused name text cause) := by
  intro h
  obtain ⟨before, f⟩ := p
  cases f with
  | nth i =>
    simp only [targets, bind, Except.bind] at h
    split at h <;> cases h
    exact singleStep_ne_refused ‹_›
  | child name | union keys =>
    simp only [targets] at h
    split at h <;> cases h
  | _ => cases h

theorem follow_refused {name text : String} {cause : AssignError}
    (h : follow a p next doc loc = .error (.refused name text cause)) :
    ∃ v q w, doc.pointer? loc = some v ∧ a.isSet ∧ singleStep a p v = .ok (some q) ∧
      v.step? q = none ∧ fresh p next = .ok w ∧ v.writeChild q w = .error cause := by
  unfold follow at h
  cases hv : doc.pointer? loc with
  | none => simp [hv] at h
  | some v =>
    simp only [hv, bind, Except.bind] at h
    split at h
    · cases h
      exact absurd ‹_› singleStep_ne_refused
    · split at h
      · cases h
      · split at h
        · split at h
          · cases h
          · split at h <;> cases h
        · rename_i missing
          split at h
          · split at h
            · rename_i hfresh
              cases h
              unfold fresh at hfresh
              split at hfresh
              · cases hfresh
              · split at hfresh <;> cases hfresh
              · cases hfresh
            · split at h <;> cases h
              exact ⟨v, _, _, rfl, ‹_›, ‹_›, missing, ‹_›, ‹_›⟩
          · cases h

/-- A loop that ends with a refusal came to a write that was refused. -/
theorem State.writes_of_refused [Libraries] {o : Outcome} {name text : String} {cause : AssignError}
    (h : s.step a one = .inl o) (he : o.error = some (.refused name text cause)) :
    ∃ loc v q w, s.Writes a one loc v q w ∧ v.writeChild q w = .error cause := by
  cases fails_of_step h he with
  | @last before f expanded loc locs levels top error =>
    obtain ⟨old, here, hf, -⟩ := apply_obstacle error
    simp only [apply_of_moves hf, applyChildren, actAt, here] at error
    split at error
    · cases error
      exact absurd ‹_› targets_ne_refused
    · obtain ⟨v, q, w, _, tries, hw, hsame⟩ := tries_of_actOn error
      cases hsame
      exact ⟨loc, v, q, w, .act top here ‹_› tries, hw⟩
  | @onward before more f next expanded loc locs levels top error =>
    have hfollow : follow a ⟨before, f⟩ next s.doc loc = .error (.refused name text cause) := by
      obtain ⟨v, -, -, hobstacle⟩ := advance_obstacle error
      cases hobstacle with
      | refused _ single _ =>
        rw [advance_of_singleStep single] at error
        cases hfollow : follow a ⟨before, f⟩ next s.doc loc with
        | error e =>
          rw [hfollow] at error
          cases error
          rfl
        | ok r =>
          rw [hfollow] at error
          cases error
    obtain ⟨v, q, w, here, sets, single, missing, new, hw⟩ := follow_refused hfollow
    exact ⟨loc, v, q, w, .create top here sets single missing new, hw⟩

/-- A set, delete, remove or modify of a document, at every location or with `one` at a single one,
by a path that has been read and does not lead to the document itself. Whatever is written has
distinct names in each container, if all that a rewriting is handed has. -/
structure Call [Libraries] where
  path : Path
  action : Action
  one : Bool
  read : ∃ bytes, Path.parseBytes bytes = .ok path
  below : path ≠ [.root] ∧ path ≠ [.current]
  formed : action.Keeps fun _ => true

namespace Call

section

variable [Libraries] (c : Call)

def outcome (doc : Value) : Outcome := c.path.update c.action c.one doc

/-- The states that a call comes to. Where its action has no use for its path, it ends at once. -/
def Visits (doc : Value) (s : State) : Prop :=
  ∃ last, c.path.getLast? = some last ∧ c.action.allows last ∧
    State.Leads c.action c.one ⟨doc, [], [⟨[], c.path, false, [[]]⟩]⟩ s

def run (calls : List Call) (doc : Value) : Value :=
  calls.foldl (fun d c => (c.outcome d).doc) doc

variable {c}

theorem last_moves {last : Fragment} (hlast : c.path.getLast? = some last) : last.moves := by
  obtain ⟨bytes, hread⟩ := c.read
  obtain ⟨hanchored, hproper⟩ := Path.fragments_of_parseBytes hread
  cases hpath : c.path with
  | nil => simp [hpath] at hlast
  | cons f rest =>
    rw [hpath] at hlast hanchored hproper
    cases rest with
    | nil =>
      cases hlast
      cases f with
      | root => exact absurd hpath c.below.1
      | current => exact absurd hpath c.below.2
      | bracket => exact (hproper .bracket List.mem_cons_self).elim
      | _ => rfl
    | cons next more =>
      rw [List.getLast?_cons_cons] at hlast
      exact hanchored last (List.mem_of_getLast? hlast)

/-- In every state of a call, a location waits for the last fragment only if that leads down. -/
theorem moves_of_visits (h : c.Visits doc s) : ∀ l ∈ s.levels, ∀ f, l.rest = [f] → f.moves := by
  obtain ⟨last, hlast, -, hleads⟩ := h
  intro l hl f hf
  obtain ⟨before, hbefore⟩ := suffix_of_leads hleads l hl
  rw [← hbefore, hf, List.getLast?_concat] at hlast
  exact last_moves (hbefore ▸ hf ▸ List.getLast?_concat)

theorem fields_of_visits (hdoc : doc.HasFields fields) (h : c.Visits doc s) :
    s.doc.HasFields fields := by
  obtain ⟨last, hlast, hallows, hleads⟩ := h
  induction hleads with
  | refl => exact hdoc
  | tail hleads hstep ih =>
    have hround := State.fields_round ih (moves_of_visits ⟨last, hlast, hallows, hleads⟩)
      c.action c.one
    rwa [hstep] at hround

/-- A call leaves a record its fields, however it ends. -/
theorem outcome_keeps (hdoc : doc.HasFields fields) (hd : doc.WellFormed) :
    (c.outcome doc).doc.HasFields fields ∧ (c.outcome doc).doc.WellFormed := by
  cases hlast : c.path.getLast? with
  | none =>
    simp only [outcome, Path.update, hlast]
    exact ⟨hdoc, hd⟩
  | some last =>
    by_cases hallows : c.action.allows last
    · obtain ⟨bytes, hread⟩ := c.read
      obtain ⟨s, hleads, hend⟩ := Path.ends_of_anchored (fun _ _ => rfl)
        (Path.anchored_of_parseBytes hread) hlast hallows c.formed c.one hd
      have hvisits : c.Visits doc s := ⟨last, hlast, hallows, hleads⟩
      have hround := State.fields_round (fields_of_visits hdoc hvisits) (moves_of_visits hvisits)
        c.action c.one
      rw [hend] at hround
      have hwithin := within_of_leads (fun _ _ => rfl) c.formed hleads
        ⟨hd, List.forall_mem_nil _⟩
      exact ⟨hround, hwithin.outcome (fun _ _ => rfl) c.formed hend⟩
    · simp only [outcome, Path.update, hlast, hallows]
      exact ⟨hdoc, hd⟩

theorem run_keeps (calls : List Call) (hdoc : doc.HasFields fields) (hd : doc.WellFormed) :
    (run calls doc).HasFields fields ∧ (run calls doc).WellFormed := by
  induction calls generalizing doc with
  | nil => exact ⟨hdoc, hd⟩
  | cons c calls ih =>
    obtain ⟨hdoc, hd⟩ := c.outcome_keeps hdoc hd
    exact ih hdoc hd

/-- A call ends with the first write to the document that is refused, and leaves the document as
it was just before. -/
theorem outcome_of_refused {q : Step} {cause : AssignError} (h : c.Visits doc s)
    (hwrites : s.Writes c.action c.one [] v q w) (hw : v.writeChild q w = .error cause) :
    (c.outcome doc).doc = v ∧
      ∃ text, (c.outcome doc).error = some (.refused c.action.name text cause) := by
  obtain ⟨last, hlast, hallows, hleads⟩ := h
  obtain ⟨o, text, hend, hput, herror⟩ := hwrites.refused hw
  have hends : State.Ends c.action c.one ⟨doc, [], [⟨[], c.path, false, [[]]⟩]⟩ o :=
    ⟨s, hleads, hend⟩
  have houtcome : c.outcome doc = o := by
    simp only [outcome, Path.update, hlast, hallows, if_true]
    exact hends.run_eq
  rw [houtcome]
  exact ⟨(Option.some.inj hput).symm, text, herror⟩

/-- A record that calls are made on is left with the fields that it had, in their order, whatever
is written and whether the calls succeed or fail. It has them at every time of every call. When it
refuses a write, the call ends there, and the record is left as it was just before the write. -/
theorem run_keeps_fields (hdoc : doc.HasFields fields) (hd : doc.WellFormed)
    (calls : List Call) :
    (run calls doc).HasFields fields ∧
      ∀ earlier c later, calls = earlier ++ c :: later →
        ∀ s, c.Visits (run earlier doc) s → s.doc.HasFields fields ∧
          ∀ v q w cause, s.Writes c.action c.one [] v q w → v.writeChild q w = .error cause →
            v.HasFields fields ∧ (c.outcome (run earlier doc)).doc = v ∧
              ∃ text, (c.outcome (run earlier doc)).error =
                some (.refused c.action.name text cause) := by
  refine ⟨(run_keeps calls hdoc hd).1, fun earlier c later _ s hvisits => ?_⟩
  obtain ⟨hbefore, hformed⟩ := run_keeps earlier hdoc hd
  refine ⟨fields_of_visits hbefore hvisits, fun v q w cause hwrites hw => ?_⟩
  obtain ⟨hv, herror⟩ := outcome_of_refused hvisits hwrites hw
  exact ⟨hv ▸ (outcome_keeps hbefore hformed).1, hv, herror⟩

end

/-- In the record `{"a":1,"b":{"c":2}}` an object is written over `b` before `a` refuses it. Then
`b` is deleted, which leaves a null. -/
theorem run_keeps_fields_of_refused :
    let inner : Value := .keyed .record [("c", .int 2)]
    let doc : Value := .keyed .record [("a", .int 1), ("b", inner)]
    let v : Value := .keyed .record [("a", .int 1), ("b", .object [])]
    ∃ first second : Call, first.path = [.union [.key "b", .key "a"]] ∧
      first.action = .set (.object []) ∧ second.path = [.child "b"] ∧ second.action = .delete ∧
      doc.HasFields ["a", "b"] ∧ doc.WellFormed ∧ (run [first, second] doc).HasFields ["a", "b"] ∧
      v.writeChild (.key "a") (.object []) = .error ⟨"a", "object"⟩ ∧
      (first.outcome doc).doc = v := by
  intro inner doc v
  let first : Call := {
    path := [.union [.key "b", .key "a"]]
    action := .set (.object [])
    one := false
    read := ⟨Text.Utf8.encode "['b','a']".toList, rfl⟩
    below := ⟨nofun, nofun⟩
    formed := rfl }
  let second : Call := {
    path := [.child "b"]
    action := .delete
    one := false
    read := ⟨Text.Utf8.encode "b".toList, rfl⟩
    below := ⟨nofun, nofun⟩
    formed := trivial }
  have hdoc : doc.HasFields ["a", "b"] := ⟨rfl, rfl⟩
  have hd : doc.WellFormed := by decide
  have hw : v.writeChild (.key "a") (.object []) = .error ⟨"a", "object"⟩ := rfl
  have hvisits : first.Visits doc ⟨doc, [], [⟨[], first.path, false, [[]]⟩]⟩ :=
    ⟨_, rfl, rfl, .refl⟩
  have hwrites : State.Writes first.action first.one ⟨doc, [], [⟨[], first.path, false, [[]]⟩]⟩ []
      v (.key "a") (.object []) := .act rfl rfl rfl (.written rfl rfl (.set rfl))
  obtain ⟨hrun, hcalls⟩ := run_keeps_fields hdoc hd [first, second]
  obtain ⟨-, hrefused⟩ := hcalls [] first [second] rfl _ hvisits
  obtain ⟨-, hv, -⟩ := hrefused v (.key "a") (.object []) _ hwrites hw
  exact ⟨first, second, rfl, rfl, rfl, rfl, hdoc, hd, hrun, hw, hv⟩

end Call

end Update
end DocPath
