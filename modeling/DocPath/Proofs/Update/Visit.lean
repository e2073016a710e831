import DocPath.Update.Run
import Mathlib.Data.Nat.Find
import Mathlib.Logic.Relation

/-!
# Updates by recursion

The loop of `State.run` keeps locations on a stack of levels while the document changes.
Here the same update is written as a procedure that calls itself for the locations below
and hands the document on from one call to the next. A procedure that calls itself for ever
has no result. Whenever it has one, the loop ends too, and with that result.
-/

namespace DocPath

def Action.deletes : Action → Bool
  | .delete | .remove => true
  | _ => false

theorem Action.isSet_of_deletes {a : Action} (ha : a.deletes) : a.isSet = false := by
  cases a with
  | set v => cases ha
  | _ => rfl

namespace Update

/-- To delete children that their container gives up is to remove them. -/
theorem actOn_deletes {a : Action} (one : Bool) (p : Place) {steps : List Step} {v v' : Value}
    {had : Bool} (seen : List Value) (ha : a.deletes)
    (h : v.removeChildren (if one then steps.take 1 else steps) = ((v', had), none)) :
    actOn a one p steps ⟨v, false, seen⟩ = (⟨v', had, seen⟩, none) := by
  cases a with
  | delete | remove => simp [actOn, h]
  | _ => cases ha

/-- A document on its way through an update, with the values handed to a rewriting, the
last one first. -/
structure Progress where
  doc : Value
  seen : List Value

def Progress.finish (r : Progress) (e : Option UpdateError) : Outcome :=
  ⟨r.doc, r.seen.reverse, e⟩

/-- Values have been handed to the rewriting, and nothing else has happened. -/
def Progress.hand (r : Progress) (vs : List Value) : Progress :=
  { r with seen := vs.reverse ++ r.seen }

theorem Progress.hand_append (r : Progress) (vs ws : List Value) :
    r.hand (vs ++ ws) = (r.hand vs).hand ws := by
  simp [hand]

/-- How a call ends: the update goes on from here, or it has come to its end. -/
abbrev Visited := Except Outcome Progress

def Visited.outcome : Visited → Outcome
  | .ok r => r.finish none
  | .error o => o

def Visited.doc : Visited → Value
  | .ok r => r.doc
  | .error o => o.doc

/-- The action at a location, for the last fragment of a path. An error ends the update, and
in an update of one place so does the first change. -/
def Progress.act [Libraries] (a : Action) (one : Bool) (p : Place) (loc : Location) (r : Progress) :
    Visited :=
  let (c, e) := apply a one p r.doc loc r.seen
  if e.isSome ∨ (one ∧ c.changed) then .error (Progress.finish ⟨c.value, c.seen⟩ e)
  else .ok ⟨c.value, c.seen⟩

/-- Goes on after a call, unless the update has come to its end. -/
def Visited.andThen (res : Visited) (next : Progress → Option Visited) : Option Visited :=
  match res with
  | .ok r => next r
  | .error o => some (.error o)

/-- Visits locations in turn, each in the document that the one before leaves, until one of
them ends the update. -/
def inTurn (visit : Location → Progress → Option Visited) :
    List Location → Progress → Option Visited
  | [], r => some (.ok r)
  | loc :: locs, r => (visit loc r).bind (Visited.andThen · (inTurn visit locs))

/-- A descent by calls that are nested no deeper than the given number: first itself on every
container that is a child of the location now, in order, then the visit of the location. -/
def underneathIn (visit : Location → Progress → Option Visited) :
    (depth : Nat) → Location → Progress → Option Visited
  | 0, _, _ => none
  | depth + 1, loc, r =>
    match r.doc.pointer? loc with
    | none => some (.ok r)
    | some v =>
      (inTurn (underneathIn visit depth) ((containerSteps v).map fun s => loc ++ [s]) r).bind
        (Visited.andThen · (visit loc))

open Classical in
/-- A descent by calls that are nested as deep as it takes. -/
noncomputable def underneath (visit : Location → Progress → Option Visited) (loc : Location)
    (r : Progress) : Option Visited :=
  if h : ∃ depth, (underneathIn visit depth loc r).isSome then
    underneathIn visit (Nat.find h) loc r
  else none

/-- The step of a name or position, and then the visit of the child that it leads to. -/
def across (a : Action) (p : Place) (next : Fragment)
    (visit : Location → Progress → Option Visited) (loc : Location) (r : Progress) :
    Option Visited :=
  match follow a p next r.doc loc with
  | .error e => some (.error (r.finish (some e)))
  | .ok (doc, none) => some (.ok { r with doc })
  | .ok (doc, some loc) => visit loc { r with doc }

/-- The update of a location by the fragments `rest`, which come after `before`. -/
noncomputable def visit [Libraries] (a : Action) (one : Bool) :
    (before rest : List Fragment) → Location → Progress → Option Visited
  | _, [], _, r => some (.ok r)
  | before, [f], loc, r => some (r.act a one ⟨before, f⟩ loc)
  | before, f :: next :: more, loc, r =>
    let onward := visit a one (before ++ [f]) (next :: more)
    match f with
    | .root => onward [] r
    | .current | .bracket => onward loc r
    | .child _ | .nth _ => across a ⟨before, f⟩ next onward loc r
    | .descent => underneath onward loc r
    | _ =>
      match r.doc.pointer? loc with
      | none => some (.ok r)
      | some v =>
        let steps := ((chosen f r.doc v).filter fun e => e.2.isContainer).map (·.1)
        inTurn onward (steps.map fun s => loc ++ [s]) r

theorem inTurn_singleton (visit : Location → Progress → Option Visited) (loc : Location)
    (r : Progress) : inTurn visit [loc] r = visit loc r := by
  simp only [inTurn]
  cases visit loc r with
  | none => rfl
  | some res => cases res <;> rfl

section across

variable {a : Action} {p : Place} {next : Fragment} {loc : Location} {r : Progress}
  {call : Location → Progress → Option Visited}

theorem across_of_error {e : UpdateError} (h : follow a p next r.doc loc = .error e) :
    across a p next call loc r = some (.error (r.finish (some e))) := by
  rw [across, h]

theorem across_of_none {doc : Value} (h : follow a p next r.doc loc = .ok (doc, none)) :
    across a p next call loc r = some (.ok { r with doc }) := by
  rw [across, h]

theorem across_of_some {doc : Value} {child : Location}
    (h : follow a p next r.doc loc = .ok (doc, some child)) :
    across a p next call loc r = call child { r with doc } := by
  rw [across, h]

end across

section descents

variable {call call' : Location → Progress → Option Visited} {locs : List Location}
  {loc : Location} {r : Progress} {res : Visited} {depth : Nat}

theorem inTurn_mono (h : ∀ loc r res, call loc r = some res → call' loc r = some res)
    (hres : inTurn call locs r = some res) : inTurn call' locs r = some res := by
  induction locs generalizing r with
  | nil => exact hres
  | cons loc locs ih =>
    obtain ⟨first, hfirst, hres⟩ := Option.bind_eq_some_iff.mp hres
    refine Option.bind_eq_some_iff.mpr ⟨first, h loc r first hfirst, ?_⟩
    cases first with
    | ok r' => exact ih hres
    | error o => exact hres

/-- A result does not change when calls may be nested deeper. -/
theorem underneathIn_succ (h : underneathIn call depth loc r = some res) :
    underneathIn call (depth + 1) loc r = some res := by
  induction depth generalizing loc r res with
  | zero => cases h
  | succ depth ih =>
    rw [underneathIn] at h ⊢
    cases hv : r.doc.pointer? loc with
    | none =>
      rw [hv] at h
      exact h
    | some v =>
      simp only [hv] at h ⊢
      obtain ⟨below, hbelow, hres⟩ := Option.bind_eq_some_iff.mp h
      have deeper := inTurn_mono (fun loc r res => ih) hbelow
      exact Option.bind_eq_some_iff.mpr ⟨below, deeper, hres⟩

theorem underneathIn_mono {more : Nat} (hle : depth ≤ more)
    (h : underneathIn call depth loc r = some res) : underneathIn call more loc r = some res := by
  induction hle with
  | refl => exact h
  | step _ ih => exact underneathIn_succ ih

theorem underneath_eq_some_iff :
    underneath call loc r = some res ↔ ∃ depth, underneathIn call depth loc r = some res := by
  classical
  unfold underneath
  constructor
  · intro h
    split at h
    · exact ⟨_, h⟩
    · cases h
  · rintro ⟨depth, h⟩
    have hsome : ∃ depth, (underneathIn call depth loc r).isSome := ⟨depth, by rw [h]; rfl⟩
    rw [dif_pos hsome]
    obtain ⟨least, hleast⟩ := Option.isSome_iff_exists.mp (Nat.find_spec hsome)
    have same := underneathIn_mono (Nat.find_min' hsome (by rw [h]; rfl)) hleast
    rw [hleast, ← same, h]

/-- Calls in turn are all nested no deeper than the deepest of them. -/
theorem inTurn_underneath_iff : inTurn (underneath call) locs r = some res ↔
    ∃ depth, inTurn (underneathIn call depth) locs r = some res := by
  constructor
  · intro h
    induction locs generalizing r with
    | nil => exact ⟨0, h⟩
    | cons loc locs ih =>
      obtain ⟨first, hfirst, hres⟩ := Option.bind_eq_some_iff.mp h
      obtain ⟨depth, hdepth⟩ := underneath_eq_some_iff.mp hfirst
      cases first with
      | error o => exact ⟨depth, Option.bind_eq_some_iff.mpr ⟨.error o, hdepth, hres⟩⟩
      | ok r' =>
        obtain ⟨more, hmore⟩ := ih hres
        refine ⟨max depth more, Option.bind_eq_some_iff.mpr ⟨.ok r', ?_, ?_⟩⟩
        · exact underneathIn_mono (Nat.le_max_left depth more) hdepth
        · refine inTurn_mono (fun loc r res h => ?_) hmore
          exact underneathIn_mono (Nat.le_max_right depth more) h
  · rintro ⟨depth, h⟩
    exact inTurn_mono (fun loc r res h => underneath_eq_some_iff.mpr ⟨depth, h⟩) h

theorem underneath_of_pointer? {v : Value} (h : r.doc.pointer? loc = some v) :
    underneath call loc r =
      (inTurn (underneath call) ((containerSteps v).map fun s => loc ++ [s]) r).bind
        (Visited.andThen · (call loc)) := by
  refine Option.ext fun res => ?_
  rw [underneath_eq_some_iff, Option.bind_eq_some_iff]
  constructor
  · rintro ⟨depth, hdepth⟩
    cases depth with
    | zero => cases hdepth
    | succ depth =>
      rw [underneathIn, h] at hdepth
      obtain ⟨below, hbelow, hres⟩ := Option.bind_eq_some_iff.mp hdepth
      exact ⟨below, inTurn_underneath_iff.mpr ⟨depth, hbelow⟩, hres⟩
  · rintro ⟨below, hbelow, hres⟩
    obtain ⟨depth, hdepth⟩ := inTurn_underneath_iff.mp hbelow
    refine ⟨depth + 1, ?_⟩
    rw [underneathIn, h]
    exact Option.bind_eq_some_iff.mpr ⟨below, hdepth, hres⟩

theorem underneath_of_pointer?_none (h : r.doc.pointer? loc = none) :
    underneath call loc r = some (.ok r) := by
  rw [underneath_eq_some_iff]
  exact ⟨1, by rw [underneathIn, h]⟩

end descents

section rounds

variable {a : Action} {one : Bool} {s t : State}
variable [Libraries]

/-- The ways in which a round goes on: a level is used up, a location has nothing to wait for, the
last fragment acts, or the first of several leads on. -/
inductive State.Turns (a : Action) (one : Bool) (s : State) : State → Prop
  | usedUp {l : Level} {levels : List Level} (top : s.levels = l :: levels)
    (empty : l.waiting = []) : Turns a one s ⟨s.doc, s.seen, levels⟩
  | idle {before : List Fragment} {expanded : Bool} {loc : Location} {locs : List Location}
    {levels : List Level} (top : s.levels = ⟨before, [], expanded, loc :: locs⟩ :: levels) :
    Turns a one s ⟨s.doc, s.seen, ⟨before, [], expanded, locs⟩ :: levels⟩
  | last {before : List Fragment} {f : Fragment} {expanded : Bool} {loc : Location}
    {locs : List Location} {levels : List Level}
    (top : s.levels = ⟨before, [f], expanded, loc :: locs⟩ :: levels) :
    Turns a one s ⟨(apply a one ⟨before, f⟩ s.doc loc s.seen).1.value,
      (apply a one ⟨before, f⟩ s.doc loc s.seen).1.seen, ⟨before, [f], expanded, locs⟩ :: levels⟩
  | onward {before more : List Fragment} {f next : Fragment} {expanded : Bool} {loc : Location}
    {locs : List Location} {levels queued : List Level} {doc : Value}
    (top : s.levels = ⟨before, f :: next :: more, expanded, loc :: locs⟩ :: levels)
    (advanced : advance a ⟨before, f :: next :: more, expanded, [loc]⟩ f next more s.doc loc =
      .ok (doc, queued)) :
    Turns a one s
      ⟨doc, s.seen, queued ++ ⟨before, f :: next :: more, expanded, locs⟩ :: levels⟩

theorem State.turns_of_step (h : s.step a one = .inr t) : s.Turns a one t := by
  obtain ⟨doc, seen, levels⟩ := s
  cases levels with
  | nil => cases h
  | cons top levels =>
    obtain ⟨before, rest, expanded, waiting⟩ := top
    cases waiting with
    | nil =>
      cases h
      exact .usedUp rfl rfl
    | cons loc locs =>
      cases rest with
      | nil =>
        cases h
        exact .idle rfl
      | cons f rest =>
        cases rest with
        | nil =>
          simp only [State.step] at h
          split at h <;> cases h
          exact .last rfl
        | cons next more =>
          simp only [State.step] at h
          split at h <;> cases h
          exact .onward rfl ‹_›

inductive State.Fails (a : Action) (one : Bool) (s : State) (o : Outcome) (e : UpdateError) : Prop
  | last {before : List Fragment} {f : Fragment} {expanded : Bool} {loc : Location}
    {locs : List Location} {levels : List Level}
    (top : s.levels = ⟨before, [f], expanded, loc :: locs⟩ :: levels)
    (error : (apply a one ⟨before, f⟩ s.doc loc s.seen).2 = some e)
    (doc : o.doc = (apply a one ⟨before, f⟩ s.doc loc s.seen).1.value)
  | onward {before more : List Fragment} {f next : Fragment} {expanded : Bool} {loc : Location}
    {locs : List Location} {levels : List Level}
    (top : s.levels = ⟨before, f :: next :: more, expanded, loc :: locs⟩ :: levels)
    (error : advance a ⟨before, f :: next :: more, expanded, [loc]⟩ f next more s.doc loc =
      .error e) (doc : o.doc = s.doc)

theorem State.fails_of_step {o : Outcome} {e : UpdateError} (h : s.step a one = .inl o)
    (he : o.error = some e) : s.Fails a one o e := by
  obtain ⟨doc, seen, levels⟩ := s
  cases levels with
  | nil =>
    cases h
    cases he
  | cons top levels =>
    obtain ⟨before, rest, expanded, waiting⟩ := top
    cases waiting with
    | nil => cases h
    | cons loc locs =>
      cases rest with
      | nil => cases h
      | cons f rest =>
        cases rest with
        | nil =>
          simp only [State.step] at h
          split at h <;> cases h
          exact .last rfl he rfl
        | cons next more =>
          simp only [State.step] at h
          split at h <;> cases h
          obtain rfl := Option.some.inj he
          exact .onward rfl ‹_› rfl

end rounds

def State.Leads [Libraries] (a : Action) (one : Bool) : State → State → Prop :=
  Relation.ReflTransGen fun s t => s.step a one = .inr t

def State.Ends [Libraries] (a : Action) (one : Bool) (s : State) (o : Outcome) : Prop :=
  ∃ t, s.Leads a one t ∧ t.step a one = .inl o

variable {a : Action} {one : Bool}

theorem State.Leads.ends [Libraries] {s t : State} {o : Outcome} (hst : s.Leads a one t)
    (ht : t.Ends a one o) : s.Ends a one o := by
  obtain ⟨u, htu, hu⟩ := ht
  exact ⟨u, hst.trans htu, hu⟩

theorem State.Leads.run_eq [Libraries] {s t : State} (h : s.Leads a one t) :
    s.run a one = t.run a one := by
  induction h with
  | refl => rfl
  | tail _ hstep ih => rw [ih, State.run_of_inr hstep]

theorem State.Ends.run_eq [Libraries] {s : State} {o : Outcome} (h : s.Ends a one o) :
    s.run a one = o := by
  obtain ⟨t, hst, ht⟩ := h
  rw [hst.run_eq, State.run_of_inl ht]

def State.rounds [Libraries] (a : Action) (one : Bool) : Nat → State → Outcome ⊕ State
  | 0, s => .inr s
  | n + 1, s =>
    match s.step a one with
    | .inl o => .inl o
    | .inr t => t.rounds a one n

/-- What is read off the end of an update that has been run by rounds. -/
theorem State.run_of_rounds [Libraries] {β : Type} {g : Outcome → β} {b : β} {n : Nat} {s : State}
    (h : (s.rounds a one n).getLeft?.map g = some b) : g (s.run a one) = b := by
  induction n generalizing s with
  | zero => cases h
  | succ n ih =>
    rw [rounds] at h
    cases hs : s.step a one with
    | inl o =>
      rw [hs] at h
      rw [State.run_of_inl hs]
      exact Option.some.inj h
    | inr t =>
      rw [hs] at h
      rw [State.run_of_inr hs]
      exact ih h

/-- The loop does as a call says that ended with `res`: it comes to where only `levels` are
left, or it ends. -/
def State.Comes [Libraries] (a : Action) (one : Bool) (s : State) (levels : List Level) : Visited →
    Prop
  | .ok r => s.Leads a one ⟨r.doc, r.seen, levels⟩
  | .error o => s.Ends a one o

theorem State.Leads.comes [Libraries] {s t : State} {levels : List Level} {res : Visited}
    (hst : s.Leads a one t) (ht : t.Comes a one levels res) : s.Comes a one levels res := by
  cases res with
  | ok r => exact hst.trans ht
  | error o => exact hst.ends ht

/-- Whatever waits below them, the levels `queued` are worked off as a call says that ended
with `res`. -/
def Serves [Libraries] (a : Action) (one : Bool) (r : Progress) (queued : List Level)
    (res : Visited) :
    Prop :=
  ∀ levels, State.Comes a one ⟨r.doc, r.seen, queued ++ levels⟩ levels res

/-- One round takes a location, and the levels that it queues are worked off as a call says
that ended with `res`. -/
def Takes [Libraries] (a : Action) (one : Bool) (before rest : List Fragment) (expanded : Bool)
    (loc : Location) (r : Progress) (res : Visited) : Prop :=
  (∃ o, res = .error o ∧ ∀ locs levels,
    State.step a one ⟨r.doc, r.seen, ⟨before, rest, expanded, loc :: locs⟩ :: levels⟩ = .inl o) ∨
  ∃ r' queued, Serves a one r' queued res ∧ ∀ locs levels,
    State.step a one ⟨r.doc, r.seen, ⟨before, rest, expanded, loc :: locs⟩ :: levels⟩ =
      .inr ⟨r'.doc, r'.seen, queued ++ ⟨before, rest, expanded, locs⟩ :: levels⟩

variable {r r' : Progress} {queued others : List Level} {res : Visited} {loc : Location}
  {before rest more : List Fragment} {f next : Fragment} {expanded : Bool}

theorem serves_nil [Libraries] : Serves a one r [] (.ok r) := fun _ => .refl

theorem Serves.andThen [Libraries] {first : Visited} {next : Progress → Option Visited}
    (h : Serves a one r queued first) (hres : first.andThen next = some res)
    (h' : ∀ r', next r' = some res → Serves a one r' others res) :
    Serves a one r (queued ++ others) res := by
  intro levels
  have hfirst := h (others ++ levels)
  rw [← List.append_assoc] at hfirst
  cases first with
  | ok r' => exact State.Leads.comes hfirst (h' r' hres levels)
  | error o =>
    cases hres
    exact hfirst

theorem serves_used_up [Libraries] : Serves a one r [⟨before, rest, expanded, []⟩] (.ok r) :=
  fun _ => .single rfl

theorem Takes.serves_cons [Libraries] {locs : List Location} {first : Visited}
    {next : Progress → Option Visited} (h : Takes a one before rest expanded loc r first)
    (hres : first.andThen next = some res)
    (h' : ∀ r', next r' = some res → Serves a one r' [⟨before, rest, expanded, locs⟩] res) :
    Serves a one r [⟨before, rest, expanded, loc :: locs⟩] res := by
  rcases h with ⟨o, rfl, hstep⟩ | ⟨r', queued, hqueued, hstep⟩
  · cases hres
    exact fun levels => ⟨_, .refl, hstep locs levels⟩
  · intro levels
    have hround : State.Leads a one
        ⟨r.doc, r.seen, ⟨before, rest, expanded, loc :: locs⟩ :: levels⟩
        ⟨r'.doc, r'.seen, queued ++ ⟨before, rest, expanded, locs⟩ :: levels⟩ :=
      .single (hstep locs levels)
    have hall := hqueued.andThen hres h' levels
    rw [List.append_assoc] at hall
    exact hround.comes hall

theorem Takes.serves [Libraries] (h : Takes a one before rest expanded loc r res) :
    Serves a one r [⟨before, rest, expanded, [loc]⟩] res := by
  have ends : res.andThen (fun r => some (.ok r)) = some res := by cases res <;> rfl
  refine h.serves_cons ends fun r' h' => ?_
  cases h'
  exact serves_used_up

/-- A level is worked off location by location. -/
theorem serves_inTurn [Libraries] {visit : Location → Progress → Option Visited}
    (h : ∀ loc r res, visit loc r = some res → Takes a one before rest expanded loc r res)
    (locs : List Location) (r : Progress) (res : Visited)
    (hres : inTurn visit locs r = some res) :
    Serves a one r [⟨before, rest, expanded, locs⟩] res := by
  induction locs generalizing r with
  | nil =>
    cases hres
    exact serves_used_up
  | cons loc locs ih =>
    obtain ⟨first, hfirst, hres⟩ := Option.bind_eq_some_iff.mp hres
    exact (h loc r first hfirst).serves_cons hres ih

/-- The round of a location, when fragments follow the first. -/
theorem step_of_advance [Libraries] {doc : Value} {locs : List Location} {levels : List Level}
    (h : advance a ⟨before, f :: next :: more, expanded, [loc]⟩ f next more r.doc loc =
      .ok (doc, queued)) :
    State.step a one
        ⟨r.doc, r.seen, ⟨before, f :: next :: more, expanded, loc :: locs⟩ :: levels⟩ =
      .inr ⟨doc, r.seen, queued ++ ⟨before, f :: next :: more, expanded, locs⟩ :: levels⟩ := by
  simp only [State.step, h]

theorem takes_of_advance [Libraries] {doc : Value}
    (h : advance a ⟨before, f :: next :: more, expanded, [loc]⟩ f next more r.doc loc =
      .ok (doc, queued)) (hres : Serves a one ⟨doc, r.seen⟩ queued res) :
    Takes a one before (f :: next :: more) expanded loc r res :=
  Or.inr ⟨⟨doc, r.seen⟩, queued, hres, fun _ _ => step_of_advance h⟩

theorem act_takes [Libraries] (r : Progress) :
    Takes a one before [f] false loc r (r.act a one ⟨before, f⟩ loc) := by
  cases happ : apply a one ⟨before, f⟩ r.doc loc r.seen with
  | mk c e =>
    by_cases hend : e.isSome ∨ (one ∧ c.changed)
    · refine Or.inl ⟨Progress.finish ⟨c.value, c.seen⟩ e, ?_, fun locs levels => ?_⟩
      · simp only [Progress.act, happ, if_pos hend]
      · simp only [State.step, happ, if_pos hend]
        rfl
    · refine Or.inr ⟨⟨c.value, c.seen⟩, [], ?_, fun locs levels => ?_⟩
      · simp only [Progress.act, happ, if_neg hend]
        exact serves_nil
      · simp only [State.step, happ, if_neg hend]
        rfl

/-- The round of a name or position. -/
theorem across_takes [Libraries]
    (single : ∀ doc, advance a ⟨before, f :: next :: more, false, [loc]⟩ f next
      more doc loc = (follow a ⟨before, f⟩ next doc loc).bind fun p =>
        .ok (p.1, [⟨before ++ [f], next :: more, false, p.2.toList⟩]))
    (onward : ∀ locs r res,
      inTurn (visit a one (before ++ [f]) (next :: more)) locs r = some res →
        Serves a one r [⟨before ++ [f], next :: more, false, locs⟩] res)
    (h : across a ⟨before, f⟩ next (visit a one (before ++ [f]) (next :: more)) loc r =
      some res) :
    Takes a one before (f :: next :: more) false loc r res := by
  unfold across at h
  cases hf : follow a ⟨before, f⟩ next r.doc loc with
  | error e =>
    rw [hf] at h
    cases h
    refine Or.inl ⟨r.finish (some e), rfl, fun locs levels => ?_⟩
    have hadv := single r.doc
    rw [hf] at hadv
    simp only [State.step, hadv, Except.bind]
    rfl
  | ok p =>
    obtain ⟨doc, reached⟩ := p
    have hadv := single r.doc
    rw [hf] at hadv
    rw [hf] at h
    refine takes_of_advance hadv (onward _ _ res ?_)
    cases reached with
    | none => exact h
    | some loc => rw [Option.toList_some, inTurn_singleton]; exact h

/-- A descent is worked off as its calls say, provided that what comes after it is. -/
theorem underneath_takes [Libraries] {onward : Location → Progress → Option Visited}
    (h : ∀ loc r res, onward loc r = some res →
      Takes a one (before ++ [.descent]) (next :: more) false loc r res)
    (hres : underneath onward loc r = some res) :
    Takes a one before (.descent :: next :: more) false loc r res := by
  obtain ⟨depth, hdepth⟩ := underneath_eq_some_iff.mp hres
  clear hres
  induction depth generalizing loc r res with
  | zero => cases hdepth
  | succ depth ih =>
    rw [underneathIn] at hdepth
    cases hv : r.doc.pointer? loc with
    | none =>
      rw [hv] at hdepth
      cases hdepth
      exact takes_of_advance (by simp [advance, descend, hv]) serves_nil
    | some v =>
      simp only [hv] at hdepth
      obtain ⟨below, hbelow, hres⟩ := Option.bind_eq_some_iff.mp hdepth
      have hadv : advance a ⟨before, .descent :: next :: more, false, [loc]⟩ .descent next more
          r.doc loc = .ok (r.doc,
            [⟨before, .descent :: next :: more, false,
                (containerSteps v).map fun s => loc ++ [s]⟩] ++
              [⟨before, .descent :: next :: more, true, [loc]⟩]) := by
        simp [advance, descend, hv]
      have first := serves_inTurn (fun loc r res => ih) _ r below hbelow
      refine takes_of_advance hadv (first.andThen hres fun r' hr' => ?_)
      -- the second phase of the descent goes on at the location itself
      have here : Takes a one before (.descent :: next :: more) true loc r' res :=
        takes_of_advance (by simp [advance])
          (serves_inTurn h [loc] r' res (by rwa [inTurn_singleton]))
      exact here.serves

theorem visit_takes [Libraries] (rest : List Fragment) : ∀ (before : List Fragment) (loc : Location)
    (r : Progress) (res : Visited), visit a one before rest loc r = some res →
      Takes a one before rest false loc r res := by
  induction rest with
  | nil =>
    intro before loc r res h
    cases h
    exact Or.inr ⟨r, [], serves_nil, fun _ _ => rfl⟩
  | cons f rest ih =>
    intro before loc r res h
    cases rest with
    | nil =>
      cases h
      exact act_takes r
    | cons next more =>
      have onward : ∀ locs r res,
          inTurn (visit a one (before ++ [f]) (next :: more)) locs r = some res →
            Serves a one r [⟨before ++ [f], next :: more, false, locs⟩] res :=
        serves_inTurn (ih (before ++ [f]))
      cases f with
      | root => exact takes_of_advance rfl (onward [[]] r res (by rw [inTurn_singleton]; exact h))
      | current | bracket =>
        exact takes_of_advance rfl (onward [loc] r res (by rw [inTurn_singleton]; exact h))
      | child name => exact across_takes (fun _ => rfl) onward h
      | nth i => exact across_takes (fun _ => rfl) onward h
      | descent => exact underneath_takes (ih (before ++ [.descent])) h
      | wildcard | slice s | union keys | filter template =>
        simp only [visit] at h
        cases hv : r.doc.pointer? loc with
        | none =>
          rw [hv] at h
          cases h
          exact takes_of_advance (by simp only [advance, hv]) serves_nil
        | some v =>
          simp only [hv] at h
          exact takes_of_advance (by simp only [advance, hv]) (onward _ r res h)

/-- The loop of an update ends with what the procedure gives. -/
theorem ends_of_visit [Libraries] {p : Path} {doc : Value}
    (h : visit a one [] p [] ⟨doc, []⟩ = some res) :
    State.Ends a one ⟨doc, [], [⟨[], p, false, [[]]⟩]⟩ res.outcome := by
  have hloop := (visit_takes p [] [] ⟨doc, []⟩ res h).serves []
  cases res with
  | ok r => exact ⟨_, hloop, rfl⟩
  | error o => exact hloop

end Update
end DocPath

namespace DocPath.Path

open Update (Outcome Visited)

/-- The update that a path asks for, as the procedure carries it out. -/
noncomputable def carryOut [Libraries] (p : Path) (a : Action) (one : Bool) (doc : Value) :
    Option Outcome :=
  match p.getLast? with
  | none => some ⟨doc, [], some (.emptyPath a.name)⟩
  | some last =>
    if a.allows last then (Update.visit a one [] p [] ⟨doc, []⟩).map Visited.outcome
    else some ⟨doc, [], some (.illegalEnd a.name last.kindName)⟩

theorem update_of_visit [Libraries] {p : Path} {a : Action} {one : Bool} {doc : Value}
    {last : Fragment} {res : Visited} (hlast : p.getLast? = some last) (hallows : a.allows last)
    (h : Update.visit a one [] p [] ⟨doc, []⟩ = some res) : p.update a one doc = res.outcome := by
  simp only [update, hlast, hallows, if_true]
  exact (Update.ends_of_visit h).run_eq

end DocPath.Path
