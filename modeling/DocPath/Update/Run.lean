import DocPath.Update.Step

/-! Carrying out an action at every location that a path selects.

Like a search, an update keeps its work on a stack of levels, but what waits are locations
in a document that changes meanwhile. A descent visits the containers below a value before
the value itself, so that a change never moves or removes a location that still waits. The
branches of a descent are taken in their order: an action meant for one place only goes to the
first branch that has a match, and in it to a match below a value before the value itself. -/
namespace DocPath.Update

variable [Libraries]

/-- Locations that wait for the first of the fragments `rest`. `expanded` says that the
containers below them have been queued for a descent already. -/
structure Level where
  before : List Fragment
  rest : List Fragment
  expanded : Bool
  waiting : List Location

def containerSteps (v : Value) : List Step :=
  (v.entries.filter fun e => e.2.isContainer).map (·.1)

/-- The levels that a descent queues at a location: the containers below first, then the
location itself. -/
def descend (l : Level) (doc : Value) (loc : Location) : List Level :=
  match doc.pointer? loc with
  | none => []
  | some v =>
    [⟨l.before, l.rest, false, (containerSteps v).map fun s => loc ++ [s]⟩,
      ⟨l.before, l.rest, true, [loc]⟩]

/-- What the first of a level's fragments leads to when others follow it: the document, in
which setting may have created a member, and the levels to be worked through next. -/
def advance (a : Action) (l : Level) (f next : Fragment) (rest : List Fragment) (doc : Value)
    (loc : Location) : Except UpdateError (Value × List Level) :=
  let onward (locs : List Location) : Level := ⟨l.before ++ [f], next :: rest, false, locs⟩
  match f with
  | .root => .ok (doc, [onward [[]]])
  | .current | .bracket => .ok (doc, [onward [loc]])
  | .child _ | .nth _ => do
    let (doc, reached) ← follow a ⟨l.before, f⟩ next doc loc
    .ok (doc, [onward reached.toList])
  | .descent =>
    if l.expanded then .ok (doc, [onward [loc]]) else .ok (doc, descend l doc loc)
  | _ =>
    match doc.pointer? loc with
    | none => .ok (doc, [])
    | some v =>
      let steps := ((chosen f doc v).filter fun e => e.2.isContainer).map (·.1)
      .ok (doc, [onward (steps.map fun s => loc ++ [s])])

/-- An update under way: the document, the values handed to a rewriting, the last one
first, and the levels that wait. -/
structure State where
  doc : Value
  seen : List Value
  levels : List Level

/-- The end of an update. Changes made before an error stay. -/
structure Outcome where
  doc : Value
  seen : List Value
  error : Option UpdateError
  deriving Inhabited

def State.finish (s : State) (e : Option UpdateError) : Outcome := ⟨s.doc, s.seen.reverse, e⟩

/-- One round: takes the first waiting location of the level on top. -/
def State.step (a : Action) (one : Bool) (s : State) : Outcome ⊕ State :=
  match s.levels with
  | [] => .inl (s.finish none)
  | ⟨_, _, _, []⟩ :: levels => .inr { s with levels := levels }
  | ⟨before, rest, expanded, loc :: locs⟩ :: levels =>
    let levels := ⟨before, rest, expanded, locs⟩ :: levels
    match rest with
    | [] => .inr { s with levels := levels }
    | [f] =>
      let (c, e) := apply a one ⟨before, f⟩ s.doc loc s.seen
      let s : State := ⟨c.value, c.seen, levels⟩
      if e.isSome ∨ (one ∧ c.changed) then .inl (s.finish e) else .inr s
    | f :: next :: more =>
      match advance a ⟨before, rest, expanded, [loc]⟩ f next more s.doc loc with
      | .error e => .inl (s.finish (some e))
      | .ok (doc, queued) => .inr ⟨doc, s.seen, queued ++ levels⟩

/-- Goes on round by round to the end. Only a path that returns to the document in its
middle can let a value grow before a descent reaches its end, and so go on for ever. -/
def State.run (a : Action) (one : Bool) (s : State) : Outcome :=
  Id.run (repeatM (fun s => pure (s.step a one).swap) s)

variable {a : Action} {one : Bool} {s t : State} {o : Outcome}

theorem State.run_of_inl (h : s.step a one = .inl o) : s.run a one = o := by
  unfold run
  rw [repeatM_eq_of_monadTail]
  change Id.run (pure (s.step a one).swap >>= _) = o
  rw [h]
  rfl

theorem State.run_of_inr (h : s.step a one = .inr t) : s.run a one = t.run a one := by
  unfold run
  rw [repeatM_eq_of_monadTail]
  change Id.run (pure (s.step a one).swap >>= _) = _
  rw [h]
  rfl

end DocPath.Update

namespace DocPath.Path

variable [Libraries]

open Update (Outcome)

/-- Carries out an action at every location that a path selects, or with `one` only at the
first that it changes. -/
def update (p : Path) (a : Action) (one : Bool) (doc : Value) : Outcome :=
  match p.getLast? with
  | none => ⟨doc, [], some (.emptyPath a.name)⟩
  | some last =>
    if a.allows last then
      Update.State.run a one ⟨doc, [], [⟨[], p, false, [[]]⟩]⟩
    else ⟨doc, [], some (.illegalEnd a.name last.kindName)⟩

/-- Writes a value at every location, creating containers on the way. -/
def set (p : Path) (v : Value) (doc : Value) : Outcome := p.update (.set v) false doc

/-- Writes a value at the first location. Under a descent what is below a value comes before it. -/
def setOne (p : Path) (v : Value) (doc : Value) : Outcome := p.update (.set v) true doc

/-- Deletes every location; arrays shrink. -/
def delete (p : Path) (doc : Value) : Outcome := p.update .delete false doc

def deleteOne (p : Path) (doc : Value) : Outcome := p.update .delete true doc

/-- Removes every location, which a filter may select, and ignores positions that are not
there. -/
def remove (p : Path) (doc : Value) : Outcome := p.update .remove false doc

def removeOne (p : Path) (doc : Value) : Outcome := p.update .remove true doc

def modify (p : Path) (rewrite : List Value → Value → Option Value) (doc : Value) : Outcome :=
  p.update (.modify rewrite) false doc

/-- Rewrites values up to the first that is changed. -/
def modifyOne (p : Path) (rewrite : List Value → Value → Option Value) (doc : Value) : Outcome :=
  p.update (.modify rewrite) true doc

end DocPath.Path
