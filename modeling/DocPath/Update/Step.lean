import DocPath.Query.Evaluate
import DocPath.Update.Action

/-! One step of an update: from a location to the locations its fragment leads to, or, at
the last fragment, to the change itself. -/
namespace DocPath.Update

variable [Libraries]

/-- A fragment of a path, with the fragments before it. -/
structure Place where
  before : List Fragment
  fragment : Fragment

def Place.text (p : Place) : String := Path.text (p.before ++ [p.fragment])

def elementAt? (v : Value) (i : Int64) : Option (Step × Value) :=
  if v.isOrdered then
    (normalizeIndex i (v.containerLen?.getD 0)).bind fun n =>
      (v.step? (.index n)).map (.index n, ·)
  else none

/-- The member that a name finds, with the step to it. -/
def memberAt? (v : Value) (name : String) : Option (Step × Value) :=
  (v.getKey? name).map (.key name, ·)

/-- The children of `v` that a fragment selects, in the order of selection; `$`, `@` and
`..` select no children. -/
def chosen (f : Fragment) (doc v : Value) : List (Step × Value) :=
  match f with
  | .child name => (memberAt? v name).toList
  | .nth i => (elementAt? v i).toList
  | .wildcard => v.entries
  | .slice s =>
    if v.isOrdered then
      (s.indices (v.containerLen?.getD 0)).filterMap fun n =>
        (v.step? (.index n)).map (.index n, ·)
    else []
  | .union keys => keys.filterMap fun
    | .key name => memberAt? v name
    | .index i => elementAt? v i
  | .filter template => Script.selectEntries template v doc
  | .root | .current | .bracket | .descent => []

/-- The container to create for a missing member: an object before a name, and before a
position an array of nulls that has it, of any length: memory is not bounded here. -/
def fresh (p : Place) (next : Fragment) : Except UpdateError Value :=
  match next with
  | .child _ => .ok (.object [])
  | .nth i =>
    if i.toInt < 0 then .error (.negativeLength p.text)
    else .ok (.array (List.replicate (i.toInt.toNat + 1) .null))
  | _ => .error (.unknownShape p.text)

/-- The step by which a name or position is followed from a container of its kind. -/
def singleStep (a : Action) (p : Place) (v : Value) : Except UpdateError (Option Step) :=
  match p.fragment with
  | .child name => .ok (if v.isKeyed then some (.key name) else none)
  | .nth i =>
    if v.isOrdered then
      match normalizeIndex i (v.containerLen?.getD 0) with
      | some n => .ok (some (.index n))
      | none => if a.isStrict then .error (.outOfBounds p.text) else .ok none
    else .ok none
  | _ => .ok none

/-- Follows a name or position. Setting creates a missing member, shaped for the fragment
after it, and is blocked by a scalar, null included; other actions go no further. Gives the
document and the location reached, if any. -/
def follow (a : Action) (p : Place) (next : Fragment) (doc : Value) (loc : Location)
    : Except UpdateError (Value × Option Location) := do
  match doc.pointer? loc with
  | none => .ok (doc, none)
  | some v =>
    match ← singleStep a p v with
    | none => .ok (doc, none)
    | some s =>
      match v.step? s with
      | some c =>
        if c.isContainer then .ok (doc, some (loc ++ [s]))
        else if a.isSet then .error (.blocked c.typeName p.text)
        else .ok (doc, none)
      | none =>
        if a.isSet then
          let c ← fresh p next
          match v.writeChild s c with
          | .error e => .error (.refused "set" p.text e)
          | .ok v => .ok ((doc.put? loc v).getD doc, some (loc ++ [s]))
        else .ok (doc, none)

/-- The steps from `v` to the children on which the last fragment acts. Setting also names
members that do not exist yet. -/
def targets (a : Action) (p : Place) (doc v : Value) : Except UpdateError (List Step) :=
  match p.fragment with
  | .child name =>
    if a.isSet then .ok (if v.isKeyed then [.key name] else [])
    else .ok ((chosen p.fragment doc v).map (·.1))
  | .nth _ => do
    let s ← singleStep a p v
    .ok s.toList
  | .union keys =>
    if a.isSet then
      .ok (keys.filterMap fun
        | .key name => if v.isKeyed then some (.key name) else none
        | .index i =>
          if v.isOrdered then (normalizeIndex i (v.containerLen?.getD 0)).map .index else none)
    else .ok ((chosen p.fragment doc v).map (·.1))
  | _ => .ok ((chosen p.fragment doc v).map (·.1))

/-- A container being changed, whether anything was changed, and the values that have been
handed to a rewriting, the last one first. -/
structure Changed where
  value : Value
  changed : Bool
  seen : List Value

/-- A change that may stop half-way with an error and keeps what it had done. -/
abbrev Attempt := Changed × Option UpdateError

/-- Writes a value to children in turn; with `one` only to the first. -/
def writeAll (p : Place) (one : Bool) (w : Value) : List Step → Changed → Attempt
  | [], c => (c, none)
  | s :: steps, c =>
    match c.value.writeChild s w with
    | .error e => (c, some (.refused "set" p.text e))
    | .ok v =>
      let c := { c with value := v, changed := true }
      if one then (c, none) else writeAll p one w steps c

/-- Rewrites children in turn; with `one` up to the first that is changed. -/
def rewriteAll (p : Place) (one : Bool) (rewrite : List Value → Value → Option Value)
    : List Step → Changed → Attempt
  | [], c => (c, none)
  | s :: steps, c =>
    match c.value.step? s with
    | none => rewriteAll p one rewrite steps c
    | some old =>
      let new := rewrite c.seen.reverse old
      let c := { c with seen := old :: c.seen }
      match new with
      | none => rewriteAll p one rewrite steps c
      | some w =>
        match c.value.writeChild s w with
        | .error e => (c, some (.refused "modify" p.text e))
        | .ok v =>
          let c := { c with value := v, changed := true }
          if one then (c, none) else rewriteAll p one rewrite steps c

def rewriteSelf (rewrite : List Value → Value → Option Value) (c : Changed) : Changed :=
  let new := rewrite c.seen.reverse c.value
  let c := { c with seen := c.value :: c.seen }
  match new with
  | some w => { c with value := w, changed := true }
  | none => c

/-- Acts on the children of a value that the last fragment names. -/
def actOn (a : Action) (one : Bool) (p : Place) (steps : List Step) (c : Changed) : Attempt :=
  match a with
  | .set w => writeAll p one w steps c
  | .delete | .remove =>
    let ((v, had), e) := c.value.removeChildren (if one then steps.take 1 else steps)
    ({ c with value := v, changed := had }, e.map (.refused a.name p.text ·))
  | .modify rewrite => rewriteAll p one rewrite steps c

/-- Acts on the node at a location, if there is one. The `value` of the result is the whole
document. -/
def actAt (doc : Value) (loc : Location) (seen : List Value) (act : Value → Attempt) : Attempt :=
  match doc.pointer? loc with
  | none => (⟨doc, false, seen⟩, none)
  | some v =>
    let (c, e) := act v
    ({ c with value := (doc.put? loc c.value).getD doc }, e)

/-- Acts on the node at a location itself; only a rewriting does anything there. -/
def applySelf (a : Action) (doc : Value) (loc : Location) (seen : List Value) : Attempt :=
  match a with
  | .modify rewrite => actAt doc loc seen fun v => (rewriteSelf rewrite ⟨v, false, seen⟩, none)
  | _ => (⟨doc, false, seen⟩, none)

/-- Acts on the children that the last fragment names of the node at a location. -/
def applyChildren (a : Action) (one : Bool) (p : Place) (doc : Value) (loc : Location)
    (seen : List Value) : Attempt :=
  actAt doc loc seen fun v =>
    match targets a p doc v with
    | .error e => (⟨v, false, seen⟩, some e)
    | .ok steps => actOn a one p steps ⟨v, false, seen⟩

/-- Acts at a location for the last fragment: on the value there for `$` and `@`, else on
its children. -/
def apply (a : Action) (one : Bool) (p : Place) (doc : Value) (loc : Location)
    (seen : List Value) : Attempt :=
  match p.fragment with
  | .root => applySelf a doc [] seen
  | .current | .bracket => applySelf a doc loc seen
  | _ => applyChildren a one p doc loc seen

end DocPath.Update
