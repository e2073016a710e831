import DocPath.Value.Basic

/-! Writing and removing the children of one container. A plain object takes any member
and a plain array any element in range; records, tables and fixed-size sequences each
have their own rule. Refusals leave the container as it was. -/
namespace DocPath

/-- A container refused a value of type `found` for the child called `target`. -/
structure AssignError where
  target : String
  found : String
  deriving DecidableEq, Repr

def AssignError.message (e : AssignError) : String :=
  "can not assign a " ++ e.found ++ " to '" ++ e.target ++ "'"

namespace Value

/-- Whether a record field that holds `current` may be given `new`: null goes with
everything, an integer fits a float field, and otherwise the kinds have to agree, where all
ordered containers are one kind and all keyed containers another. -/
def accepts (current new : Value) : Bool :=
  match current, new with
  | .null, _ | _, .null => true
  | .float _, .int _ => true
  | .bool _, .bool _ | .int _, .int _ | .float _, .float _ | .str _, .str _ => true
  | .array _, .array _ | .array _, .slots _ _ => true
  | .slots _ _, .array _ | .slots _ _, .slots _ _ => true
  | .object _, .object _ | .object _, .keyed _ _ => true
  | .keyed _ _, .object _ | .keyed _ _, .keyed _ _ => true
  | _, _ => false

/-- Writes a member of a record: the field must exist and accept the value. -/
def writeField (ms : Members) (key : String) (v : Value) : Except AssignError Members :=
  match KeyedKind.record.resolve? ms key with
  | none => .error ⟨key, v.typeName⟩
  | some k =>
    match ms.lookup k with
    | none => .error ⟨key, v.typeName⟩
    | some current =>
      if current.accepts v then .ok (Members.replace k v ms) else .error ⟨key, v.typeName⟩

/-- Writes a slot of a fixed-size sequence: it has to be there, and take the value. -/
def writeSlot (refused : List ValueType) (items : List Value) (i : Nat) (v : Value)
    : Except AssignError Value :=
  if i < items.length ∧ v.type ∉ refused then .ok (.slots refused (items.set i v))
  else .error ⟨toString i, v.typeName⟩

/-- Writes the child that a step names. Objects and tables take new members at the end. -/
def writeChild (parent : Value) (s : Step) (v : Value) : Except AssignError Value :=
  match parent, s with
  | .object ms, .key k => .ok (.object (Members.insert k v ms))
  | .keyed .table ms, .key k => .ok (.keyed .table (Members.insert k v ms))
  | .keyed .record ms, .key k => (writeField ms k v).map (.keyed .record)
  | .array items, .index i =>
    if i < items.length then .ok (.array (items.set i v)) else .error ⟨toString i, v.typeName⟩
  | .slots refused items, .index i => writeSlot refused items i v
  | _, .key k => .error ⟨k, v.typeName⟩
  | _, .index i => .error ⟨toString i, v.typeName⟩

/-- Removes the member called `key` and hands back its value. A record keeps the field and
clears it to null. -/
def removeMember (parent : Value) (key : String) : Value × Option Value :=
  match parent with
  | .object ms => (.object (Members.erase key ms), ms.lookup key)
  | .keyed .table ms => (.keyed .table (Members.erase key ms), ms.lookup key)
  | .keyed .record ms =>
    match KeyedKind.record.resolve? ms key with
    | none => (.keyed .record ms, none)
    | some k => (.keyed .record (Members.replace k .null ms), ms.lookup k)
  | v => (v, none)

/-- Removes the element at a position: later ones move up, except that a fixed-size
sequence keeps the place and has null written there, which it may refuse. Says whether there
was one. -/
def removeElement (parent : Value) (i : Nat) : Except AssignError (Value × Bool) :=
  match parent with
  | .array items =>
    .ok (if i < items.length then (.array (items.eraseIdx i), true) else (parent, false))
  | .slots refused items =>
    if i < items.length then (writeSlot refused items i .null).map (·, true)
    else .ok (parent, false)
  | v => .ok (v, false)

/-- Distinct positions from the highest down. -/
def descending (is : List Nat) : List Nat :=
  (is.mergeSort fun a b => b ≤ a).eraseReps

def stepKeys (steps : List Step) : List String :=
  steps.filterMap fun
    | .key k => some k
    | .index _ => none

def stepIndexes (steps : List Step) : List Nat :=
  steps.filterMap fun
    | .key _ => none
    | .index i => some i

/-- A container that children are removed from, and whether anything was there. -/
abbrev Reduced := Value × Bool

/-- Removes elements in turn, up to one that the container refuses to give up. -/
def removeElements : List Nat → Reduced → Reduced × Option AssignError
  | [], r => (r, none)
  | i :: is, (v, had) =>
    match v.removeElement i with
    | .error e => ((v, had), some e)
    | .ok (v, here) => removeElements is (v, had || here)

def removeMembers (keys : List String) (r : Reduced) : Reduced :=
  keys.foldl (fun (v, had) k => ((v.removeMember k).1, had || (v.removeMember k).2.isSome)) r

/-- Removes the children that the steps name, each once: members in the order given, then
elements from the highest position down, so that no removal shifts one still to come. What
was removed before an error stays removed. -/
def removeChildren (parent : Value) (steps : List Step) : Reduced × Option AssignError :=
  removeElements (descending (stepIndexes steps)) (removeMembers (stepKeys steps) (parent, false))

mutual

/-- The document with every object read as a record. -/
def toRecords : Value → Value
  | .array items => .array (toRecordsItems items)
  | .object ms => .keyed .record (toRecordsMembers ms)
  | v => v

def toRecordsItems : List Value → List Value
  | [] => []
  | v :: vs => v.toRecords :: toRecordsItems vs

def toRecordsMembers : List (String × Value) → List (String × Value)
  | [] => []
  | (k, v) :: ms => (k, v.toRecords) :: toRecordsMembers ms

end

/-- Reads a document as a record; its root has to be an object. -/
def record? (v : Value) : Except String Value :=
  match v with
  | .object _ => .ok v.toRecords
  | v => .error ("expected a record, found " ++ v.typeName)

mutual

/-- The document with every object read as a table and every array as a sequence of
fixed size that takes no strings. -/
def toFixed : Value → Value
  | .array items => .slots [.str] (toFixedItems items)
  | .object ms => .keyed .table (toFixedMembers ms)
  | v => v

def toFixedItems : List Value → List Value
  | [] => []
  | v :: vs => v.toFixed :: toFixedItems vs

def toFixedMembers : List (String × Value) → List (String × Value)
  | [] => []
  | (k, v) :: ms => (k, v.toFixed) :: toFixedMembers ms

end

end Value
end DocPath
