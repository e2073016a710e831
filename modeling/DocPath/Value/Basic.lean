/-! Document values: the JSON shapes, two kinds of keyed container beside the plain
object, and arrays of fixed size beside the plain array. A document is a finite tree;
members of keyed containers keep the order in which they were written. -/
namespace DocPath

/-- The rule by which a keyed container other than a plain object finds and accepts members. -/
inductive KeyedKind where
  /-- A fixed set of fields, found by exact name or else by name up to ASCII case. -/
  | record
  /-- An open table, found by exact name only. -/
  | table
  deriving DecidableEq, Repr, Inhabited

/-- What error messages tell values apart by. -/
inductive ValueType where
  | null
  | bool
  | int
  | float
  | str
  | array
  | object
  | keyed
  | slots
  deriving DecidableEq, Repr, Inhabited

def ValueType.name : ValueType → String
  | .null => "null"
  | .bool => "bool"
  | .int => "int"
  | .float => "float"
  | .str => "string"
  | .array => "array"
  | .object => "object"
  | .keyed => "keyed"
  | .slots => "indexed"

inductive Value where
  | null
  | bool (b : Bool)
  | int (n : Int64)
  | float (x : Float)
  | str (s : String)
  | array (items : List Value)
  | object (members : List (String × Value))
  | keyed (kind : KeyedKind) (members : List (String × Value))
  /-- A sequence whose length never changes, and which takes no values of the types refused. -/
  | slots (refused : List ValueType) (items : List Value)
  deriving Inhabited

/-- Members of a keyed container, in writing order. -/
abbrev Members := List (String × Value)

/-- One step from a container to a child. -/
inductive Step where
  | key (name : String)
  | index (i : Nat)
  deriving DecidableEq, Repr, Inhabited

abbrev Location := List Step

/-- The position that a possibly negative index names in a sequence of `len` elements. -/
def normalizeIndex (index : Int64) (len : Nat) : Option Nat :=
  if (len : Int) ≤ Int64.maxValue.toInt then
    let i := if index.toInt < 0 then len + index.toInt else index.toInt
    if 0 ≤ i ∧ i < len then some i.toNat else none
  else none

def sameNameIgnoringCase (a b : String) : Bool :=
  a.toList.map Char.toLower == b.toList.map Char.toLower

/-- The member name that a lookup of `key` ends at. -/
def KeyedKind.resolve? (kind : KeyedKind) (ms : Members) (key : String) : Option String :=
  match kind with
  | .table => if ms.any (·.1 == key) then some key else none
  | .record =>
    if ms.any (·.1 == key) then some key
    else (ms.find? fun m => sameNameIgnoringCase m.1 key).map (·.1)

namespace Members

/-- Replaces the value of the first member called `key`, in its place. -/
def replace (key : String) (v : Value) : Members → Members
  | [] => []
  | (k, w) :: ms => if k == key then (k, v) :: ms else (k, w) :: replace key v ms

/-- Writes a member: in its place when the name is there, else at the end. -/
def insert (key : String) (v : Value) (ms : Members) : Members :=
  if ms.any (·.1 == key) then replace key v ms else ms ++ [(key, v)]

/-- The value of the first member called `key`, and the members with another one there. -/
def focus? (key : String) : Members → Option (Value × (Value → Members))
  | [] => none
  | (k, v) :: ms =>
    if k == key then some (v, fun w => (k, w) :: ms)
    else (focus? key ms).map fun m => (m.1, fun w => (k, v) :: m.2 w)

/-- Drops the first member called `key`; the others keep their order. -/
def erase (key : String) (ms : Members) : Members :=
  ms.eraseP (·.1 == key)

/-- Builds members from pairs in reading order: a later pair overwrites an earlier one of
the same name and stays at the earlier place. -/
def ofPairs (pairs : List (String × Value)) : Members :=
  pairs.foldl (fun ms p => insert p.1 p.2 ms) []

end Members

namespace Value

def type : Value → ValueType
  | .null => .null
  | .bool _ => .bool
  | .int _ => .int
  | .float _ => .float
  | .str _ => .str
  | .array _ => .array
  | .object _ => .object
  | .keyed _ _ => .keyed
  | .slots _ _ => .slots

def typeName (v : Value) : String := v.type.name

def isKeyed : Value → Bool
  | .object _ | .keyed _ _ => true
  | _ => false

def isOrdered : Value → Bool
  | .array _ | .slots _ _ => true
  | _ => false

def isContainer (v : Value) : Bool := v.isKeyed || v.isOrdered

def isNull : Value → Bool
  | .null => true
  | _ => false

def asBool? : Value → Option Bool
  | .bool b => some b
  | _ => none

def asInt? : Value → Option Int64
  | .int n => some n
  | _ => none

/-- The number as a float; integers are widened to the nearest double. -/
def asFloat? : Value → Option Float
  | .int n => some (Float.ofInt n.toInt)
  | .float x => some x
  | _ => none

def asStr? : Value → Option String
  | .str s => some s
  | _ => none

/-- Number of children of a container; scalars have none. -/
def containerLen? : Value → Option Nat
  | .array items | .slots _ items => some items.length
  | .object ms | .keyed _ ms => some ms.length
  | _ => none

def children : Value → List Value
  | .array items | .slots _ items => items
  | .object ms | .keyed _ ms => ms.map (·.2)
  | _ => []

/-- Immediate children in order, each with the step that reaches it. -/
def entries : Value → List (Step × Value)
  | .array items | .slots _ items => items.zipIdx.map fun p => (.index p.2, p.1)
  | .object ms | .keyed _ ms => ms.map fun m => (.key m.1, m.2)
  | _ => []

def getKey? (v : Value) (key : String) : Option Value :=
  match v with
  | .object ms => ms.lookup key
  | .keyed kind ms => (kind.resolve? ms key).bind fun k => ms.lookup k
  | _ => none

def getIndex? (v : Value) (index : Int64) : Option Value :=
  match v with
  | .array items | .slots _ items => (normalizeIndex index items.length).bind (items[·]?)
  | _ => none

def step? (v : Value) : Step → Option Value
  | .key name => v.getKey? name
  | .index i =>
    match v with
    | .array items | .slots _ items => items[i]?
    | _ => none

/-- A node of a document taken out to be exchanged: its value, and the document that another
value makes in its place. -/
structure Focus where
  child : Value
  fill : Value → Value

def pointer? (v : Value) : Location → Option Value
  | [] => some v
  | s :: loc => (v.step? s).bind (pointer? · loc)

def focusElement? (items : List Value) (i : Nat) (whole : List Value → Value) : Option Focus :=
  if h : i < items.length then some ⟨items[i], fun w => whole (items.set i w)⟩ else none

def focusKey? (v : Value) (key : String) : Option Focus :=
  match v with
  | .object ms => (Members.focus? key ms).map fun m => ⟨m.1, fun w => .object (m.2 w)⟩
  | .keyed kind ms =>
    (kind.resolve? ms key).bind fun k =>
      (Members.focus? k ms).map fun m => ⟨m.1, fun w => .keyed kind (m.2 w)⟩
  | _ => none

def focusIndex? (v : Value) (index : Int64) : Option Focus :=
  match v with
  | .array items =>
    (normalizeIndex index items.length).bind fun i => focusElement? items i .array
  | .slots refused items =>
    (normalizeIndex index items.length).bind fun i => focusElement? items i (.slots refused)
  | _ => none

def focus? (v : Value) (s : Step) : Option Focus :=
  match v, s with
  | .array items, .index i => focusElement? items i .array
  | .slots refused items, .index i => focusElement? items i (.slots refused)
  | v, .key name => v.focusKey? name
  | _, .index _ => none

def focusAt? (v : Value) : Location → Option Focus
  | [] => some ⟨v, id⟩
  | s :: loc =>
    (v.focus? s).bind fun outer =>
      (outer.child.focusAt? loc).map fun inner => ⟨inner.child, outer.fill ∘ inner.fill⟩

/-- Exchanges the child that one step reaches; nothing else changes. -/
def putStep? (v : Value) (s : Step) (child : Value) : Option Value :=
  (v.focus? s).map (·.fill child)

def putIndex? (v : Value) (index : Int64) (child : Value) : Option Value :=
  (v.focusIndex? index).map (·.fill child)

def put? (v : Value) (loc : Location) (w : Value) : Option Value :=
  (v.focusAt? loc).map (·.fill w)

mutual

/-- Levels of containers below and including the value; a scalar has none. -/
def height : Value → Nat
  | .array items | .slots _ items => heightItems items + 1
  | .object ms | .keyed _ ms => heightMembers ms + 1
  | _ => 0

def heightItems : List Value → Nat
  | [] => 0
  | v :: vs => max v.height (heightItems vs)

def heightMembers : List (String × Value) → Nat
  | [] => 0
  | (_, v) :: ms => max v.height (heightMembers ms)

end

mutual

/-- Equality of documents. Numbers compare as numbers of one kind, the order of members
does not count, and a keyed container asks the other side by name. -/
def beq : Value → Value → Bool
  | .null, .null => true
  | .bool a, .bool b => a == b
  | .int a, .int b => a == b
  | .float a, .float b => a == b
  | .str a, .str b => a == b
  | .array a, .array b => beqItems a b
  | .object a, .object b => a.length == b.length && beqMembers a (getKey? (.object b))
  | .keyed _ a, .keyed kind b =>
    a.length == b.length && beqMembers a (getKey? (.keyed kind b))
  | .slots _ a, .slots _ b => beqItems a b
  | _, _ => false

def beqItems : List Value → List Value → Bool
  | [], [] => true
  | v :: vs, w :: ws => v.beq w && beqItems vs ws
  | _, _ => false

/-- Every member has an equal counterpart under its name. -/
def beqMembers : List (String × Value) → (String → Option Value) → Bool
  | [], _ => true
  | (k, v) :: ms, find =>
    (match find k with
      | some w => v.beq w
      | none => false) && beqMembers ms find

end

instance : BEq Value := ⟨beq⟩

mutual

/-- The same document in plain JSON shapes: keyed containers become objects, fixed-size
sequences arrays, and floats without a JSON text null. -/
def plain : Value → Value
  | .float x => if x.isFinite then .float x else .null
  | .array items | .slots _ items => .array (plainItems items)
  | .object ms | .keyed _ ms => .object (plainMembers ms)
  | v => v

def plainItems : List Value → List Value
  | [] => []
  | v :: vs => v.plain :: plainItems vs

def plainMembers : List (String × Value) → List (String × Value)
  | [] => []
  | (k, v) :: ms => (k, v.plain) :: plainMembers ms

end

theorem height_le_heightItems {v : Value} {vs : List Value} (h : v ∈ vs) :
    v.height ≤ heightItems vs := by
  induction vs with
  | nil => cases h
  | cons w ws ih =>
    rw [heightItems]
    cases h with
    | head => omega
    | tail _ h => have := ih h; omega

theorem heightMembers_eq (ms : List (String × Value)) :
    heightMembers ms = heightItems (ms.map (·.2)) := by
  induction ms with
  | nil => rfl
  | cons m ms ih =>
    obtain ⟨k, v⟩ := m
    simp [heightMembers, heightItems, ih]

theorem entries_map_snd (v : Value) : v.entries.map (·.2) = v.children := by
  cases v with
  | array items | slots refused items => simp [entries, children, Function.comp_def]
  | object ms | keyed kind ms => simp [entries, children, Function.comp_def]
  | _ => rfl

/-- Children lie strictly below their container. -/
theorem heightItems_children_lt {v : Value} (h : v.children ≠ []) :
    heightItems v.children < v.height := by
  cases v <;> simp_all [children, height, heightMembers_eq]

end Value
end DocPath
