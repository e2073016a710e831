import DocPath.Path.Syntax
import DocPath.Value.Basic

/-! What the operators of filter scripts compute with.

Nothing here fails: an operation without a sensible result gives false when it is a test
and nothing when it is a computation. Integers and floats meet as decimals. -/
namespace DocPath

variable [Libraries]

/-- An operand during evaluation. -/
inductive Term where
  | nothing
  | null
  | bool (b : Bool)
  | int (n : Int64)
  | float (x : Float)
  | str (s : String)
  /-- A container of the document. -/
  | container (v : Value)
  /-- A list written in the script. -/
  | list (items : List Operand)
  /-- All matches of a path. -/
  | found (vs : List Value)
  | regex (r : Regex)

namespace Term

def ofValue : Value → Term
  | .null => .null
  | .bool b => .bool b
  | .int n => .int n
  | .float x => .float x
  | .str s => .str s
  | v => .container v

/-- A literal as an operand. A path stands for nothing here: inside a list it is not
followed. -/
def ofOperand : Operand → Term
  | .null => .null
  | .nothing | .path _ => .nothing
  | .bool b => .bool b
  | .int n => .int n
  | .float x => .float x
  | .str s => .str s
  | .list items => .list items
  | .regex r => .regex r

def isTrue : Term → Bool
  | .bool b => b
  | _ => false

/-- The length of what has one: bytes of a string, elements of the others. -/
def length? : Term → Option Nat
  | .str s => some s.utf8ByteSize
  | .list items => some items.length
  | .found vs => some vs.length
  | .container v => v.containerLen?
  | _ => none

def compareMixed? (n : Int64) (x : Float) : Option Ordering :=
  match Libraries.decimals.ofFloat? x with
  | some d => some (Libraries.decimals.compare (Libraries.decimals.ofInt n.toInt) d)
  | none => compareFloats? (Float.ofInt n.toInt) x
where
  /-- How floats compare; not-a-number compares with none. -/
  compareFloats? (x y : Float) : Option Ordering :=
    if x < y then some .lt
    else if y < x then some .gt
    else if x == y then some .eq
    else none

def compareNumbers? : Term → Term → Option Ordering
  | .int m, .int n => some (compare m.toInt n.toInt)
  | .float x, .float y => compareMixed?.compareFloats? x y
  | .int n, .float x => compareMixed? n x
  | .float x, .int n => (compareMixed? n x).map Ordering.swap
  | _, _ => none

/-- How two operands compare: numbers by size, strings by their characters' codes. -/
def compare? : Term → Term → Option Ordering
  | .str s, .str t => some (compare s t)
  | a, b => compareNumbers? a b

/-- Equality of operands that hold no list and no container. -/
def equalScalars (a b : Term) : Bool :=
  match a, b with
  | .null, .null => true
  | .bool x, .bool y => x == y
  | .int m, .int n => m == n
  | .float x, .float y => x == y
  | .int _, .float _ | .float _, .int _ => compareNumbers? a b == some .eq
  | .str s, .str t => s == t
  | .regex r, .regex s => r.source == s.source
  | _, _ => false

mutual

/-- Equality of literals. A path in a list equals nothing, itself included. -/
def equalLiterals : Operand → Operand → Bool
  | .list as, .list bs => equalItems as bs
  | .list _, _ | _, .list _ => false
  | a, b => equalScalars (ofOperand a) (ofOperand b)

def equalItems : List Operand → List Operand → Bool
  | [], [] => true
  | a :: as, b :: bs => equalLiterals a b && equalItems as bs
  | _, _ => false

end

mutual

/-- Equality of a literal with a value: a list equals a sequence with equal elements. -/
def equalsValue : Operand → Value → Bool
  | .list items, .array vs | .list items, .slots _ vs => equalsValues items vs
  | .list _, _ => false
  | o, v => equalScalars (ofOperand o) (ofValue v)

def equalsValues : List Operand → List Value → Bool
  | [], [] => true
  | o :: os, v :: vs => equalsValue o v && equalsValues os vs
  | _, _ => false

end

/-- Equality of operands. Nothing, and all matches of a path, equal no operand. -/
def equal : Term → Term → Bool
  | .container v, .container w => v == w
  | .list as, .list bs => equalItems as bs
  | .container v, .list items | .list items, .container v => equalsValue (.list items) v
  | a, b => equalScalars a b

def memberOf (a : Term) : Term → Bool
  | .list items => items.any fun o => equal a (ofOperand o)
  | .container v => v.isOrdered && v.children.any fun c => equal a (ofValue c)
  | _ => false

/-- Arithmetic on doubles. Division by zero gives nothing. -/
def floatArithmetic (op : Operator) (x y : Float) : Term :=
  match op with
  | .add => .float (x + y)
  | .subtract => .float (x - y)
  | .multiply => .float (x * y)
  | _ => if y == 0.0 then .nothing else .float (x / y)

/-- Arithmetic on integers, which gives nothing outside 64 bits. Division drops the
fraction. -/
def intArithmetic (op : Operator) (m n : Int64) : Term :=
  let result? : Option Int := match op with
    | .add => some (m.toInt + n.toInt)
    | .subtract => some (m.toInt - n.toInt)
    | .multiply => some (m.toInt * n.toInt)
    | _ => if n = 0 then none else some (m.toInt.tdiv n.toInt)
  match result? with
  | some r =>
    if Int64.minValue.toInt ≤ r ∧ r ≤ Int64.maxValue.toInt then .int (Int64.ofInt r) else .nothing
  | none => .nothing

/-- Arithmetic on an integer and a float: in decimals if both and the result have one, else
in doubles. -/
def mixedArithmetic (op : Operator) (x y : Float) (dx dy : Option Libraries.decimals.Number) :
    Term :=
  let result? := do
    let dx ← dx
    let dy ← dy
    match op with
    | .add => Libraries.decimals.add? dx dy
    | .subtract => Libraries.decimals.sub? dx dy
    | .multiply => Libraries.decimals.mul? dx dy
    | _ => Libraries.decimals.div? dx dy
  match result?.bind Libraries.decimals.toFloat? with
  | some x => .float x
  | none => floatArithmetic op x y

/-- The four computations; strings can be added. -/
def arithmetic (op : Operator) (a b : Term) : Term :=
  match a, b with
  | .int m, .int n => intArithmetic op m n
  | .float x, .float y => floatArithmetic op x y
  | .int n, .float y =>
    mixedArithmetic op (Float.ofInt n.toInt) y (some (Libraries.decimals.ofInt n.toInt))
      (Libraries.decimals.ofFloat? y)
  | .float x, .int n =>
    mixedArithmetic op x (Float.ofInt n.toInt) (Libraries.decimals.ofFloat? x)
      (some (Libraries.decimals.ofInt n.toInt))
  | .str s, .str t =>
    match op with
    | .add => .str (s ++ t)
    | _ => .nothing
  | _, _ => .nothing

/-- The pattern that matches a whole string where the given one matches somewhere. One that
has both anchors already is kept. -/
def anchored (pattern : String) : String :=
  if pattern.startsWith "^" ∧ pattern.endsWith "$" then pattern else "^(?:" ++ pattern ++ ")$"

/-- Whether a pattern, given as such or as a string, occurs in a string. -/
def matchesPattern : Term → Term → Bool
  | .str s, .regex r => r.isMatch s
  | .str s, .str p =>
    match Regex.compile? p with
    | some r => r.isMatch s
    | none => false
  | _, _ => false

/-- The test of a pattern by a function: nothing for what is no string, no pattern, or an
empty or malformed pattern. -/
def testPattern (whole : Bool) (subject pattern : Term) : Term :=
  let source? := match pattern with
    | .str p => some p
    | .regex r => some r.source
    | _ => none
  match source?, subject with
  | some p, .str s =>
    if p.isEmpty then .nothing
    else
      match Regex.compile? (if whole then anchored p else p) with
      | some r => .bool (r.isMatch s)
      | none => .nothing
  | _, _ => .nothing

def ofCount (n : Nat) : Term :=
  if (n : Int) ≤ Int64.maxValue.toInt then .int (Int64.ofInt n) else .nothing

/-- The result of an operator. Operators with one operand ignore the right one. -/
def apply (op : Operator) (a b : Term) : Term :=
  match op with
  | .equal => .bool (equal a b)
  | .notEqual => .bool !(equal a b)
  | .less => .bool (compare? a b == some .lt)
  | .greater => .bool (compare? a b == some .gt)
  | .lessEqual => .bool (compare? a b == some .lt || compare? a b == some .eq)
  | .greaterEqual => .bool (compare? a b == some .gt || compare? a b == some .eq)
  | .land => .bool (a.isTrue && b.isTrue)
  | .lor => .bool (a.isTrue || b.isTrue)
  | .lnot => .bool !a.isTrue
  | .add | .subtract | .multiply | .divide => arithmetic op a b
  | .member => .bool (memberOf a b)
  | .empty =>
    match a.length?, b with
    | some n, .bool want => .bool ((n == 0) == want)
    | _, _ => .bool false
  | .has | .present =>
    match a, b with
    | .nothing, .bool want => .bool !want
    | _, .bool want => .bool want
    | _, _ => .bool false
  | .pattern => .bool (matchesPattern a b)
  | .length =>
    match a.length? with
    | some n => ofCount n
    | none => .nothing
  | .count =>
    match a with
    | .found vs => ofCount vs.length
    | _ => .nothing
  | .wholeMatch => testPattern true a b
  | .search => testPattern false a b

end Term
end DocPath
