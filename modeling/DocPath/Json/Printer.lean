import DocPath.Decimal.Shortest
import DocPath.Text.Quoted
import DocPath.Value.Basic

/-! JSON text of documents, compact or with two blanks of indentation and one member a
line. Members keep their order. Floats are written so that they read back as floats;
those that JSON cannot write become null. -/
namespace DocPath.Json

inductive Style where
  | compact
  | pretty
  deriving DecidableEq, Repr

/-- What separates an item of a container at a nesting level from what stands before it. -/
def Style.lineBreak : Style → Nat → List Char
  | .compact, _ => []
  | .pretty, level => '\n' :: List.replicate (2 * level) ' '

def Style.colon : Style → List Char
  | .compact => [':']
  | .pretty => [':', ' ']

def writeString (s : String) : List Char := Text.Quoted.write '"' s.toList

/-- Brackets around the items of a container; nothing is put between them when there are
none. -/
def Style.enclose (style : Style) (level : Nat) (opening closing : Char) (items : List Char)
    : List Char :=
  if items.isEmpty then [opening, closing]
  else opening :: (items ++ style.lineBreak level ++ [closing])

mutual

def write (style : Style) (level : Nat) : Value → List Char
  | .null => "null".toList
  | .bool b => if b then "true".toList else "false".toList
  | .int n => Decimal.writeInt n.toInt
  | .float x => if x.isFinite then Decimal.writeFloat x else "null".toList
  | .str s => writeString s
  | .array items | .slots _ items =>
    style.enclose level '[' ']' (writeItems style (level + 1) true items)
  | .object ms | .keyed _ ms =>
    style.enclose level '\x7b' '\x7d' (writeMembers style (level + 1) true ms)

/-- Items with commas between them; `first` drops the comma before the first. -/
def writeItems (style : Style) (level : Nat) (first : Bool) : List Value → List Char
  | [] => []
  | v :: vs =>
    (if first then [] else [',']) ++ style.lineBreak level ++ write style level v
      ++ writeItems style level false vs

def writeMembers (style : Style) (level : Nat) (first : Bool)
    : List (String × Value) → List Char
  | [] => []
  | (k, v) :: ms =>
    (if first then [] else [',']) ++ style.lineBreak level ++ writeString k ++ style.colon
      ++ write style level v ++ writeMembers style level false ms

end

def render (style : Style) (v : Value) : String := String.ofList (write style 0 v)

end DocPath.Json

namespace DocPath.Value

def compact (v : Value) : String := Json.render .compact v

def pretty (v : Value) : String := Json.render .pretty v

end DocPath.Value
