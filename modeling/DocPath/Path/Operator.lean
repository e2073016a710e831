/-! Operators and functions of filter scripts: their names, how tightly they bind, and
how many operands they take. -/
namespace DocPath

inductive Operator where
  | equal
  | notEqual
  | less
  | greater
  | lessEqual
  | greaterEqual
  /-- Membership in a list. -/
  | member
  /-- Emptiness, compared with a truth value. -/
  | empty
  /-- Presence, compared with a truth value. -/
  | has
  /-- Presence again, under its other name. -/
  | present
  | lor
  | land
  | lnot
  /-- Sum, or concatenation of strings. -/
  | add
  | subtract
  | multiply
  | divide
  /-- Occurrence of a pattern. -/
  | pattern
  | length
  /-- The number of matches of a path. -/
  | count
  /-- Match of a whole string. -/
  | wholeMatch
  /-- Match somewhere in a string. -/
  | search
  deriving DecidableEq, Repr, Inhabited

namespace Operator

/-- Every operator, in the order in which names are looked up. -/
def all : List Operator :=
  [.equal, .notEqual, .less, .greater, .lessEqual, .greaterEqual, .member, .empty, .has,
    .present, .lor, .land, .lnot, .add, .subtract, .multiply, .divide, .pattern, .length,
    .count, .wholeMatch, .search]

def name : Operator → String
  | .equal => "=="
  | .notEqual => "!="
  | .less => "<"
  | .greater => ">"
  | .lessEqual => "<="
  | .greaterEqual => ">="
  | .member => "in"
  | .empty => "empty"
  | .has => "has"
  | .present => "exists"
  | .lor => "||"
  | .land => "&&"
  | .lnot => "!"
  | .add => "+"
  | .subtract => "-"
  | .multiply => "*"
  | .divide => "/"
  | .pattern => "~="
  | .length => "length"
  | .count => "count"
  | .wholeMatch => "match"
  | .search => "search"

/-- How loosely the operator binds: one with a lower number is joined first. -/
def precedence : Operator → Nat
  | .multiply | .divide => 1
  | .add | .subtract => 2
  | .equal | .notEqual | .less | .greater | .lessEqual | .greaterEqual | .member | .empty
  | .has | .present => 3
  | .lor | .land => 4
  | .lnot | .pattern | .length | .count | .wholeMatch | .search => 0

/-- Whether the operator takes two operands; the others take one. -/
def isBinary : Operator → Bool
  | .lnot | .length | .count => false
  | _ => true

def arity (op : Operator) : Nat := if op.isBinary then 2 else 1

/-- Whether a path as left operand stands for all its matches instead of the first. -/
def getsLeft : Operator → Bool
  | .count => true
  | _ => false

/-- Whether the operator is written with its operands in parentheses. -/
def isFunction : Operator → Bool
  | .length | .count | .wholeMatch | .search => true
  | _ => false

/-- The operator of a name. The pattern operator has two. -/
def ofName? (s : String) : Option Operator :=
  if s = "=~" then some .pattern else all.find? (·.name = s)

/-- Whether the characters read so far and one more begin an operator's name. -/
def continues (soFar : List Char) (next : Char) : Bool :=
  all.any fun op => (soFar ++ [next]).isPrefixOf op.name.toList

end Operator
end DocPath
