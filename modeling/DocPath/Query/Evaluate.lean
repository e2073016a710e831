import DocPath.Filter.Term
import DocPath.Query.Search

/-! What paths select and when scripts hold.

A fragment becomes a selector, and a script is evaluated on a copy of its template, whose
places are dealt with from the last to the first: an operator takes its operands from the
places right behind it, and they close up. A path in a script is searched from the document
when it starts with `$` and from the candidate otherwise; inside that search, where it
begins counts as the document. -/
namespace DocPath

variable [Libraries]

/-- A place of a script under evaluation. -/
inductive Cell where
  /-- An operator that still has to be applied. -/
  | waiting (op : Operator)
  | done (t : Term)

namespace Cell

def term : Option Cell → Term
  | some (.done t) => t
  | _ => .nothing

/-- Deals with the place `i`. An operator takes as many of the places behind it as it has
operands and is exchanged for its result; a term stays. -/
def sweepAt (cells : List Cell) (i : Nat) : List Cell :=
  match cells[i]? with
  | some (.waiting op) =>
    let operands := (cells.drop (i + 1)).take op.arity
    cells.take i ++
      .done (.apply op (term operands[0]?) (term operands[1]?)) :: cells.drop (i + 1 + op.arity)
  | _ => cells

/-- The places after so many rounds. The positions are those of the start, from the last to
the first, although places are lost on the way. -/
def swept (cells : List Cell) : (rounds : Nat) → List Cell
  | 0 => cells
  | n + 1 => sweepAt (swept cells n) (cells.length - (n + 1))

/-- The term that a whole sweep leaves at the first place. -/
def result (cells : List Cell) : Term := term (swept cells cells.length).head?

end Cell

def UnionKey.find? (k : UnionKey) (v : Value) : Option Value :=
  match k with
  | .key name => v.getKey? name
  | .index i => v.getIndex? i

def Slice.select (s : Slice) (v : Value) : List Value :=
  if v.isOrdered then
    (s.indices (v.containerLen?.getD 0)).filterMap fun n => v.step? (.index n)
  else []

/-- Where the search for a path in a script begins. -/
def Path.origin (p : Path) (elem root : Value) : Value :=
  match p with
  | .root :: _ => root
  | _ => elem

mutual

def Fragment.selector : Fragment → Selector
  | .root => .root
  | .current | .bracket => .here
  | .child name => .pick fun _ v => (v.getKey? name).toList
  | .nth i => .pick fun _ v => (v.getIndex? i).toList
  | .wildcard => .pick fun _ v => v.children
  | .descent => .descent
  | .slice s => .pick fun _ v => s.select v
  | .union keys => .pick fun _ v => keys.filterMap (·.find? v)
  | .filter template => .pick fun root v =>
    v.children.filter fun c => (Cell.result (cells template false c root)).isTrue

def selectors : List Fragment → List Selector
  | [] => []
  | f :: fs => f.selector :: selectors fs

/-- The places of a template, each operand resolved. `all` says that the operator right before
it asks for all matches of a path. -/
def cells : List Slot → (all : Bool) → (elem root : Value) → List Cell
  | [], _, _, _ => []
  | .operand o :: rest, all, elem, root =>
    .done (o.resolve all elem root) :: cells rest false elem root
  | .op op :: rest, _, elem, root => .waiting op :: cells rest op.getsLeft elem root

/-- The operand that a place of a script stands for: for a path its first match or nothing,
or all its matches where they are asked for. -/
def Operand.resolve : Operand → (all : Bool) → (elem root : Value) → Term
  | .path p, all, elem, root =>
    let doc := Path.origin p elem root
    if all then .found (Search.get (selectors p) doc)
    else
      match Search.first? (selectors p) doc with
      | some v => .ofValue v
      | none => .nothing
  | o, _, _, _ => .ofOperand o

end

namespace Script

def eval (s : Script) (elem root : Value) : Term := Cell.result (cells s false elem root)

def holds (s : Script) (v : Value) : Bool := (s.eval v v).isTrue

def select (s : Script) (v root : Value) : List Value :=
  v.children.filter fun c => (s.eval c root).isTrue

/-- The children of a value for which a script holds, with the steps to them. -/
def selectEntries (s : Script) (v root : Value) : List (Step × Value) :=
  v.entries.filter fun e => (s.eval e.2 root).isTrue

end Script

namespace Path

/-- Every value that a path selects, parents before children and in the order of each
container. An empty path selects nothing. -/
def get (p : Path) (doc : Value) : List Value := Search.get (selectors p) doc

def first? (p : Path) (doc : Value) : Option Value := Search.first? (selectors p) doc

def has (p : Path) (doc : Value) : Bool := Search.has (selectors p) doc

end Path
end DocPath
