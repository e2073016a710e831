import DocPath.Libraries
import DocPath.Path.Operator
import DocPath.Path.Slice

/-! Paths and the filter scripts inside them.

A path is a list of fragments. A script is a flat template: every operator stands before
its operands, so a tree of operators is written without brackets and read back by the
number of operands each takes. Operands may be paths again. -/
namespace DocPath

inductive UnionKey where
  | key (name : String)
  | index (i : Int64)
  deriving DecidableEq, Repr, Inhabited

mutual

inductive Fragment where
  /-- `$`, the document. -/
  | root
  /-- `@`, the value at hand. -/
  | current
  /-- Selects nothing by itself; what follows is written in brackets. -/
  | bracket
  | child (name : String)
  /-- A position, from the end when negative. -/
  | nth (i : Int64)
  | wildcard
  /-- `..`, the value and everything below it. -/
  | descent
  | slice (s : Slice)
  | union (keys : List UnionKey)
  | filter (template : List Slot)

inductive Slot where
  | op (o : Operator)
  | operand (o : Operand)

inductive Operand where
  | null
  /-- The absence of a value, which is not null. -/
  | nothing
  | bool (b : Bool)
  | int (n : Int64)
  | float (x : Float)
  | str (s : String)
  | list (items : List Operand)
  | regex (r : Regex)
  | path (fragments : List Fragment)

end

abbrev Path := List Fragment

/-- A filter predicate in flat form. -/
abbrev Script := List Slot

instance : Inhabited Fragment := ⟨.current⟩
instance : Inhabited Operand := ⟨.null⟩
instance : Inhabited Slot := ⟨.operand .null⟩

mutual

/-- Equality of fragments. Floats compare as numbers and patterns by their source. -/
def Fragment.beq : Fragment → Fragment → Bool
  | .root, .root | .current, .current | .bracket, .bracket => true
  | .wildcard, .wildcard | .descent, .descent => true
  | .child a, .child b => a == b
  | .nth a, .nth b => a == b
  | .slice a, .slice b => a == b
  | .union a, .union b => a == b
  | .filter a, .filter b => beqTemplates a b
  | _, _ => false

def Slot.beq : Slot → Slot → Bool
  | .op a, .op b => a == b
  | .operand a, .operand b => a.beq b
  | _, _ => false

def Operand.beq : Operand → Operand → Bool
  | .null, .null | .nothing, .nothing => true
  | .bool a, .bool b => a == b
  | .int a, .int b => a == b
  | .float a, .float b => a == b
  | .str a, .str b => a == b
  | .list a, .list b => beqOperands a b
  | .regex a, .regex b => a.source == b.source
  | .path a, .path b => beqFragments a b
  | _, _ => false

def beqTemplates : List Slot → List Slot → Bool
  | [], [] => true
  | a :: as, b :: bs => a.beq b && beqTemplates as bs
  | _, _ => false

def beqOperands : List Operand → List Operand → Bool
  | [], [] => true
  | a :: as, b :: bs => a.beq b && beqOperands as bs
  | _, _ => false

def beqFragments : List Fragment → List Fragment → Bool
  | [], [] => true
  | a :: as, b :: bs => a.beq b && beqFragments as bs
  | _, _ => false

end

instance : BEq Fragment := ⟨Fragment.beq⟩
instance : BEq Slot := ⟨Slot.beq⟩
instance : BEq Operand := ⟨Operand.beq⟩

def Fragment.kindName : Fragment → String
  | .root => "Root"
  | .current => "At"
  | .bracket => "Bracket"
  | .child _ => "Child"
  | .nth _ => "Nth"
  | .wildcard => "Wildcard"
  | .descent => "Descent"
  | .slice _ => "Slice"
  | .union _ => "Union"
  | .filter _ => "Filter"

/-- A filter predicate as a tree. An operator may have been given one operand or two,
whatever it takes. -/
inductive Equation where
  | value (o : Operand)
  | unary (op : Operator) (left : Equation)
  | binary (op : Operator) (left right : Equation)
  deriving Inhabited

namespace Equation

/-- The template of a tree. A missing right operand becomes null, a surplus one is left
out. -/
def compile : Equation → Script
  | .value o => [.operand o]
  | .unary op left =>
    .op op :: (left.compile ++ if op.isBinary then [.operand .null] else [])
  | .binary op left right =>
    .op op :: (left.compile ++ if op.isBinary then right.compile else [])

def apply (op : Operator) (left right : Equation) : Equation :=
  if op.isBinary then .binary op left right else .unary op left

/-- Equality of trees. Operands compare as they do in scripts. -/
def beq : Equation → Equation → Bool
  | .value a, .value b => a == b
  | .unary op left, .unary op' left' => op == op' && left.beq left'
  | .binary op left right, .binary op' left' right' =>
    op == op' && left.beq left' && right.beq right'
  | _, _ => false

instance : BEq Equation := ⟨beq⟩

end Equation

namespace Script

/-- Reads a template from its end. What has been read waits on a stack; an operator takes
its operands from the top, null standing for those that are missing. -/
def trees : Script → List Equation
  | [] => []
  | .operand o :: rest => .value o :: trees rest
  | .op op :: rest =>
    let waiting := trees rest
    .apply op (waiting.headD (.value .null)) (waiting.tail.headD (.value .null))
      :: waiting.drop op.arity

/-- The tree of a template. -/
def inspect (s : Script) : Equation := (trees s).headD (.value .null)

end Script
end DocPath
