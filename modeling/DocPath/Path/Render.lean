import DocPath.Decimal.Shortest
import DocPath.Path.Syntax
import DocPath.Text.Quoted

/-! The written form of paths and scripts. Names are written bare where the reader takes
them bare, and parentheses stand exactly where the binding of operators needs them. -/
namespace DocPath

/-- Bytes that a name without quotes may contain: letters, digits, everything beyond ASCII
and the marks `# % : ; ? ^ _ { | } ~`. -/
def isNameByte (b : UInt8) : Bool :=
  b = 0x23 || b = 0x25 || (0x30 ≤ b && b ≤ 0x3B) || b = 0x3F || (0x41 ≤ b && b ≤ 0x5A)
    || b = 0x5E || b = 0x5F || (0x61 ≤ b && b ≤ 0x7E) || 0x80 ≤ b

def isBareName (name : List Char) : Bool :=
  !name.isEmpty && (Text.Utf8.encode name).all isNameByte

def UnionKey.write : UnionKey → List Char
  | .key name => Text.Quoted.write '\'' name.toList
  | .index i => Decimal.writeInt i.toInt

def writeKeys : List UnionKey → List Char
  | [] => []
  | [k] => k.write
  | k :: ks => k.write ++ ',' :: writeKeys ks

/-- Bounds that have their default value are left out. -/
def Slice.write (s : Slice) : List Char :=
  (if s.start = 0 then [] else Decimal.writeInt s.start.toInt) ++ ':' ::
    ((if s.stop = Slice.openEnd then [] else Decimal.writeInt s.stop.toInt) ++
      (if s.step = 1 then [] else ':' :: Decimal.writeInt s.step.toInt))

/-- A pattern between slashes. A slash inside is escaped unless it is escaped already. -/
def writePattern : List Char → List Char
  | [] => ['/']
  | ['\\'] => ['\\', '/']
  | '\\' :: c :: cs => '\\' :: c :: writePattern cs
  | '/' :: cs => '\\' :: '/' :: writePattern cs
  | c :: cs => c :: writePattern cs

/-- A piece of a script's text, with the operator at its top. -/
structure Piece where
  top : Option Operator
  text : List Char
  deriving Repr

namespace Piece

def missing : Piece := ⟨none, "null".toList⟩

/-- Whether an operator below another one has to stand in parentheses: when it binds more
loosely, and on the right also when it binds alike, for operators are joined from the
left. Functions and `!` keep their operands apart by themselves. -/
def needsParens (child parent : Operator) (right : Bool) : Bool :=
  if child.isFunction || child = .lnot || parent.isFunction then false
  else child.precedence > parent.precedence || (right && child.precedence = parent.precedence)

/-- The text of an operand below an operator. -/
def under (parent : Operator) (right : Bool) (p : Piece) : List Char :=
  match p.top with
  | some child => if needsParens child parent right then '(' :: (p.text ++ [')']) else p.text
  | none => p.text

def join (op : Operator) (left right : Piece) : Piece :=
  ⟨some op,
    match op with
    | .lnot => '!' :: left.under op false
    | .length | .count => op.name.toList ++ '(' :: (left.text ++ [')'])
    | .wholeMatch | .search =>
      op.name.toList ++ '(' :: (left.text ++ ',' :: ' ' :: (right.text ++ [')']))
    | _ => left.under op false ++ ' ' :: (op.name.toList ++ ' ' :: right.under op true)⟩

/-- The text of a whole script: its first piece in parentheses. -/
def close (pieces : List Piece) : List Char :=
  '(' :: ((pieces.headD missing).text ++ [')'])

end Piece

mutual

/-- The text of a fragment. `bracketed` asks for brackets, and `first` drops the point
before a name. -/
def Fragment.write (bracketed first : Bool) : Fragment → List Char
  | .root => ['$']
  | .current => ['@']
  | .bracket => []
  | .child name =>
    if bracketed || !isBareName name.toList then
      '[' :: (Text.Quoted.write '\'' name.toList ++ [']'])
    else if first then name.toList
    else '.' :: name.toList
  | .nth i => '[' :: (Decimal.writeInt i.toInt ++ [']'])
  | .wildcard =>
    if bracketed then ['[', '*', ']'] else if first then ['*'] else ['.', '*']
  | .descent => ['.', '.']
  | .slice s => '[' :: (s.write ++ [']'])
  | .union keys => '[' :: (writeKeys keys ++ [']'])
  | .filter template => '[' :: '?' :: (Piece.close (pieces template) ++ [']'])

/-- The text of fragments after others. A name follows the start of a path and `..`
without a point. -/
def writeFragments (bracketed first : Bool) : List Fragment → List Char
  | [] => []
  | f :: fs =>
    let text := f.write bracketed first
    text ++ match f with
      | .bracket => writeFragments true first fs
      | .descent => writeFragments bracketed true fs
      | _ => writeFragments bracketed false fs

/-- The pieces of a template, read from its end. -/
def pieces : List Slot → List Piece
  | [] => []
  | .operand o :: rest => ⟨none, o.write⟩ :: pieces rest
  | .op op :: rest =>
    let waiting := pieces rest
    .join op (waiting.headD .missing) (waiting.tail.headD .missing) :: waiting.drop op.arity

def Operand.write : Operand → List Char
  | .null => "null".toList
  | .nothing => "Nothing".toList
  | .bool b => if b then "true".toList else "false".toList
  | .int n => Decimal.writeInt n.toInt
  | .float x => Decimal.writeFloat x
  | .str s => Text.Quoted.write '\'' s.toList
  | .list items => '[' :: (writeOperands true items ++ [']'])
  | .regex r => '/' :: writePattern r.source.toList
  | .path fragments => writeFragments false true fragments

/-- Operands with commas between them; `first` drops the comma before the first. -/
def writeOperands (first : Bool) : List Operand → List Char
  | [] => []
  | o :: os => (if first then [] else [',']) ++ o.write ++ writeOperands false os

end

def Path.text (p : Path) : String := String.ofList (writeFragments false true p)

def Script.text (s : Script) : String := String.ofList (Piece.close (pieces s))

def Fragment.text (f : Fragment) : String := String.ofList (f.write false false)

end DocPath
