import DocPath.Path.Operator
import DocPath.Text.Quoted

/-! A place in the bytes of a path being read, and the faults a reader can meet there. -/
namespace DocPath

inductive Fault where
  | unexpected
  | notTerminated
  | fragmentStart (b : UInt8)
  | bracketForm
  | scriptFragment
  | sliceForm
  | unionForm
  | integerOverflow
  | noNumber
  | integerDigit
  | integerTooLarge
  | integerTooSmall
  | floatForm
  | escapedByte (b : UInt8)
  | hexByte (b : UInt8)
  | patternForm
  | noValue
  | noWord (word : String)
  | noFunction (op : Operator)
  | noListValue
  | noComma
  | noOperation
  | operationName (name : String)
  | openEquation
  /-- A reader has used up its bound on calls. -/
  | exhausted
  deriving DecidableEq, Repr

def describeByte (b : UInt8) : String :=
  String.ofList
    (['0', 'x', Text.Quoted.hexDigit (b.toNat / 16), Text.Quoted.hexDigit b.toNat, ' ', '(',
      Char.ofNat b.toNat, ')'])

def Fault.message : Fault → String
  | .unexpected => "parse error"
  | .notTerminated => "not terminated"
  | .fragmentStart b =>
    "an expression fragment can not start with a '" ++ String.singleton (Char.ofNat b.toNat) ++ "'"
  | .bracketForm => "invalid bracket fragment"
  | .scriptFragment => "script fragments are not supported"
  | .sliceForm => "invalid slice syntax"
  | .unionForm => "invalid union syntax"
  | .integerOverflow => "integer overflow"
  | .noNumber => "expected a number"
  | .integerDigit => "invalid digit found in string"
  | .integerTooLarge => "number too large to fit in target type"
  | .integerTooSmall => "number too small to fit in target type"
  | .floatForm => "invalid float literal"
  | .escapedByte b => describeByte b ++ " is not a valid escaped character"
  | .hexByte b => describeByte b ++ " is not a valid hexadecimal character"
  | .patternForm => "regex parse error"
  | .noValue => "expected a value"
  | .noWord word => "expected " ++ word
  | .noFunction op => "expected a " ++ op.name ++ " function"
  | .noListValue => "expected a list value"
  | .noComma => "expected a comma"
  | .noOperation => "expected an operation"
  | .operationName name => "'" ++ name ++ "' is not a valid operation"
  | .openEquation => "equation not terminated"
  | .exhausted => "too many calls"

/-- How many bytes have been read, and those still to read. -/
structure Cursor where
  offset : Nat
  rest : List UInt8
  deriving DecidableEq, Repr

/-- A fault, with the number of bytes read when it was met. -/
structure Failure where
  fault : Fault
  offset : Nat
  deriving DecidableEq, Repr

namespace Cursor

def start (bytes : List UInt8) : Cursor := ⟨0, bytes⟩

def fail {α : Type} (c : Cursor) (fault : Fault) : Except Failure α := .error ⟨fault, c.offset⟩

/-- The next byte, which stays to be read. -/
def peek? (c : Cursor) : Option UInt8 := c.rest.head?

def skip (c : Cursor) (n : Nat) : Cursor := ⟨c.offset + (c.rest.take n).length, c.rest.drop n⟩

/-- Reads a byte. At the end there is none. -/
def next (c : Cursor) : Option UInt8 × Cursor :=
  match c.rest with
  | [] => (none, c)
  | b :: rest => (some b, ⟨c.offset + 1, rest⟩)

def takeWhile (c : Cursor) (p : UInt8 → Bool) : List UInt8 × Cursor :=
  let taken := c.rest.takeWhile p
  (taken, ⟨c.offset + taken.length, c.rest.dropWhile p⟩)

def skipSpaces (c : Cursor) : Cursor := (c.takeWhile (· = 0x20)).2

def nextSolid (c : Cursor) : Option UInt8 × Cursor := c.skipSpaces.next

end Cursor

def byteOf (c : Char) : UInt8 := UInt8.ofNat c.toNat

def charOf (b : UInt8) : Char := Char.ofNat b.toNat

def isDigitByte (b : UInt8) : Bool := 0x30 ≤ b && b ≤ 0x39

/-- A path or script that could not be read. The offset counts from one and names the byte
after those read; the snippet is the input as text. -/
structure ParseError where
  fault : Fault
  offset : Nat
  snippet : String
  deriving DecidableEq, Repr

def ParseError.message (e : ParseError) : String :=
  e.fault.message ++ " at " ++ toString e.offset ++ " in " ++ e.snippet

end DocPath
