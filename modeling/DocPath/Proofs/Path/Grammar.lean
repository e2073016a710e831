import DocPath.Path.Parser

/-!
# The form of a path's text

What the reader takes for a path, down to the bytes at which quoted names and patterns begin and
end. Each relation holds between the bytes at which a part begins and those that come after it.

A script is counted: it may leave parentheses open, and then only the end of the input or the
closing bracket of a filter comes after it. For a filter the count is the number of parentheses
that it opens beyond those that it closes, which is below zero if the last one that it closes was
not opened. The counts that filters may have are a condition on the whole path.
-/

namespace DocPath

/-- What is left of a text after the blanks it begins with. -/
def trim (bytes : List UInt8) : List UInt8 := bytes.dropWhile (· = 0x20)

/-- Parentheses and brackets, and the bytes that begin a literal in which these may occur. -/
def groupMarks : List UInt8 := "()[]'\"/".toList.map byteOf

def isPlain (b : UInt8) : Bool := !groupMarks.contains b

/-- The rest of a literal, up to the byte that ends it. A byte after a backslash ends nothing. -/
inductive Delimited (ending : UInt8) : List UInt8 → List UInt8 → Prop where
  | ends (rest : List UInt8) : Delimited ending (ending :: rest) rest
  | byte {b : UInt8} {bytes rest : List UInt8} (hending : b ≠ ending) (hb : b ≠ byteOf '\\')
    (more : Delimited ending bytes rest) : Delimited ending (b :: bytes) rest
  | escape (b : UInt8) {bytes rest : List UInt8} (more : Delimited ending bytes rest) :
    Delimited ending (byteOf '\\' :: b :: bytes) rest

/-- The rest of a bracket without a script: plain bytes and quoted names. -/
inductive SelectorText : List UInt8 → List UInt8 → Prop where
  | close (rest : List UInt8) : SelectorText (byteOf ']' :: rest) rest
  | byte {b : UInt8} {bytes rest : List UInt8} (hb : isPlain b) (more : SelectorText bytes rest) :
    SelectorText (b :: bytes) rest
  | quoted {quote : UInt8} {bytes after rest : List UInt8} (hquote : isQuote quote)
    (hname : Delimited quote bytes after) (more : SelectorText after rest) :
    SelectorText (quote :: bytes) rest

/-- Whether no fragment begins here, in the first place of a path or not, right after `..` or
not. -/
def EndsFragments (first after : Bool) (bytes : List UInt8) : Prop :=
  ∀ b ∈ bytes.head?, ¬(b = byteOf '$' ∧ first) ∧ ¬(b = byteOf '@' ∧ first) ∧ b ≠ byteOf '.' ∧
    b ≠ byteOf '*' ∧ b ≠ byteOf '[' ∧ ¬(isNameByte b ∧ (first ∨ after))

def IsNumeral (text : List UInt8) : Prop :=
  (∀ b ∈ text, isPlain b) ∧ ((Decimal.readInt64 (text.map charOf)).isOk ∨
    (Decimal.readFloat? (text.map charOf)).isSome)

def literalWords : List String := ["null", "Nothing", "true", "false"]

/-- The name of a function and the parenthesis after it. -/
def callOpening (op : Operator) : List UInt8 := (op.name.toList ++ ['(']).map byteOf

def AtBracket (bytes : List UInt8) : Prop := ∀ b ∈ bytes.head?, b = byteOf ']'

mutual

/-- Fragments, in the first place of a path or not, right after `..` or not. -/
inductive FragmentsText (allowed : Int → Prop) : Bool → Bool → List UInt8 → List UInt8 → Prop where
  | stop {first after : Bool} {bytes : List UInt8} (h : EndsFragments first after bytes) :
    FragmentsText allowed first after bytes bytes
  | origin {after : Bool} {b : UInt8} {bytes rest : List UInt8}
    (hb : b = byteOf '$' ∨ b = byteOf '@') (more : FragmentsText allowed false false bytes rest) :
    FragmentsText allowed true after (b :: bytes) rest
  | descent {first after : Bool} {bytes rest : List UInt8}
    (more : FragmentsText allowed false true bytes rest) :
    FragmentsText allowed first after (byteOf '.' :: byteOf '.' :: bytes) rest
  | pointStar {first after : Bool} {bytes rest : List UInt8}
    (more : FragmentsText allowed false false bytes rest) :
    FragmentsText allowed first after (byteOf '.' :: byteOf '*' :: bytes) rest
  | pointName {first after : Bool} {b : UInt8} {bytes rest : List UInt8} (hb : isNameByte b)
    (more : FragmentsText allowed false false (bytes.dropWhile isNameByte) rest) :
    FragmentsText allowed first after (byteOf '.' :: b :: bytes) rest
  | star {first after : Bool} {bytes rest : List UInt8}
    (more : FragmentsText allowed false false bytes rest) :
    FragmentsText allowed first after (byteOf '*' :: bytes) rest
  | name {first after : Bool} {b : UInt8} {bytes rest : List UInt8} (hb : isNameByte b)
    (place : first ∨ after)
    (more : FragmentsText allowed false false (bytes.dropWhile isNameByte) rest) :
    FragmentsText allowed first after (b :: bytes) rest
  | bracket {first after : Bool} {bytes behind rest : List UInt8}
    (inside : BracketText allowed bytes behind)
    (more : FragmentsText allowed false false behind rest) :
    FragmentsText allowed first after (byteOf '[' :: bytes) rest

inductive BracketText (allowed : Int → Prop) : List UInt8 → List UInt8 → Prop where
  | selector {bytes rest : List UInt8} (hb : (trim bytes).head? ≠ some (byteOf '?'))
    (h : SelectorText bytes rest) : BracketText allowed bytes rest
  | filter {excess : Int} {bytes script rest : List UInt8}
    (hopen : trim bytes = byteOf '?' :: script) (h : FilterText allowed excess script rest)
    (hexcess : allowed excess) : BracketText allowed bytes rest

/-- A filter after its question mark, up to its closing bracket. -/
inductive FilterText (allowed : Int → Prop) : Int → List UInt8 → List UInt8 → Prop where
  | enclosed {bytes rest : List UInt8}
    (h : EquationText allowed 0 bytes (byteOf ')' :: byteOf ']' :: rest)) :
    FilterText allowed 0 (byteOf '(' :: bytes) rest
  | unclosed {n : Nat} {bytes rest : List UInt8}
    (h : EquationText allowed n bytes (byteOf ']' :: rest)) :
    FilterText allowed (n + 1) (byteOf '(' :: bytes) rest
  | bare {n : Nat} {bytes rest : List UInt8} (hb : bytes.head? ≠ some (byteOf '('))
    (h : EquationText allowed n bytes (byteOf ']' :: rest)) : FilterText allowed n bytes rest
  | surplus {bytes rest : List UInt8} (hb : bytes.head? ≠ some (byteOf '('))
    (h : EquationText allowed 0 bytes (byteOf ')' :: byteOf ']' :: rest)) :
    FilterText allowed (-1) bytes rest

/-- Operands with operators between them, and the blanks after them. -/
inductive EquationText (allowed : Int → Prop) : Nat → List UInt8 → List UInt8 → Prop where
  | last {n : Nat} {bytes rest : List UInt8} (h : ValueText allowed n bytes rest) :
    EquationText allowed n bytes (trim rest)
  | more {n : Nat} {op : Operator} {name : String} {bytes behind next rest : List UInt8}
    (h : ValueText allowed 0 bytes behind) (hname : Operator.ofName? name = some op)
    (hop : op.isBinary ∧ !op.isFunction) (hnext : trim behind = name.toList.map byteOf ++ next)
    (hmore : EquationText allowed n next rest) : EquationText allowed n bytes rest

inductive ValueText (allowed : Int → Prop) : Nat → List UInt8 → List UInt8 → Prop where
  | blank {n : Nat} {bytes rest : List UInt8} (h : ValueText allowed n bytes rest) :
    ValueText allowed n (0x20 :: bytes) rest
  | number {text : List UInt8} (h : IsNumeral text) (rest : List UInt8) :
    ValueText allowed 0 (text ++ rest) rest
  | word {w : String} (h : w ∈ literalWords) (rest : List UInt8) :
    ValueText allowed 0 (w.toList.map byteOf ++ rest) rest
  | quoted {quote : UInt8} {bytes rest : List UInt8} (hquote : isQuote quote)
    (h : Delimited quote bytes rest) : ValueText allowed 0 (quote :: bytes) rest
  | pattern {bytes rest : List UInt8} (h : Delimited (byteOf '/') bytes rest) :
    ValueText allowed 0 (byteOf '/' :: bytes) rest
  | path {b : UInt8} {bytes rest : List UInt8} (hb : b = byteOf '$' ∨ b = byteOf '@')
    (h : FragmentsText allowed true false (b :: bytes) rest) :
    ValueText allowed 0 (b :: bytes) rest
  | group {bytes rest : List UInt8} (h : EquationText allowed 0 bytes (byteOf ')' :: rest)) :
    ValueText allowed 0 (byteOf '(' :: bytes) rest
  | unclosed {n : Nat} {bytes rest : List UInt8} (h : EquationText allowed n bytes rest)
    (hrest : AtBracket rest) : ValueText allowed (n + 1) (byteOf '(' :: bytes) rest
  | negation {n : Nat} {bytes rest : List UInt8} (h : ValueText allowed n bytes rest) :
    ValueText allowed n (byteOf '!' :: bytes) rest
  | emptyList {bytes rest : List UInt8} (h : trim bytes = byteOf ']' :: rest) :
    ValueText allowed 0 (byteOf '[' :: bytes) rest
  | list {bytes rest : List UInt8} (h : ItemsText allowed bytes rest) :
    ValueText allowed 0 (byteOf '[' :: bytes) rest
  | call {op : Operator} {bytes behind rest : List UInt8} (hop : op.isFunction)
    (h : ValueText allowed 0 bytes behind) (hclose : trim behind = byteOf ')' :: rest) :
    ValueText allowed 0 (callOpening op ++ bytes) rest
  | callTwo {op : Operator} {bytes behind second behind' rest : List UInt8} (hop : op.isFunction)
    (h : ValueText allowed 0 bytes behind) (hcomma : trim behind = byteOf ',' :: second)
    (h' : ValueText allowed 0 second behind') (hclose : trim behind' = byteOf ')' :: rest) :
    ValueText allowed 0 (callOpening op ++ bytes) rest

inductive ItemsText (allowed : Int → Prop) : List UInt8 → List UInt8 → Prop where
  | last {bytes behind rest : List UInt8} (h : ValueText allowed 0 bytes behind)
    (hclose : trim behind = byteOf ']' :: rest) : ItemsText allowed bytes rest
  | more {bytes behind next rest : List UInt8} (h : ValueText allowed 0 bytes behind)
    (hcomma : trim behind = byteOf ',' :: next) (hmore : ItemsText allowed next rest) :
    ItemsText allowed bytes rest

end

/-- The texts of paths whose filters open, beyond what they close, an allowed number of
parentheses. In a text of which nothing but zero is asked all parentheses are balanced. -/
def PathText (allowed : Int → Prop) (bytes : List UInt8) : Prop :=
  FragmentsText allowed true false bytes []

end DocPath
