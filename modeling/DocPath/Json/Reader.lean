import DocPath.Json.Number

/-! Reading JSON documents. The grammar is that of RFC 8259, with nothing added; containers
may be nested 127 deep, and of members with one name the last value counts. -/
namespace DocPath.Json

def isBlank (c : Char) : Bool := c = ' ' || c = '\t' || c = '\n' || c = '\r'

def skipBlanks (cs : List Char) : List Char := cs.dropWhile isBlank

def hexValue? (c : Char) : Option Nat :=
  if '0' ≤ c ∧ c ≤ '9' then some (c.toNat - 48)
  else if 'a' ≤ c ∧ c ≤ 'f' then some (c.toNat - 87)
  else if 'A' ≤ c ∧ c ≤ 'F' then some (c.toNat - 55)
  else none

def hexValue4? (a b c d : Char) : Option Nat := do
  let a ← hexValue? a
  let b ← hexValue? b
  let c ← hexValue? c
  let d ← hexValue? d
  some (((a * 16 + b) * 16 + c) * 16 + d)

def shortEscape? : Char → Option Char
  | '"' => some '"'
  | '\\' => some '\\'
  | '/' => some '/'
  | 'b' => some '\x08'
  | 'f' => some '\x0c'
  | 'n' => some '\n'
  | 'r' => some '\r'
  | 't' => some '\t'
  | _ => none

/-- The contents of a string after its opening quote, and the text after it. Surrogate
escapes count only in pairs, and control characters have to be escaped. -/
def readString? : List Char → Option (List Char × List Char)
  | [] => none
  | '"' :: rest => some ([], rest)
  | '\\' :: 'u' :: a :: b :: c :: d :: rest => do
    let n ← hexValue4? a b c d
    if 0xD800 ≤ n ∧ n < 0xDC00 then
      match rest with
      | '\\' :: 'u' :: e :: f :: g :: h :: rest =>
        let low ← hexValue4? e f g h
        if 0xDC00 ≤ low ∧ low < 0xE000 then
          let (s, rest) ← readString? rest
          some (Char.ofNat (0x10000 + (n - 0xD800) * 1024 + (low - 0xDC00)) :: s, rest)
        else none
      | _ => none
    else if 0xDC00 ≤ n ∧ n < 0xE000 then none
    else
      let (s, rest) ← readString? rest
      some (Char.ofNat n :: s, rest)
  | '\\' :: c :: rest => do
    let c ← shortEscape? c
    let (s, rest) ← readString? rest
    some (c :: s, rest)
  | c :: rest => do
    guard (32 ≤ c.toNat ∧ c ≠ '\\')
    let (s, rest) ← readString? rest
    some (c :: s, rest)

def dropWord? : List Char → List Char → Option (List Char)
  | [], rest => some rest
  | _ :: _, [] => none
  | c :: cs, d :: ds => if c = d then dropWord? cs ds else none

mutual

/-- Reads a value inside which `depth` levels of containers may follow. The first argument
bounds the number of nested calls. -/
def readValue? : Nat → Nat → List Char → Option (Value × List Char)
  | 0, _, _ => none
  | fuel + 1, depth, cs =>
    match skipBlanks cs with
    | '"' :: rest => (readString? rest).map fun p => (.str (String.ofList p.1), p.2)
    | '[' :: rest =>
      match depth, skipBlanks rest with
      | 0, _ => none
      | _, ']' :: rest => some (.array [], rest)
      | depth + 1, rest => (readItems? fuel depth rest).map fun p => (.array p.1, p.2)
    | '\x7b' :: rest =>
      match depth, skipBlanks rest with
      | 0, _ => none
      | _, '\x7d' :: rest => some (.object [], rest)
      | depth + 1, rest =>
        (readMembers? fuel depth rest).map fun p => (.object (Members.ofPairs p.1), p.2)
    | 't' :: rest => (dropWord? "rue".toList rest).map fun rest => (.bool true, rest)
    | 'f' :: rest => (dropWord? "alse".toList rest).map fun rest => (.bool false, rest)
    | 'n' :: rest => (dropWord? "ull".toList rest).map fun rest => (.null, rest)
    | rest => do
      let (parts, rest) ← Number.Parts.read? rest
      let v ← parts.value?
      some (v, rest)

def readItems? : Nat → Nat → List Char → Option (List Value × List Char)
  | 0, _, _ => none
  | fuel + 1, depth, cs => do
    let (v, rest) ← readValue? fuel depth cs
    match skipBlanks rest with
    | ',' :: rest =>
      let (vs, rest) ← readItems? fuel depth rest
      some (v :: vs, rest)
    | ']' :: rest => some ([v], rest)
    | _ => none

def readMembers? : Nat → Nat → List Char → Option (List (String × Value) × List Char)
  | 0, _, _ => none
  | fuel + 1, depth, cs => do
    match skipBlanks cs with
    | '"' :: rest =>
      let (k, rest) ← readString? rest
      match skipBlanks rest with
      | ':' :: rest =>
        let (v, rest) ← readValue? fuel depth rest
        match skipBlanks rest with
        | ',' :: rest =>
          let (ms, rest) ← readMembers? fuel depth rest
          some ((String.ofList k, v) :: ms, rest)
        | '\x7d' :: rest => some ([(String.ofList k, v)], rest)
        | _ => none
      | _ => none
    | _ => none

end

def maxDepth : Nat := 127

def read? (text : String) : Option Value := do
  let cs := text.toList
  let (v, rest) ← readValue? (2 * cs.length + 2) maxDepth cs
  if (skipBlanks rest).isEmpty then some v else none

end DocPath.Json
