import DocPath.Decimal.Literal
import DocPath.Path.Cursor
import DocPath.Path.Syntax

/-! Readers of the literals of paths and scripts: integers, numbers, quoted strings and
patterns. Every reader starts at the first byte of its literal. -/
namespace DocPath

/-- Appends digits to an integer of 64 bits, downward for a negative one, so that both
bounds can be reached. Fails with the number of digits read once the integer leaves its
range. -/
def appendDigits (negative : Bool) (n : Int) (count : Nat) : List UInt8 → Except Nat Int64
  | [] => .ok (Int64.ofInt n)
  | b :: bs =>
    let digit : Int := b.toNat - 48
    let n := if negative then 10 * n - digit else 10 * n + digit
    if Int64.minValue.toInt ≤ n ∧ n ≤ Int64.maxValue.toInt then
      appendDigits negative n (count + 1) bs
    else .error (count + 1)

/-- Reads an integer and the byte that ends it. -/
def readInt (c : Cursor) : Except Failure (Int64 × Option UInt8 × Cursor) :=
  let negative := c.peek? = some (byteOf '-')
  let c := if negative then c.skip 1 else c
  let (digits, after) := c.takeWhile isDigitByte
  if digits.isEmpty then c.next.2.fail .noNumber
  else
    match appendDigits negative 0 0 digits with
    | .ok n => .ok (n, after.next)
    | .error count => .error ⟨.integerOverflow, c.offset + count⟩

def readHex (c : Cursor) : Except Failure (Nat × Cursor) :=
  match c.next with
  | (none, c) => c.fail .notTerminated
  | (some b, c) =>
    if isDigitByte b then .ok (b.toNat - 48, c)
    else if 0x61 ≤ b ∧ b ≤ 0x66 then .ok (b.toNat - 87, c)
    else if 0x41 ≤ b ∧ b ≤ 0x46 then .ok (b.toNat - 55, c)
    else c.fail (.hexByte b)

def readHex4 (c : Cursor) : Except Failure (Nat × Cursor) := do
  let (h₃, c) ← readHex c
  let (h₂, c) ← readHex c
  let (h₁, c) ← readHex c
  let (h₀, c) ← readHex c
  .ok (((h₃ * 16 + h₂) * 16 + h₁) * 16 + h₀, c)

/-- The character of a code, or U+FFFD where there is none. -/
def charOrReplacement (n : Nat) : Char :=
  if n < 0xD800 ∨ (0xE000 ≤ n ∧ n < 0x110000) then Char.ofNat n else Text.Utf8.replacement

/-- Reads the digits of an escape by code. A high surrogate is joined with a low one that is
escaped right after it; any other surrogate stands for U+FFFD. -/
def readCodeEscape (c : Cursor) : Except Failure (Char × Cursor) := do
  let (n, c) ← readHex4 c
  if 0xD800 ≤ n ∧ n < 0xDC00 ∧ c.rest.take 2 = [byteOf '\\', byteOf 'u'] then
    let (low, after) ← readHex4 (c.skip 2)
    if 0xDC00 ≤ low ∧ low < 0xE000 then
      .ok (charOrReplacement (0x10000 + (n - 0xD800) * 1024 + (low - 0xDC00)), after)
    else .ok (charOrReplacement n, c)
  else .ok (charOrReplacement n, c)

/-- Reads an escape after its backslash and gives the bytes it stands for. -/
def readEscape (c : Cursor) : Except Failure (List UInt8 × Cursor) :=
  match c.next with
  | (none, c) => c.fail .notTerminated
  | (some b, c) =>
    match charOf b with
    | 'b' => .ok ([0x08], c)
    | 't' => .ok ([0x09], c)
    | 'n' => .ok ([0x0A], c)
    | 'f' => .ok ([0x0C], c)
    | 'r' => .ok ([0x0D], c)
    | '"' | '\'' | '/' | '\\' => .ok ([b], c)
    | 'x' => do
      let (high, c) ← readHex c
      let (low, c) ← readHex c
      .ok ([UInt8.ofNat (high * 16 + low)], c)
    | 'u' | 'U' => do
      let (ch, c) ← readCodeEscape c
      .ok (Text.Utf8.encodeChar ch, c)
    | _ => c.fail (.escapedByte b)

/-- Reads the contents of a string up to the byte that ends it. The first argument bounds
the number of bytes and escapes. -/
def readQuotedBytes : Nat → UInt8 → Cursor → Except Failure (List UInt8 × Cursor)
  | 0, _, c => c.fail .exhausted
  | fuel + 1, quote, c =>
    match c.next with
    | (none, c) => c.fail .notTerminated
    | (some b, c) =>
      if b = quote then .ok ([], c)
      else if b = byteOf '\\' then do
        let (bytes, c) ← readEscape c
        let (more, c) ← readQuotedBytes fuel quote c
        .ok (bytes ++ more, c)
      else do
        let (more, c) ← readQuotedBytes fuel quote c
        .ok (b :: more, c)

def readQuoted (quote : UInt8) (c : Cursor) : Except Failure (String × Cursor) := do
  let (bytes, c) ← readQuotedBytes (c.rest.length + 1) quote c
  .ok (Text.Utf8.decodeString bytes, c)

/-- Reads the source of a pattern up to the slash that ends it. An escaped slash loses its
backslash; every other escape is kept. -/
def readPatternBytes (offset : Nat) : List UInt8 → Except Failure (List UInt8 × Cursor)
  | [] => .error ⟨.notTerminated, offset⟩
  | [b] =>
    if b = byteOf '/' then .ok ([], ⟨offset + 1, []⟩) else .error ⟨.notTerminated, offset + 1⟩
  | b :: b' :: rest =>
    if b = byteOf '/' then .ok ([], ⟨offset + 1, b' :: rest⟩)
    else if b = byteOf '\\' then do
      let (more, c) ← readPatternBytes (offset + 2) rest
      .ok (if b' = byteOf '/' then b' :: more else b :: b' :: more, c)
    else do
      let (more, c) ← readPatternBytes (offset + 1) (b' :: rest)
      .ok (b :: more, c)

def readPattern [Libraries] (c : Cursor) : Except Failure (Regex × Cursor) := do
  let (bytes, c) ← readPatternBytes c.offset c.rest
  match Regex.compile? (Text.Utf8.decodeString bytes) with
  | some r => .ok (r, c)
  | none => c.fail .patternForm

def readFraction (c : Cursor) : List UInt8 × Cursor :=
  match c.peek? with
  | some b =>
    if b = byteOf '.' then
      let (digits, c) := (c.skip 1).takeWhile isDigitByte
      (b :: digits, c)
    else ([], c)
  | none => ([], c)

def readSign (c : Cursor) : List UInt8 × Cursor :=
  match c.peek? with
  | some s => if s = byteOf '+' ∨ s = byteOf '-' then ([s], c.skip 1) else ([], c)
  | none => ([], c)

def readExponent (c : Cursor) : Except Failure (List UInt8 × Cursor) :=
  match c.peek? with
  | some e =>
    if e = byteOf 'e' ∨ e = byteOf 'E' then
      let (sign, c) := readSign (c.skip 1)
      let (digits, c) := c.takeWhile isDigitByte
      if digits.isEmpty then c.fail .noNumber else .ok (e :: sign ++ digits, c)
    else .ok ([], c)
  | none => .ok ([], c)

/-- Reads a number: an integer, or a float if it has a point or an exponent. -/
def readNumber (c : Cursor) : Except Failure (Operand × Cursor) := do
  let sign := c.rest.take 1
  let (whole, c) := (c.skip 1).takeWhile isDigitByte
  let (fraction, c) := readFraction c
  let (exponent, c) ← readExponent c
  let text := (sign ++ whole ++ fraction ++ exponent).map charOf
  if fraction.isEmpty ∧ exponent.isEmpty then
    match Decimal.readInt64 text with
    | .ok n => .ok (.int n, c)
    | .error .invalidDigit => c.fail .integerDigit
    | .error .tooLarge => c.fail .integerTooLarge
    | .error .tooSmall => c.fail .integerTooSmall
  else
    match Decimal.readFloat? text with
    | some x => .ok (.float x, c)
    | none => c.fail .floatForm

end DocPath
