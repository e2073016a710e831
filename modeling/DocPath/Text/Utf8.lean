/-! Reading bytes as UTF-8 text without failing: every longest run of bytes that begins a
character but does not complete one, and every byte that begins none, is read as one
U+FFFD. -/
namespace DocPath.Text.Utf8

/-- A character whose first bytes have been read: how many bytes are missing, the range
that the next one has to lie in, and the value bits so far. -/
structure Partial where
  missing : Nat
  low : UInt8
  high : UInt8
  bits : Nat
  deriving DecidableEq, Repr

inductive Lead where
  | char (c : Char)
  | more (p : Partial)
  | invalid
  deriving DecidableEq, Repr

/-- What a byte begins. The ranges of the second byte leave out overlong forms,
surrogates and values above U+10FFFF. -/
def lead (b : UInt8) : Lead :=
  if b < 0x80 then .char (Char.ofNat b.toNat)
  else if b < 0xC2 then .invalid
  else if b < 0xE0 then .more ⟨1, 0x80, 0xBF, b.toNat % 32⟩
  else if b = 0xE0 then .more ⟨2, 0xA0, 0xBF, 0⟩
  else if b = 0xED then .more ⟨2, 0x80, 0x9F, 13⟩
  else if b < 0xF0 then .more ⟨2, 0x80, 0xBF, b.toNat % 16⟩
  else if b = 0xF0 then .more ⟨3, 0x90, 0xBF, 0⟩
  else if b < 0xF4 then .more ⟨3, 0x80, 0xBF, b.toNat % 8⟩
  else if b = 0xF4 then .more ⟨3, 0x80, 0x8F, 4⟩
  else .invalid

def replacement : Char := '\uFFFD'

/-- Decodes bytes after those of an unfinished character, if any. -/
def decodeFrom : Option Partial → List UInt8 → List Char
  | none, [] => []
  | some _, [] => [replacement]
  | none, b :: bs =>
    match lead b with
    | .char c => c :: decodeFrom none bs
    | .more p => decodeFrom (some p) bs
    | .invalid => replacement :: decodeFrom none bs
  | some p, b :: bs =>
    if p.low ≤ b ∧ b ≤ p.high then
      let bits := p.bits * 64 + b.toNat % 64
      match p.missing with
      | 0 | 1 => Char.ofNat bits :: decodeFrom none bs
      | n + 2 => decodeFrom (some ⟨n + 1, 0x80, 0xBF, bits⟩) bs
    else
      replacement ::
        match lead b with
        | .char c => c :: decodeFrom none bs
        | .more p => decodeFrom (some p) bs
        | .invalid => replacement :: decodeFrom none bs

def decode (bs : List UInt8) : List Char := decodeFrom none bs

def decodeString (bs : List UInt8) : String := String.ofList (decode bs)

/-- Bytes cut after each run of bytes that is read as one U+FFFD: a text, and the run that
ends it, which is empty where the bytes end with the text. -/
structure Chunk where
  valid : List UInt8
  invalid : List UInt8
  deriving DecidableEq, Repr

/-- The chunks of bytes after a text, which begins the first chunk, and after the bytes of an
unfinished character, if there are such. -/
def chunksFrom (valid : List UInt8) : Option (Partial × List UInt8) → List UInt8 → List Chunk
  | none, [] => if valid.isEmpty then [] else [⟨valid, []⟩]
  | some (_, pre), [] => [⟨valid, pre⟩]
  | none, b :: bs =>
    match lead b with
    | .char _ => chunksFrom (valid ++ [b]) none bs
    | .more p => chunksFrom valid (some (p, [b])) bs
    | .invalid => ⟨valid, [b]⟩ :: chunksFrom [] none bs
  | some (p, pre), b :: bs =>
    if p.low ≤ b ∧ b ≤ p.high then
      match p.missing with
      | 0 | 1 => chunksFrom (valid ++ pre ++ [b]) none bs
      | n + 2 =>
        let bits := p.bits * 64 + b.toNat % 64
        chunksFrom valid (some (⟨n + 1, 0x80, 0xBF, bits⟩, pre ++ [b])) bs
    else
      ⟨valid, pre⟩ ::
        match lead b with
        | .char _ => chunksFrom [b] none bs
        | .more p => chunksFrom [] (some (p, [b])) bs
        | .invalid => ⟨[], [b]⟩ :: chunksFrom [] none bs

def chunks (bs : List UInt8) : List Chunk := chunksFrom [] none bs

def isValidFrom : Option Partial → List UInt8 → Bool
  | none, [] => true
  | some _, [] => false
  | none, b :: bs =>
    match lead b with
    | .char _ => isValidFrom none bs
    | .more p => isValidFrom (some p) bs
    | .invalid => false
  | some p, b :: bs =>
    p.low ≤ b && b ≤ p.high &&
      match p.missing with
      | 0 | 1 => isValidFrom none bs
      | n + 2 => isValidFrom (some ⟨n + 1, 0x80, 0xBF, p.bits * 64 + b.toNat % 64⟩) bs

def isValid (bs : List UInt8) : Bool := isValidFrom none bs

def encodeChar (c : Char) : List UInt8 := String.utf8EncodeChar c

def encode (cs : List Char) : List UInt8 := cs.flatMap encodeChar

example : decode [0x61, 0xFF, 0x62] = ['a', replacement, 'b'] := by decide
example : decode [0xE2, 0x82, 0x41, 0xC3, 0xA9] = [replacement, 'A', 'é'] := by decide
example : chunks [0x61, 0xFF, 0x62] = [⟨[0x61], [0xFF]⟩, ⟨[0x62], []⟩] := by decide
example : decode [0xF0, 0x9F, 0x98, 0x80] = ['😀'] := by decide

end DocPath.Text.Utf8
