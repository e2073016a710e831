import DocPath.Text.Utf8

/-! Quoted text. Control characters, the backslash, the quote in use and the two line
separators U+2028 and U+2029 are written as escapes, all else as it is, so that one
reader takes the text back whichever quote was chosen. -/
namespace DocPath.Text.Quoted

def hexDigit (n : Nat) : Char := Nat.digitChar (n % 16)

/-- The escape by code: four hexadecimal digits. -/
def codeEscape (n : Nat) : List Char :=
  ['\\', 'u', hexDigit (n / 4096), hexDigit (n / 256), hexDigit (n / 16), hexDigit n]

inductive ByteClass where
  | plain
  /-- A byte of a character beyond ASCII. -/
  | wide
  /-- Written by its code. -/
  | code
  /-- Written as a backslash and a letter. -/
  | letter (c : Char)

def byteClass (b : UInt8) : ByteClass :=
  if b = 0x08 then .letter 'b'
  else if b = 0x09 then .letter 't'
  else if b = 0x0A then .letter 'n'
  else if b = 0x0C then .letter 'f'
  else if b = 0x0D then .letter 'r'
  else if b = 0x22 ∨ b = 0x27 ∨ b = 0x2F ∨ b = 0x5C then .letter (Char.ofNat b.toNat)
  else if b < 0x20 then .code
  else if b < 0x80 then .plain
  else .wide

/-- The characters between two positions in the bytes of a text. -/
def slice (bs : List UInt8) (start stop : Nat) : List Char :=
  Utf8.decode ((bs.take stop).drop start)

/-- A position `i` in the bytes of a text. What has been written is the form of the bytes
before `start`; those from there to `i` are to be copied as they are. -/
structure Escaper where
  start : Nat
  i : Nat
  written : List Char

namespace Escaper

def pass (e : Escaper) (width : Nat) : Escaper := { e with i := e.i + width }

/-- Copies what has been passed and writes an escape for the next bytes. -/
def emit (e : Escaper) (bs : List UInt8) (form : List Char) (width : Nat) : Escaper :=
  ⟨e.i + width, e.i + width, e.written ++ slice bs e.start e.i ++ form⟩

/-- One round, at the byte `b`. Quotes and the slash are escaped only where they are the
quote in use. -/
def step (quote : Char) (bs : List UInt8) (e : Escaper) (b : UInt8) : Escaper :=
  match byteClass b with
  | .plain => e.pass 1
  | .wide =>
    match (Utf8.decode (bs.drop e.i)).head? with
    | none => { e with i := bs.length }
    | some c =>
      let width := (Utf8.encodeChar c).length
      if c = '\u2028' ∨ c = '\u2029' then e.emit bs (codeEscape c.toNat) width else e.pass width
  | .code => e.emit bs (codeEscape b.toNat) 1
  | .letter c =>
    if (b = 0x22 ∨ b = 0x27 ∨ b = 0x2F) ∧ Char.ofNat b.toNat ≠ quote then e.pass 1
    else e.emit bs ['\\', c] 1

/-- Goes on to the end of the bytes. Each round passes one byte at least, so that there
need not be more rounds than bytes. -/
def run (quote : Char) (bs : List UInt8) : Nat → Escaper → Escaper
  | 0, e => e
  | n + 1, e =>
    match bs[e.i]? with
    | none => e
    | some b => run quote bs n (e.step quote bs b)

end Escaper

/-- What the bytes of a text are written as between two `quote` characters. -/
def escapeBytes (quote : Char) (bs : List UInt8) : List Char :=
  let e := Escaper.run quote bs bs.length ⟨0, 0, []⟩
  e.written ++ slice bs e.start bs.length

def write (quote : Char) (cs : List Char) : List Char :=
  quote :: (escapeBytes quote (Utf8.encode cs) ++ [quote])

/-- Bytes between quotes, chunk by chunk. One U+FFFD stands for the end of a chunk that is
not UTF-8. -/
def writeBytes (quote : Char) (bs : List UInt8) : List Char :=
  quote :: ((Utf8.chunks bs).flatMap (fun k =>
    escapeBytes quote k.valid ++ if k.invalid.isEmpty then [] else [Utf8.replacement]) ++ [quote])

end DocPath.Text.Quoted
