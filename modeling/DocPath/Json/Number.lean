import DocPath.Decimal.Literal
import DocPath.Value.Basic

/-! Numbers of JSON documents. A number without point and exponent is an integer when 64
bits hold it. Any other is computed in doubles from a 64-bit natural of its leading digits
and a power of ten, so the result may be a unit away from the nearest double. -/
namespace DocPath.Json.Number

/-- The parts of a number as written: sign, digits before and after the point, and the
exponent. The last two are absent where their mark is. -/
structure Parts where
  negative : Bool
  whole : List Char
  fraction : Option (List Char)
  exponent : Option Int
  deriving DecidableEq, Repr

def splitMinus : List Char → Bool × List Char
  | '-' :: more => (true, more)
  | cs => (false, cs)

def readFraction? : List Char → Option (Option (List Char) × List Char)
  | '.' :: more =>
    let ds := more.takeWhile Char.isDigit
    if ds.isEmpty then none else some (some ds, more.dropWhile Char.isDigit)
  | cs => some (none, cs)

def readExponent? : List Char → Option (Option Int × List Char)
  | 'e' :: more | 'E' :: more =>
    let (minus, more) := Decimal.splitSign more
    let ds := more.takeWhile Char.isDigit
    if ds.isEmpty then none
    else
      let n : Int := Decimal.digitsValue 0 ds
      some (some (if minus then -n else n), more.dropWhile Char.isDigit)
  | cs => some (none, cs)

/-- Splits a number from the text that follows. The digits before the point have no leading
zero, and every mark is followed by a digit. -/
def Parts.read? (cs : List Char) : Option (Parts × List Char) := do
  let (negative, cs) := splitMinus cs
  let whole := cs.takeWhile Char.isDigit
  guard (whole ≠ [] ∧ (whole.head? = some '0' → whole.length = 1))
  let (fraction, cs) ← readFraction? (cs.dropWhile Char.isDigit)
  let (exponent, cs) ← readExponent? cs
  some (⟨negative, whole, fraction, exponent⟩, cs)

/-- Appends digits to a 64-bit natural as long as it can hold them. Gives the natural and
the digits left out. -/
def gather (m : Nat) : List Char → Nat × List Char
  | [] => (m, [])
  | d :: ds =>
    let next := 10 * m + (d.toNat - 48)
    if next < Nat.pow 2 64 then gather next ds else (m, d :: ds)

/-- 10^n for an exponent that doubles have. -/
def tenTo (n : Nat) : Float := Float.ofScientific 1 false n

/-- Divides by 10^-e in portions of at most 10^308. Six of them make zero of anything. -/
def shrink (f : Float) (e : Int) : Nat → Float
  | 0 => 0.0
  | rounds + 1 =>
    if f == 0.0 then f
    else if e < -308 then shrink (f / tenTo 308) (e + 308) rounds
    else f / tenTo (-e).toNat

/-- The double computed for `m · 10^e`; none when it is too large. -/
def scale? (m : Nat) (e : Int) : Option Float :=
  let f := Float.ofNat m
  if e < 0 then some (shrink f e 6)
  else if m = 0 then some f
  else if e > 308 then none
  else
    let r := f * tenTo e.toNat
    if r.isInf then none else some r

/-- The value of a number: an integer where it can be, else a float; none when it is out of
range. The integer minus zero is a float, for only floats have a negative zero. -/
def Parts.value? (p : Parts) : Option Value :=
  let (m, dropped) := gather 0 p.whole
  if dropped.isEmpty ∧ p.fraction.isNone ∧ p.exponent.isNone then
    if p.negative then
      if m = 0 ∨ m > Nat.pow 2 63 then some (.float (-(Float.ofNat m)))
      else some (.int (Int64.ofInt (-m)))
    else if m < Nat.pow 2 63 then some (.int (Int64.ofInt m))
    else some (.float (Float.ofNat m))
  else
    let fraction := p.fraction.getD []
    let (m, unread) := gather m fraction
    let e := dropped.length - ((fraction.length - unread.length : Nat) : Int) + p.exponent.getD 0
    (scale? m e).map fun f => .float (if p.negative then -f else f)

end DocPath.Json.Number
