/-! The shortest decimal that reads back as a given double.

A finite positive double is m · 2^q with natural m. The reals that round to it form an
interval around it, whose ends belong to it exactly when m is even. `digits?` looks at
the grids of 1, 2, … 17 digits and takes, on the first grid that meets the interval, the
point nearest to the double; of two equally near points the larger. -/
namespace DocPath.Decimal

/-- A positive double as `significand · 2^exponent`. The gap below it is half as wide as
the gap above it when `atPower` holds. -/
structure Binary where
  significand : Nat
  exponent : Int
  atPower : Bool
  deriving DecidableEq, Repr

/-- The parts of the magnitude of a finite double that is not zero. -/
def Binary.ofFloat (x : Float) : Binary :=
  let bits : Nat := x.toBits.toNat
  let field : Nat := bits / Nat.pow 2 52 % 2048
  let fraction : Nat := bits % Nat.pow 2 52
  if field = 0 then ⟨fraction, -1074, false⟩
  else ⟨Nat.pow 2 52 + fraction, (field : Int) - 1075, fraction = 0 ∧ 1 < field⟩

/-- Digits d₁d₂… and the place of the point: the number is 0.d₁d₂… · 10^point. -/
structure Digits where
  digits : List Char
  point : Int
  deriving DecidableEq, Repr

def natDigits (n : Nat) : List Char := Nat.toDigits 10 n

/-- The power of ten just above the double: 10^(point - 1) ≤ m · 2^q < 10^point. -/
def Binary.point (b : Binary) : Int :=
  let scaled := b.significand * Nat.pow 2 b.exponent.toNat * Nat.pow 10 330 /
    Nat.pow 2 (-b.exponent).toNat
  (natDigits scaled).length - 330

/-- The point of the grid with `n` digits that is nearest to the double among those that
round to it. The double and the ends of its interval are counted in quarters of the unit of
the significand, and both sides are brought to a common denominator. -/
def Binary.onGrid? (b : Binary) (n : Nat) : Option Digits :=
  let place := b.point - n
  let up := Nat.pow 2 (b.exponent - 2).toNat * Nat.pow 10 (-place).toNat
  let unit := Nat.pow 2 (2 - b.exponent).toNat * Nat.pow 10 place.toNat
  let exact := 4 * b.significand * up
  let low := (4 * b.significand - (if b.atPower then 1 else 2)) * up
  let high := (4 * b.significand + 2) * up
  let closed := b.significand % 2 = 0
  let down := exact / unit
  let above := down + 1
  let downFits := low < down * unit ∨ (closed ∧ low = down * unit)
  let aboveFits := above * unit < high ∨ (closed ∧ above * unit = high)
  let pick (d : Nat) : Option Digits :=
    let ds := natDigits d
    some ⟨ds, place + ds.length⟩
  if downFits then
    if aboveFits ∧ above * unit - exact ≤ exact - down * unit then pick above else pick down
  else if aboveFits then pick above
  else none

/-- The digits of the shortest decimal that reads back as the double. -/
def Binary.digits (b : Binary) : Digits :=
  ((List.range 17).findSome? fun i => b.onGrid? (i + 1)).getD ⟨natDigits 0, 1⟩

def dropTrailingZeros (ds : List Char) : List Char :=
  (ds.reverse.dropWhile (· = '0')).reverse

/-- The spelling of floats in paths and documents: positional from 10^-4 up to below
10^16 and for zero, always with a digit after the point; otherwise one digit before the
point and an exponent without a plus sign. -/
def layout (d : Digits) : List Char :=
  let ds := dropTrailingZeros d.digits
  if -4 < d.point ∧ d.point ≤ 16 then
    if d.point ≤ 0 then ['0', '.'] ++ List.replicate (-d.point).toNat '0' ++ ds
    else
      let n := d.point.toNat
      let whole := ds.take n ++ List.replicate (n - ds.length) '0'
      let rest := ds.drop n
      whole ++ '.' :: (if rest.isEmpty then ['0'] else rest)
  else
    let exponent := (toString (d.point - 1)).toList
    match ds with
    | [] => ['0', '.', '0']
    | [c] => c :: 'e' :: exponent
    | c :: cs => c :: '.' :: (cs ++ 'e' :: exponent)

def writeFloat (x : Float) : List Char :=
  let bits : Nat := x.toBits.toNat
  let negative := bits / Nat.pow 2 63 = 1
  let magnitude := bits % Nat.pow 2 63
  if magnitude > 2047 * Nat.pow 2 52 then "NaN".toList
  else
    let body :=
      if magnitude = 2047 * Nat.pow 2 52 then "inf".toList
      else if magnitude = 0 then "0.0".toList
      else layout (Binary.ofFloat x).digits
    if negative then '-' :: body else body

def writeInt (n : Int) : List Char :=
  if n < 0 then '-' :: natDigits n.natAbs else natDigits n.natAbs

end DocPath.Decimal
