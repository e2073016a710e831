import DocPath.Decimal.Shortest

/-! Decimals of 96 bits: a natural below 2^96 over a power of ten up to 10^28, with a sign.
They decide how an integer and a float compare and what arithmetic on the two gives, so
that 1.1 · 10 is 11 and not a neighbour of it. Conversion from a double keeps about
fifteen digits. Where a number does not fit there is no decimal. -/
namespace DocPath.Decimal

/-- The number ± coefficient / 10^scale. -/
structure Scaled where
  negative : Bool
  coefficient : Nat
  scale : Nat
  deriving DecidableEq, Repr, Inhabited

namespace Scaled

/-- Coefficients stay below this. -/
def limit : Nat := Nat.pow 2 96

def maxScale : Nat := 28

def ofInt (n : Int) : Scaled := ⟨n < 0, n.natAbs, 0⟩

/-- Turns `m / 5^n · 10^e` into `m' · 10^e'`, exactly as long as the coefficient fits. -/
def multiplyFives : Nat → Nat → Int → Nat × Int
  | 0, m, e => (m, e)
  | n + 1, m, e =>
    if m % 2 = 0 then multiplyFives n (m / 2) (e + 1)
    else if 5 * m < limit then multiplyFives n (5 * m) e
    else multiplyFives n (m / 2) (e + 1)

/-- Turns `m · 5^n · 10^e` taken backwards into `m' · 10^e'`. -/
def divideFives? : Nat → Nat → Int → Option (Nat × Int)
  | 0, m, e => some (m, e)
  | n + 1, m, e =>
    if m < limit / 2 then divideFives? n (2 * m) (e - 1)
    else if 2 * e > n + 1 then none
    else divideFives? n (m / 5) e

/-- Makes the exponent zero or less by writing zeros into the coefficient. -/
def absorb? : Nat → Nat → Option Nat
  | 0, m => some m
  | n + 1, m => if 10 * m < limit then absorb? n (10 * m) else none

/-- Drops a digit, rounding a half up. -/
def dropDigit (m : Nat) : Nat := if m % 10 ≥ 5 then m / 10 + 1 else m / 10

/-- Drops digits until the scale is at most the largest; a coefficient that vanishes ends
it. Arguments: rounds, coefficient, scale. -/
def limitScale : Nat → Nat → Nat → Nat × Nat
  | 0, m, s => (m, s)
  | n + 1, m, s =>
    if s ≤ maxScale then (m, s)
    else if m / 10 = 0 then (0, 0)
    else limitScale n (dropDigit m) (s - 1)

/-- Drops digits that a double does not hold. -/
def limitDigits : Nat → Nat → Nat × Nat
  | m, 0 => (m, 0)
  | m, s + 1 => if m ≥ Nat.pow 2 52 then limitDigits (dropDigit m) s else (m, s + 1)

def dropZeros : Nat → Nat → Nat × Nat
  | m, 0 => (m, 0)
  | m, s + 1 => if m % 10 = 0 then dropZeros (m / 10) s else (m, s + 1)

def ofFloat? (x : Float) : Option Scaled :=
  let negative := x.toBits.toNat / Nat.pow 2 63 = 1
  if !x.isFinite then none
  else if x == 0.0 then some ⟨negative, 0, 0⟩
  else do
    let b := Binary.ofFloat x
    let (m, e) ←
      if b.exponent ≤ 0 then
        some (multiplyFives (-b.exponent).toNat b.significand b.exponent)
      else divideFives? b.exponent.toNat b.significand b.exponent
    let m ← if 0 < e then absorb? e.toNat m else some m
    let s := (-e).toNat
    let (m, s) := limitScale s m s
    let (m, s) := limitDigits m s
    let (m, s) := dropZeros m s
    some ⟨negative, m, s⟩

/-- The coefficient with its sign, brought to a larger scale. -/
def at_ (d : Scaled) (scale : Nat) : Int :=
  let m : Int := (d.coefficient * Nat.pow 10 (scale - d.scale) : Nat)
  if d.negative then -m else m

def compare (a b : Scaled) : Ordering :=
  let scale := max a.scale b.scale
  Ord.compare (a.at_ scale) (b.at_ scale)

/-- The quotient rounded to nearest, a half to the even neighbour. -/
def roundDiv (n d : Nat) : Nat :=
  let q := n / d
  let r := n % d
  if 2 * r > d ∨ (2 * r = d ∧ q % 2 = 1) then q + 1 else q

/-- Drops as few digits as it takes to fit. -/
def fit? (negative : Bool) (m s : Nat) : Option Scaled :=
  (List.range (s + 1)).findSome? fun k =>
    let q := roundDiv m (Nat.pow 10 k)
    if s - k ≤ maxScale ∧ q < limit then some ⟨negative, q, s - k⟩ else none

def neg (d : Scaled) : Scaled := { d with negative := !d.negative }

def add? (a b : Scaled) : Option Scaled :=
  if a.coefficient = 0 then some b
  else if b.coefficient = 0 then some a
  else
    let scale := max a.scale b.scale
    let sum := a.at_ scale + b.at_ scale
    fit? (sum < 0) sum.natAbs scale

def sub? (a b : Scaled) : Option Scaled := add? a b.neg

def mul? (a b : Scaled) : Option Scaled :=
  if a.coefficient = 0 ∨ b.coefficient = 0 then some ⟨false, 0, 0⟩
  else fit? (a.negative != b.negative) (a.coefficient * b.coefficient) (a.scale + b.scale)

/-- The most digits, up to nine, that a quotient at a scale can still take. -/
def room (q : Nat) (s : Int) : Nat :=
  ((List.range 10).reverse.find? fun (p : Nat) =>
    s + p ≤ maxScale ∧ q * Nat.pow 10 p < limit).getD 0

/-- Long division in portions of up to nine digits. Arguments: rounds, quotient, remainder,
scale, whether a remainder has been met. Gives the quotient, its scale and that mark. -/
def divide? (divisor : Nat) : Nat → Nat → Nat → Int → Bool → Option (Nat × Nat × Bool)
  | 0, _, _, _, _ => none
  | n + 1, q, r, s, inexact =>
    let more (p : Nat) (inexact : Bool) : Option (Nat × Nat × Bool) :=
      let t := r * Nat.pow 10 p
      let q := q * Nat.pow 10 p + t / divisor
      let r := t % divisor
      let s := s + p
      if q < limit then divide? divisor n q r s inexact
      else if s < 1 then none
      else
        let q' := q / 10
        let d := q % 10
        let up := d > 5 ∨ (d = 5 ∧ (r ≠ 0 ∨ q' % 2 = 1))
        some (if up then q' + 1 else q', (s - 1).toNat, inexact)
    if r = 0 then
      if 0 ≤ s then some (q, s.toNat, inexact)
      else
        let p := min 9 (-s).toNat
        if q * Nat.pow 10 p < limit then more p inexact else none
    else
      let p := room q s
      if p = 0 then
        if s < 0 then none
        else
          let up := 2 * r > divisor ∨ (2 * r = divisor ∧ q % 2 = 1)
          some (if up then q + 1 else q, s.toNat, true)
      else more p true

/-- Drops `k` zeros at once if the scale and the coefficient allow it. -/
def dropBlock (k : Nat) (m s : Nat) : Nat × Nat :=
  if k ≤ s ∧ m % Nat.pow 10 k = 0 then (m / Nat.pow 10 k, s - k) else (m, s)

/-- Drops zeros of an inexact quotient: by eights while its low 32 bits are zero, then by
four, two and one once each. -/
def tidy (m s : Nat) : Nat × Nat :=
  let rec eights : Nat → Nat → Nat → Nat × Nat
    | 0, m, s => (m, s)
    | n + 1, m, s =>
      if m % Nat.pow 2 32 = 0 ∧ 8 ≤ s ∧ m % Nat.pow 10 8 = 0 then
        eights n (m / Nat.pow 10 8) (s - 8)
      else (m, s)
  let (m, s) := eights 4 m s
  let (m, s) := dropBlock 4 m s
  let (m, s) := dropBlock 2 m s
  dropBlock 1 m s

def div? (a b : Scaled) : Option Scaled :=
  if b.coefficient = 0 then none
  else if a.coefficient = 0 then some ⟨false, 0, 0⟩
  else do
    let (q, s, inexact) ←
      divide? b.coefficient 64 (a.coefficient / b.coefficient) (a.coefficient % b.coefficient)
        ((a.scale : Int) - b.scale) false
    let (q, s) := if inexact then tidy q s else (q, s)
    some ⟨a.negative != b.negative, q, s⟩

/-- Ten to a power by repeated squaring in doubles. Arguments: exponent, result, base. -/
def floatPower : Nat → Float → Float → Float
  | 0, r, _ => r
  | n + 1, r, a =>
    let r := if n % 2 = 0 then r * a else r
    let half := (n + 1) / 2
    if half = 0 then r else floatPower half r (a * a)
termination_by n => n
decreasing_by omega

def toFloat (d : Scaled) : Float :=
  let magnitude :=
    if d.scale = 0 then Float.ofNat d.coefficient
    else
      let p := Nat.pow 10 d.scale
      let whole := Float.ofNat (d.coefficient / p)
      let fraction := Float.ofNat (d.coefficient % p) / Float.ofNat p
      if fraction == 0.0 then whole
      else
        let r := floatPower d.scale 1.0 10.0
        Float.round ((whole + fraction) * r) / r
  if d.negative then -magnitude else magnitude

end Scaled
end DocPath.Decimal
