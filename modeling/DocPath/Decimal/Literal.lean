/-! Reading numbers from text. Floats are rounded correctly, whatever the number of digits
and the size of the exponent. -/
namespace DocPath.Decimal

/-- The natural number that digits denote after a number already read. -/
def digitsValue (start : Nat) (ds : List Char) : Nat :=
  ds.foldl (fun n c => 10 * n + (c.toNat - 48)) start

/-- The double nearest to `mantissa · 10^exponent`, infinite when that is too large.
Exponents out of reach of any double are answered without computing the power. -/
def nearest (mantissa : Nat) (exponent : Int) : Float :=
  if mantissa = 0 then 0.0
  else
    let magnitude := exponent + (Nat.toDigits 10 mantissa).length
    if magnitude > 400 then 1.0 / 0.0
    else if magnitude < -400 then 0.0
    else Float.ofScientific mantissa (exponent < 0) exponent.natAbs

def splitSign : List Char → Bool × List Char
  | '-' :: cs => (true, cs)
  | '+' :: cs => (false, cs)
  | cs => (false, cs)

/-- The exponent part of a float: nothing, or `e`, an optional sign and digits. -/
def readExponent? : List Char → Option Int
  | [] => some 0
  | c :: cs =>
    if c = 'e' ∨ c = 'E' then
      let (negative, ds) := splitSign cs
      if ds.isEmpty ∨ !ds.all Char.isDigit then none
      else
        let n := digitsValue 0 ds
        some (if negative then -n else n)
    else none

/-- A float without sign: digits around an optional point, at least one of them, and an
optional exponent; or the name of an infinity or of not-a-number in any case. -/
def readUnsigned? (cs : List Char) : Option Float :=
  let name := String.ofList (cs.map Char.toLower)
  if name = "inf" ∨ name = "infinity" then some (1.0 / 0.0)
  else if name = "nan" then some (0.0 / 0.0)
  else
    let whole := cs.takeWhile Char.isDigit
    let afterWhole := cs.dropWhile Char.isDigit
    let (fraction, rest) := match afterWhole with
      | '.' :: more => (more.takeWhile Char.isDigit, more.dropWhile Char.isDigit)
      | more => ([], more)
    if whole.isEmpty ∧ fraction.isEmpty then none
    else
      (readExponent? rest).map fun e =>
        nearest (digitsValue (digitsValue 0 whole) fraction) (e - fraction.length)

def readFloat? (cs : List Char) : Option Float :=
  let (negative, body) := splitSign cs
  (readUnsigned? body).map fun x => if negative then -x else x

inductive IntFault where
  | invalidDigit
  | tooLarge
  | tooSmall
  deriving DecidableEq, Repr

/-- The 64-bit integer that an optional minus sign and digits denote. -/
def readInt64 (cs : List Char) : Except IntFault Int64 :=
  let (negative, ds) := match cs with
    | '-' :: more => (true, more)
    | more => (false, more)
  if ds.isEmpty ∨ !ds.all Char.isDigit then .error .invalidDigit
  else
    let n := digitsValue 0 ds
    if negative then
      if n ≤ Nat.pow 2 63 then .ok (Int64.ofInt (-n)) else .error .tooSmall
    else
      if n < Nat.pow 2 63 then .ok (Int64.ofInt n) else .error .tooLarge

end DocPath.Decimal
