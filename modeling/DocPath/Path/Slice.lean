/-! Slices: every so many elements of a sequence from one bound up to another. -/
namespace DocPath

/-- The sum of two integers of 64 bits, none where it leaves their range. -/
def sumInt64? (a b : Int64) : Option Int64 :=
  let sum := a.toInt + b.toInt
  if Int64.minValue.toInt ≤ sum ∧ sum ≤ Int64.maxValue.toInt then some (Int64.ofInt sum) else none

theorem toInt_of_sumInt64? {a b c : Int64} (h : sumInt64? a b = some c) :
    c.toInt = a.toInt + b.toInt := by
  rw [sumInt64?] at h
  split at h
  · rename_i hrange
    cases h
    exact Int64.toInt_ofInt_of_le hrange.1 (Int.lt_add_one_of_le hrange.2)
  · cases h

/-- A range of positions with an exclusive end. Negative bounds count from the end of the
sequence, which is known only when the slice is applied. -/
structure Slice where
  start : Int64
  stop : Int64
  step : Int64
  deriving DecidableEq, Repr, Inhabited

namespace Slice

/-- The end that stands for a slice left open. -/
def openEnd : Int64 := 2147483647

/-- Whether a position comes before an end that is approached in steps. A negative step leads
downward. -/
def before (step stop i : Int64) : Bool := if 0 < step then i < stop else stop < i

/-- How far a position lies before an end; zero from there on. -/
def distance (step stop i : Int64) : Nat :=
  (if 0 < step then stop.toInt - i.toInt else i.toInt - stop.toInt).toNat

theorem distance_decreases {step stop i next : Int64} (hstep : step ≠ 0)
    (hbefore : before step stop i) (hnext : sumInt64? i step = some next) :
    distance step stop next < distance step stop i := by
  have hsum := toInt_of_sumInt64? hnext
  have hne : step.toInt ≠ 0 := fun h => hstep (Int64.toInt_inj.mp h)
  have hzero : (0 : Int64).toInt = 0 := rfl
  rw [before] at hbefore
  split at hbefore
  all_goals
    rename_i hpos
    simp only [decide_eq_true_eq, Int64.lt_iff_toInt_lt, hzero] at hbefore hpos
    simp only [distance, Int64.lt_iff_toInt_lt, hzero, hpos, if_true, if_false]
    omega

/-- Collects the positions from `i` on that come before the end. There are no more of them where
the next one leaves the range of 64 bits. -/
def collect (step stop : Int64) (hstep : step ≠ 0) (i : Int64) (found : Array Nat) : Array Nat :=
  if _hbefore : before step stop i then
    match _hnext : sumInt64? i step with
    | some next => collect step stop hstep next (found.push i.toUInt64.toNat)
    | none => found.push i.toUInt64.toNat
  else found
termination_by distance step stop i
decreasing_by exact distance_decreases hstep _hbefore _hnext

/-- A bound as a position in a sequence of `len` elements, which may lie outside of it. -/
def fromEnd? (len bound : Int64) : Option Int64 :=
  if bound < 0 then sumInt64? bound len else some bound

/-- The positions selected in a sequence of `len` elements, in the order of selection; none if
an integer left the range of 64 bits on the way to them. A step of zero selects nothing. -/
def indices? (s : Slice) (len : Nat) : Option (List Nat) :=
  if Int64.maxValue.toInt < len then some []
  else if hstep : s.step = 0 then some []
  else do
    let len := Int64.ofNat len
    let first := max (← fromEnd? len s.start) 0
    let stop ← fromEnd? len s.stop
    if len ≤ first then some []
    else
      let stop := min stop len
      let stop := if 0 < s.step then stop else max stop (-1)
      some (collect s.step stop hstep first #[]).toList

/-- The positions selected in a sequence of `len` elements, in the order of selection. -/
def indices (s : Slice) (len : Nat) : List Nat := (s.indices? len).getD []

end Slice
end DocPath
