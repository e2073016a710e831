/-! What filter scripts compute with and do not define: regular expressions and decimal
numbers. They are those of a library, and the development holds for any. -/
namespace DocPath

/-- A regular expression that has been compiled. It is known by its text. -/
structure Regex where
  source : String
  deriving DecidableEq, Repr

/-- Regular expressions: which texts are patterns, and whether a pattern matches somewhere in
a text. -/
structure Regex.Engine where
  compiles : String → Bool
  isMatch : (pattern text : String) → Bool

def Regex.grouped (pattern : String) : String := "(?:" ++ pattern ++ ")"

/-- What is documented of patterns, by the stretches of a text that they match. -/
structure Regex.Engine.Laws (E : Engine) (Spans : (pattern text : String) → Nat → Nat → Prop) :
    Prop where
  /-- There is a match when some stretch is matched. -/
  isMatch_iff {p s : String} (h : E.compiles p) : E.isMatch p s ↔ ∃ i j, Spans p s i j
  /-- `^` matches at the start of the text. -/
  start_iff {s : String} {i j : Nat} : Spans "^" s i j ↔ i = 0 ∧ j = 0
  /-- `$` matches at the end of the text. -/
  stop_iff {s : String} {i j : Nat} : Spans "$" s i j ↔ i = s.length ∧ j = s.length
  /-- A group matches what its pattern does. Alternatives and flags do not reach out of it. -/
  grouped_iff {p s : String} {i j : Nat} (h : E.compiles p) (hgroup : E.compiles (grouped p)) :
    Spans (grouped p) s i j ↔ Spans p s i j
  /-- A group before `$` is closed there as well when it is alone, and the one matches where the
  other has come to an end. -/
  before_stop {p : String} (h : E.compiles p) (hstop : E.compiles (grouped p ++ "$")) :
    E.compiles (grouped p) ∧ ∀ {s i j}, Spans (grouped p ++ "$") s i j ↔
      ∃ k, Spans (grouped p) s i k ∧ Spans "$" s k j
  /-- The same of `^` before what begins with a group. -/
  after_start {p : String} (h : E.compiles p) (hstart : E.compiles ("^" ++ (grouped p ++ "$"))) :
    E.compiles (grouped p ++ "$") ∧ ∀ {s i j}, Spans ("^" ++ (grouped p ++ "$")) s i j ↔
      ∃ k, Spans "^" s i k ∧ Spans (grouped p ++ "$") s k j

/-- Decimal numbers of a bounded size. What does not fit gives none. -/
structure Decimal.Arithmetic where
  Number : Type
  ofInt : Int → Number
  ofFloat? : Float → Option Number
  compare : Number → Number → Ordering
  add? : Number → Number → Option Number
  sub? : Number → Number → Option Number
  mul? : Number → Number → Option Number
  div? : Number → Number → Option Number
  toFloat? : Number → Option Float

class Libraries where
  patterns : Regex.Engine
  decimals : Decimal.Arithmetic

namespace Regex

variable [Libraries]

def compile? (source : String) : Option Regex :=
  if Libraries.patterns.compiles source then some ⟨source⟩ else none

/-- Whether the pattern matches somewhere in the text. -/
def isMatch (r : Regex) (text : String) : Bool := Libraries.patterns.isMatch r.source text

theorem compile?_eq_some_iff {p : String} {r : Regex} :
    compile? p = some r ↔ Libraries.patterns.compiles p ∧ r.source = p := by
  unfold compile?
  constructor
  · intro h
    split at h
    · cases h
      exact ⟨‹_›, rfl⟩
    · cases h
  · rintro ⟨h, rfl⟩
    exact if_pos h

end Regex
end DocPath
