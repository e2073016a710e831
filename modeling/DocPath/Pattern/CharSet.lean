import DocPath.Text.CaseFold
import DocPath.Text.CharClass

/-! Sets of characters, as patterns write them. -/
namespace DocPath.Pattern

inductive CharSet where
  | none
  | any
  | range (low high : Char)
  | digit
  | blank
  | word
  | compl (s : CharSet)
  | union (a b : CharSet)
  | inter (a b : CharSet)
  /-- Every character of a case group of which the set has a member. -/
  | folded (s : CharSet)
  deriving DecidableEq, Repr, Inhabited

namespace CharSet

def contains : CharSet → Char → Bool
  | .none, _ => false
  | .any, _ => true
  | .range low high, c => low ≤ c && c ≤ high
  | .digit, c => Text.isDigitChar c
  | .blank, c => Text.isBlankChar c
  | .word, c => Text.isWordChar c
  | .compl s, c => !s.contains c
  | .union a b, c => a.contains c || b.contains c
  | .inter a b, c => a.contains c && b.contains c
  | .folded s, c => (Text.caseGroup c).any s.contains

def single (c : Char) : CharSet := .range c c

def diff (a b : CharSet) : CharSet := .inter a (.compl b)

def symmDiff (a b : CharSet) : CharSet := .union (diff a b) (diff b a)

def unionAll (sets : List CharSet) : CharSet := sets.foldl .union .none

/-- The set made case-blind where `fold` holds. -/
def foldIf (fold : Bool) (s : CharSet) : CharSet := if fold then .folded s else s

/-- The complement where `negated` holds. -/
def complIf (negated : Bool) (s : CharSet) : CharSet := if negated then .compl s else s

/-- The classes with names between colons. They hold ASCII characters only. -/
def named? (name : String) : Option CharSet :=
  match name with
  | "alnum" => some (unionAll [.range '0' '9', .range 'A' 'Z', .range 'a' 'z'])
  | "alpha" => some (unionAll [.range 'A' 'Z', .range 'a' 'z'])
  | "ascii" => some (.range '\x00' '\x7f')
  | "blank" => some (unionAll [single '\t', single ' '])
  | "cntrl" => some (unionAll [.range '\x00' '\x1f', single '\x7f'])
  | "digit" => some (.range '0' '9')
  | "graph" => some (.range '!' '~')
  | "lower" => some (.range 'a' 'z')
  | "print" => some (.range ' ' '~')
  | "punct" =>
    some (unionAll [.range '!' '/', .range ':' '@', .range '[' (Char.ofNat 96), .range '\x7b' '~'])
  | "space" => some (unionAll [.range '\t' '\r', single ' '])
  | "upper" => some (.range 'A' 'Z')
  | "word" =>
    some (unionAll [.range '0' '9', .range 'A' 'Z', .range 'a' 'z', single '_'])
  | "xdigit" => some (unionAll [.range '0' '9', .range 'A' 'F', .range 'a' 'f'])
  | _ => Option.none

end CharSet
end DocPath.Pattern
