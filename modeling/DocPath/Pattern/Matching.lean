import DocPath.Pattern.CharSet

/-! Patterns as trees, and whether one occurs in a text.

A pattern that starts at one position of a text may end at several. `Node.ends` lists
them, each once, so a search costs no more than a polynomial in the length of the text
whatever the repetitions in the pattern. -/
namespace DocPath.Pattern

/-- Conditions on a place between two characters. -/
inductive Place where
  | textStart
  | textEnd
  | lineStart
  | lineEnd
  | wordEdge
  | notWordEdge
  | wordStart
  | wordEnd
  /-- No word character before. -/
  | wordStartHalf
  /-- No word character after. -/
  | wordEndHalf
  deriving DecidableEq, Repr

inductive Node where
  | empty
  | char (set : CharSet)
  | place (p : Place)
  | seq (a b : Node)
  | alt (a b : Node)
  /-- At least `low` and, if `high` is given, at most that many times. -/
  | times (body : Node) (low : Nat) (high : Option Nat)
  deriving DecidableEq, Repr, Inhabited

def isWordAt : Option Char → Bool
  | some c => Text.isWordChar c
  | none => false

/-- Whether the place between two characters, absent at the ends of the text, meets the
condition. -/
def Place.holds (p : Place) (before after : Option Char) : Bool :=
  match p with
  | .textStart => before.isNone
  | .textEnd => after.isNone
  | .lineStart => before.isNone || before = some '\n'
  | .lineEnd => after.isNone || after = some '\n'
  | .wordEdge => isWordAt before != isWordAt after
  | .notWordEdge => isWordAt before == isWordAt after
  | .wordStart => !isWordAt before && isWordAt after
  | .wordEnd => isWordAt before && !isWordAt after
  | .wordStartHalf => !isWordAt before
  | .wordEndHalf => !isWordAt after

def charBefore (text : Array Char) : Nat → Option Char
  | 0 => none
  | i + 1 => text[i]?

def reach (next : Nat → List Nat) (is : List Nat) : List Nat :=
  (is.flatMap next).eraseDups

def rounds (next : Nat → List Nat) : Nat → List Nat → List Nat
  | 0, is => is
  | n + 1, is => rounds next n (reach next is)

def within (next : Nat → List Nat) : Nat → List Nat → List Nat
  | 0, is => is
  | n + 1, is => within next n (is ++ reach next is).eraseDups

/-- Where a match that starts at `i` may end. Repetition beyond as many rounds as there are
positions reaches nothing new. -/
def Node.ends (text : Array Char) : Node → Nat → List Nat
  | .empty, i => [i]
  | .char set, i =>
    match text[i]? with
    | some c => if set.contains c then [i + 1] else []
    | none => []
  | .place p, i => if p.holds (charBefore text i) text[i]? then [i] else []
  | .seq a b, i => reach (b.ends text) (a.ends text i)
  | .alt a b, i => (a.ends text i ++ b.ends text i).eraseDups
  | .times body low high, i =>
    let start := rounds (body.ends text) low [i]
    let more := match high with
      | some high => min (high - low) (text.size + 1)
      | none => text.size + 1
    within (body.ends text) more start

def Node.occursIn (n : Node) (text : String) : Bool :=
  let chars := text.toList.toArray
  (List.range (chars.size + 1)).any fun i => !(n.ends chars i).isEmpty

end DocPath.Pattern
