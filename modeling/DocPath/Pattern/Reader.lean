import DocPath.Pattern.Matching

/-! Reading patterns from text. The language is that of regular expressions proper:
alternatives, sequences, counted repetition, classes with set operations, anchors, word
edges and flags. Back-references and look-around are not part of it, and an escaped letter
without a meaning is an error. -/
namespace DocPath.Pattern

structure Flags where
  /-- Letters match whatever their case. -/
  foldCase : Bool := false
  /-- `^` and `$` match at line ends too. -/
  lines : Bool := false
  /-- `.` matches a line feed too. -/
  dotAll : Bool := false
  /-- Blanks and comments in the pattern do not count. -/
  spaced : Bool := false
  deriving DecidableEq, Repr, Inhabited

/-- Skips what does not count in a spaced pattern: blanks, and comments up to a line end. -/
def skipSpaced : Bool → List Char → List Char
  | _, [] => []
  | true, c :: cs => if c = '\n' then skipSpaced false cs else skipSpaced true cs
  | false, c :: cs =>
    if Text.isBlankChar c then skipSpaced false cs
    else if c = '#' then skipSpaced true cs
    else c :: cs

def Flags.skip (flags : Flags) (cs : List Char) : List Char :=
  if flags.spaced then skipSpaced false cs else cs

def hexDigit? (c : Char) : Option Nat :=
  if '0' ≤ c ∧ c ≤ '9' then some (c.toNat - 48)
  else if 'a' ≤ c ∧ c ≤ 'f' then some (c.toNat - 87)
  else if 'A' ≤ c ∧ c ≤ 'F' then some (c.toNat - 55)
  else none

def hexChar? (ds : List Char) : Option Char := do
  guard (!ds.isEmpty)
  let n ← ds.foldlM (fun n d => (hexDigit? d).map (16 * n + ·)) 0
  if n < 0xD800 ∨ (0xE000 ≤ n ∧ n < 0x110000) then some (Char.ofNat n) else none

/-- A character escaped by code: in braces, or by exactly `width` digits. -/
def readHex? (width : Nat) (cs : List Char) : Option (Char × List Char) :=
  match cs with
  | '\x7b' :: more =>
    match more.dropWhile (· ≠ '\x7d') with
    | _ :: rest => (hexChar? (more.takeWhile (· ≠ '\x7d'))).map (·, rest)
    | [] => none
  | _ =>
    if width ≤ cs.length then (hexChar? (cs.take width)).map (·, cs.drop width) else none

/-- What stands for itself after a backslash: ASCII characters other than letters, digits
and angle brackets. -/
def isEscapable (c : Char) : Bool :=
  c.toNat < 128 && !c.isAlphanum && c ≠ '<' && c ≠ '>'

inductive Escape where
  | char (c : Char)
  | set (s : CharSet)
  | place (p : Place)

def bracedPlace? (name : String) : Option Place :=
  match name with
  | "start" => some .wordStart
  | "end" => some .wordEnd
  | "start-half" => some .wordStartHalf
  | "end-half" => some .wordEndHalf
  | _ => none

/-- The word edge after `\b`, which may have its name in braces; a number in braces is a
repetition and left alone. -/
def readWordEdge? (cs : List Char) : Option (Place × List Char) :=
  match cs with
  | '\x7b' :: c :: more =>
    if c.isAlpha ∨ c = '-' then
      match (c :: more).dropWhile (· ≠ '\x7d') with
      | _ :: rest =>
        (bracedPlace? (String.ofList ((c :: more).takeWhile (· ≠ '\x7d')))).map (·, rest)
      | [] => none
    else some (.wordEdge, cs)
  | _ => some (.wordEdge, cs)

def readEscape? : List Char → Option (Escape × List Char)
  | [] => none
  | c :: cs =>
    match c with
    | 'd' => some (.set .digit, cs)
    | 'D' => some (.set (.compl .digit), cs)
    | 's' => some (.set .blank, cs)
    | 'S' => some (.set (.compl .blank), cs)
    | 'w' => some (.set .word, cs)
    | 'W' => some (.set (.compl .word), cs)
    | 'a' => some (.char '\x07', cs)
    | 'f' => some (.char '\x0c', cs)
    | 't' => some (.char '\t', cs)
    | 'n' => some (.char '\n', cs)
    | 'r' => some (.char '\r', cs)
    | 'v' => some (.char '\x0b', cs)
    | 'A' => some (.place .textStart, cs)
    | 'z' => some (.place .textEnd, cs)
    | 'B' => some (.place .notWordEdge, cs)
    | 'b' => (readWordEdge? cs).map fun p => (.place p.1, p.2)
    | '<' => some (.place .wordStart, cs)
    | '>' => some (.place .wordEnd, cs)
    | 'x' => (readHex? 2 cs).map fun p => (.char p.1, p.2)
    | 'u' => (readHex? 4 cs).map fun p => (.char p.1, p.2)
    | 'U' => (readHex? 8 cs).map fun p => (.char p.1, p.2)
    | c => if isEscapable c then some (.char c, cs) else none

def readClassItem? (cs : List Char) : Option ((Char ⊕ CharSet) × List Char) :=
  match cs with
  | [] => none
  | '\\' :: cs =>
    match readEscape? cs with
    | some (.char c, rest) => some (.inl c, rest)
    | some (.set s, rest) => some (.inr s, rest)
    | _ => none
  | c :: cs => some (.inl c, cs)

/-- One member of a class, or a range of characters. A hyphen before the closing bracket or
another hyphen makes no range. -/
def readClassRange? (flags : Flags) (cs : List Char) : Option (CharSet × List Char) := do
  let (first, rest) ← readClassItem? cs
  let alone := match first with
    | .inl c => CharSet.single c
    | .inr s => s
  match flags.skip rest with
  | '-' :: more =>
    match flags.skip more with
    | ']' :: _ | '-' :: _ => some (alone, flags.skip rest)
    | more =>
      let (last, rest) ← readClassItem? more
      match first, last with
      | .inl a, .inl b => if a ≤ b then some (.range a b, rest) else none
      | _, _ => none
  | rest => some (alone, rest)

def readNamedClass? (cs : List Char) : Option (CharSet × List Char) :=
  let (negated, cs) := match cs with
    | '^' :: more => (true, more)
    | more => (false, more)
  match cs.dropWhile (· ≠ ':') with
  | ':' :: ']' :: rest =>
    (CharSet.named? (String.ofList (cs.takeWhile (· ≠ ':')))).map fun s =>
      (.complIf negated s, rest)
  | _ => none

inductive SetOp where
  | inter
  | diff
  | symmDiff

def SetOp.join (fold : Bool) : Option (CharSet × SetOp) → CharSet → CharSet
  | none, s => s
  | some (l, op), r =>
    let l := CharSet.foldIf fold l
    let r := CharSet.foldIf fold r
    match op with
    | .inter => .inter l r
    | .diff => .diff l r
    | .symmDiff => .symmDiff l r

/-- Hyphens that open a class stand for themselves. -/
def takeHyphens (flags : Flags) : Nat → List Char → List CharSet × List Char
  | 0, cs => ([], cs)
  | fuel + 1, '-' :: cs =>
    let (sets, rest) := takeHyphens flags fuel (flags.skip cs)
    (.single '-' :: sets, rest)
  | _, cs => ([], cs)

/-- What opens a class after its bracket: a possible `^`, hyphens, and a closing bracket
that, standing first, stands for itself. -/
def openClass (flags : Flags) (cs : List Char) : Bool × CharSet × List Char :=
  let (negated, cs) := match flags.skip cs with
    | '^' :: more => (true, flags.skip more)
    | more => (false, more)
  let (hyphens, cs) := takeHyphens flags cs.length cs
  match hyphens, cs with
  | [], ']' :: more => (negated, .single ']', more)
  | _, _ => (negated, .unionAll hyphens, cs)

/-- Reads a class up to its closing bracket. `left` is the operand and operator before the
part being read, `here` the part so far. -/
def readClass? (flags : Flags) : Nat → Bool → Option (CharSet × SetOp) → CharSet → List Char
    → Option (CharSet × List Char)
  | 0, _, _, _, _ => none
  | fuel + 1, negated, left, here, cs =>
    let again := readClass? flags fuel negated
    match flags.skip cs with
    | [] => none
    | ']' :: rest =>
      let whole := SetOp.join flags.foldCase left here
      some (.complIf negated (.foldIf flags.foldCase whole), rest)
    | '[' :: rest =>
      let nested :=
        let (inner, first, rest) := openClass flags rest
        match readClass? flags fuel inner none first rest with
        | some (s, rest) => again left (.union here s) rest
        | none => none
      match rest with
      | ':' :: more =>
        match readNamedClass? more with
        | some (s, rest) => again left (.union here s) rest
        | none => nested
      | _ => nested
    | '&' :: '&' :: rest => again (some (SetOp.join flags.foldCase left here, .inter)) .none rest
    | '-' :: '-' :: rest => again (some (SetOp.join flags.foldCase left here, .diff)) .none rest
    | '~' :: '~' :: rest =>
      again (some (SetOp.join flags.foldCase left here, .symmDiff)) .none rest
    | rest =>
      match readClassRange? flags rest with
      | some (s, rest) => again left (.union here s) rest
      | none => none

def readCount? (cs : List Char) : Option Nat × List Char :=
  let cs := cs.dropWhile Text.isBlankChar
  let ds := cs.takeWhile Char.isDigit
  let rest := (cs.dropWhile Char.isDigit).dropWhile Text.isBlankChar
  let n := ds.foldl (fun n d => 10 * n + (d.toNat - 48)) 0
  (if ds.isEmpty ∨ n ≥ Nat.pow 2 32 then none else some n, rest)

def readBounds? (flags : Flags) (cs : List Char) : Option ((Nat × Option Nat) × List Char) := do
  let (low, rest) := readCount? (flags.skip cs)
  let low ← low
  match rest with
  | '\x7d' :: rest => some ((low, some low), rest)
  | ',' :: rest =>
    match flags.skip rest with
    | '\x7d' :: rest => some ((low, none), rest)
    | rest =>
      let (high, rest) := readCount? rest
      let high ← high
      match rest with
      | '\x7d' :: rest => if low ≤ high then some ((low, some high), rest) else none
      | _ => none
  | _ => none

/-- A mark after a repetition that asks for few rounds. It does not change whether there is
a match. -/
def skipLazyMark (flags : Flags) (cs : List Char) : List Char :=
  match flags.skip cs with
  | '?' :: rest => rest
  | _ => cs

def readRepetitions? (flags : Flags) : Nat → Node → List Char → Option (Node × List Char)
  | 0, _, _ => none
  | fuel + 1, n, cs =>
    let again (low : Nat) (high : Option Nat) (rest : List Char) :=
      readRepetitions? flags fuel (.times n low high) (skipLazyMark flags rest)
    match flags.skip cs with
    | '*' :: rest => again 0 none rest
    | '+' :: rest => again 1 none rest
    | '?' :: rest => again 0 (some 1) rest
    | '\x7b' :: rest =>
      match readBounds? flags rest with
      | some ((low, high), rest) => again low high rest
      | none => none
    | _ => some (n, cs)

def isNameChar (first : Bool) (c : Char) : Bool :=
  if first then c = '_' || (Text.isWordChar c && !Text.isDigitChar c)
  else c = '.' || c = '[' || c = ']' || Text.isWordChar c

def readName? (cs : List Char) : Option (String × List Char) :=
  let name := cs.takeWhile (· ≠ '>')
  match name, cs.dropWhile (· ≠ '>') with
  | c :: more, _ :: rest =>
    if isNameChar true c ∧ more.all (isNameChar false) then some (String.ofList name, rest)
    else none
  | _, _ => none

def Flags.set? (flags : Flags) (on : Bool) (c : Char) : Option Flags :=
  match c with
  | 'i' => some { flags with foldCase := on }
  | 'm' => some { flags with lines := on }
  | 's' => some { flags with dotAll := on }
  | 'x' => some { flags with spaced := on }
  | 'U' => some flags
  | 'u' => if on then some flags else none
  | _ => none

/-- Flags after `(?`, up to a colon (`true`) or closing parenthesis (`false`). Each letter
stands at most once, and a minus sign is followed by one. -/
def readFlags? (flags : Flags) (on : Bool) (seen : List Char)
    : List Char → Option (Flags × Bool × List Char)
  | [] => none
  | c :: cs =>
    let done (groups : Bool) :=
      if seen.head? = some '-' ∨ (seen.isEmpty ∧ !groups) then none
      else some (flags, groups, cs)
    if c = ':' then done true
    else if c = ')' then done false
    else if seen.contains c then none
    else if c = '-' then readFlags? flags false (c :: seen) cs
    else
      match flags.set? on c with
      | some flags => readFlags? flags on (c :: seen) cs
      | none => none

/-- What has been read so far of the pattern around a place: the flags in force and the
names of groups in use. -/
structure Scope where
  flags : Flags
  names : List String

inductive Item where
  | node (n : Node)
  /-- A change of flags, which cannot be repeated. -/
  | flags (f : Flags)

mutual

/-- Alternatives up to a closing parenthesis or the end. Flags set in one are in force in
the next. -/
def readAlternatives? : Nat → Scope → List Char → Option (Node × Scope × List Char)
  | 0, _, _ => none
  | fuel + 1, scope, cs => do
    let (n, scope, rest) ← readSequence? fuel scope cs
    match rest with
    | '|' :: rest =>
      let (m, scope, rest) ← readAlternatives? fuel scope rest
      some (.alt n m, scope, rest)
    | rest => some (n, scope, rest)

/-- Items up to a bar, a closing parenthesis or the end. -/
def readSequence? : Nat → Scope → List Char → Option (Node × Scope × List Char)
  | 0, _, _ => none
  | fuel + 1, scope, cs =>
    match scope.flags.skip cs with
    | [] => some (.empty, scope, [])
    | '|' :: rest => some (.empty, scope, '|' :: rest)
    | ')' :: rest => some (.empty, scope, ')' :: rest)
    | cs => do
      let (item, scope, rest) ← readItem? fuel scope cs
      match item with
      | .flags f => readSequence? fuel { scope with flags := f } rest
      | .node n =>
        let (n, rest) ← readRepetitions? scope.flags (rest.length + 1) n rest
        let (m, scope, rest) ← readSequence? fuel scope rest
        some (.seq n m, scope, rest)

/-- One item without its repetition marks. -/
def readItem? : Nat → Scope → List Char → Option (Item × Scope × List Char)
  | 0, _, _ => none
  | fuel + 1, scope, cs =>
    let flags := scope.flags
    let node (n : Node) (rest : List Char) := some (Item.node n, scope, rest)
    match cs with
    | [] => none
    | '*' :: _ | '+' :: _ | '?' :: _ | '\x7b' :: _ => none
    | '.' :: rest =>
      node (.char (if flags.dotAll then .any else .compl (.single '\n'))) rest
    | '^' :: rest => node (.place (if flags.lines then .lineStart else .textStart)) rest
    | '$' :: rest => node (.place (if flags.lines then .lineEnd else .textEnd)) rest
    | '\\' :: rest =>
      match readEscape? rest with
      | some (.char c, rest) => node (.char (.foldIf flags.foldCase (.single c))) rest
      | some (.set s, rest) => node (.char s) rest
      | some (.place p, rest) => node (.place p) rest
      | none => none
    | '[' :: rest =>
      let (negated, first, rest) := openClass flags rest
      match readClass? flags (rest.length + 1) negated none first rest with
      | some (s, rest) => node (.char s) rest
      | none => none
    | '(' :: rest => readGroup? fuel scope (flags.skip rest)
    | c :: rest => node (.char (.foldIf flags.foldCase (.single c))) rest

/-- A group after its opening parenthesis. Flags set inside are forgotten after it. -/
def readGroup? : Nat → Scope → List Char → Option (Item × Scope × List Char)
  | 0, _, _ => none
  | fuel + 1, scope, cs =>
    let body (inner : Scope) (rest : List Char) := do
      let (n, after, rest) ← readAlternatives? fuel inner rest
      match rest with
      | ')' :: rest => some (Item.node n, { scope with names := after.names }, rest)
      | _ => none
    let namedBody (rest : List Char) := do
      let (name, rest) ← readName? rest
      if scope.names.contains name then none
      else body { scope with names := name :: scope.names } rest
    match cs with
    | '?' :: 'P' :: '<' :: rest => namedBody rest
    | '?' :: '<' :: '=' :: _ | '?' :: '<' :: '!' :: _ => none
    | '?' :: '<' :: rest => namedBody rest
    | '?' :: rest =>
      match readFlags? scope.flags true [] rest with
      | some (f, true, rest) => body { scope with flags := f } rest
      | some (f, false, rest) => some (.flags f, scope, rest)
      | none => none
    | rest => body scope rest

end

def read? (cs : List Char) : Option Node :=
  match readAlternatives? (4 * cs.length + 4) ⟨{}, []⟩ cs with
  | some (n, _, []) => some n
  | _ => none

end DocPath.Pattern
