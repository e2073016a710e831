import DocPath.Path.Literal
import DocPath.Path.Render

/-! Reading paths and scripts from bytes.

A path is read fragment by fragment until a byte that begins none. A script is a run of
operands with operators between them, which are joined into a tree by how tightly they
bind. The readers of fragments and of scripts call each other, since a filter holds a
script and an operand may be a path; their first argument bounds the depth of calls and
is large enough for every input. -/
namespace DocPath

variable [Libraries]

/-- The position of the first of the tightest operators, when `best`, at `found`, is the first of
the tightest ones before position `next`. -/
def tightestFrom (best : Operator) (found next : Nat) : List Operator → Nat
  | [] => found
  | op :: ops =>
    if op.precedence < best.precedence then tightestFrom op next (next + 1) ops
    else tightestFrom best found (next + 1) ops

/-- The position of the first of the tightest operators. -/
def tightest : List Operator → Nat
  | [] => 0
  | op :: ops => tightestFrom op 0 1 ops

/-- Joins the operator at a position with the operands to its sides. The tree takes the place of
the left one. -/
def joinAt (i : Nat) (op : Operator) (operands : List Equation) : List Equation :=
  let left := operands.getD i (.value .null)
  let right := operands.getD (i + 1) (.value .null)
  (operands.eraseIdx (i + 1)).set i (.binary op left right)

/-- Joins `n` operators with operands, tighter ones first and equally tight ones from the left. -/
def joinOperators : Nat → List Equation → List Operator → List Equation
  | 0, operands, _ => operands
  | n + 1, operands, ops =>
    let i := tightest ops
    match ops[i]? with
    | none => operands
    | some op =>
      if operands.length ≤ 1 then operands
      else joinOperators n (joinAt i op operands) (ops.eraseIdx i)

def foldOperands (operands : List Equation) (ops : List Operator) : Equation :=
  (joinOperators ops.length operands ops).headD (.value .null)

/-- The tree of a run, which is an operand and then operators, each with the operand after it. -/
def foldOperations (left : Equation) (run : List (Operator × Equation)) : Equation :=
  foldOperands (left :: run.map (·.2)) (run.map (·.1))

def beginsOperator (b : UInt8) : Bool :=
  "!&*+-/<=>ehi|~".toList.contains (charOf b)

def extendsOperator (token : List Char) (b : UInt8) : Bool :=
  if token.isEmpty then beginsOperator b
  else Operator.continues token (charOf b) || (token = ['='] && b = byteOf '~')

/-- Reads the longest token made of operator bytes. The input must go on after it. -/
def readOperatorToken (token : List Char) (offset : Nat) : List UInt8 → Except Failure
    (List Char × Cursor)
  | [] => .error ⟨.openEquation, offset⟩
  | b :: rest =>
    if extendsOperator token b then readOperatorToken (token ++ [charOf b]) (offset + 1) rest
    else .ok (token, ⟨offset, b :: rest⟩)

/-- Reads an infix operator. There is none at the end of a script, before a parenthesis or
closing bracket, and where no operator begins. -/
def readOperation (c : Cursor) : Except Failure (Option Operator × Cursor) := do
  let c := c.skipSpaces
  match c.peek? with
  | none => .ok (none, c)
  | some b =>
    if b = byteOf ']' ∨ b = byteOf ')' ∨ b = byteOf '(' then .ok (none, c)
    else
      let (token, c) ← readOperatorToken [] c.offset c.rest
      if token.isEmpty then .ok (none, c)
      else
        let name := String.ofList token
        match Operator.ofName? name with
        | some op =>
          if op.isBinary ∧ !op.isFunction then .ok (some op, c)
          else c.fail (.operationName name)
        | none => c.fail (.operationName name)

def readName (c : Cursor) : Except Failure (Fragment × Cursor) :=
  let (name, c) := c.takeWhile isNameByte
  .ok (.child (Text.Utf8.decodeString name), c)

def readAfterPoint (c : Cursor) : Except Failure (Fragment × Cursor) :=
  match c.peek? with
  | none => c.fail .notTerminated
  | some b =>
    if b = byteOf '*' then .ok (.wildcard, c.skip 1)
    else if b = byteOf '.' then .ok (.descent, c.skip 1)
    else if isNameByte b then readName c
    else (c.skip 1).fail (.fragmentStart b)

def readSliceStep (start stop : Int64) (c : Cursor) : Except Failure (Fragment × Cursor) :=
  match c.peek? with
  | none => c.fail .notTerminated
  | some b =>
    if b = byteOf ']' then .ok (.slice ⟨start, stop, 1⟩, c.skip 1)
    else do
      let (step, ending, c) ← readInt c
      if ending = some (byteOf ']') then .ok (.slice ⟨start, stop, step⟩, c)
      else c.fail .sliceForm

/-- Reads a slice after its first colon. -/
def readSlice (start : Int64) (c : Cursor) : Except Failure (Fragment × Cursor) :=
  match c.peek? with
  | none => c.fail .notTerminated
  | some b =>
    if b = byteOf ']' then .ok (.slice ⟨start, Slice.openEnd, 1⟩, c.skip 1)
    else
      let c := c.skipSpaces
      match c.peek? with
      | none => c.fail .sliceForm
      | some b =>
        if b = byteOf ':' then readSliceStep start Slice.openEnd (c.skip 1)
        else do
          let (stop, ending, c) ← readInt c
          if ending = some (byteOf ':') then readSliceStep start stop c
          else if ending = some (byteOf ']') then .ok (.slice ⟨start, stop, 1⟩, c)
          else c.fail .sliceForm

def isQuote (b : UInt8) : Bool := b = byteOf '\'' || b = byteOf '"'

def beginsInt (b : UInt8) : Bool := b = byteOf '-' || isDigitByte b

/-- The byte that ends an integer, or, if that is a space, the next byte that is none. -/
def pastSpaces (ending : Option UInt8) (c : Cursor) : Option UInt8 × Cursor :=
  if ending = some 0x20 then c.nextSolid else (ending, c)

def readUnionKey (c : Cursor) : Except Failure (UnionKey × Option UInt8 × Cursor) := do
  let c := c.skipSpaces
  match c.peek? with
  | none => c.fail .unionForm
  | some b =>
    if isQuote b then
      let (name, c) ← readQuoted b (c.skip 1)
      .ok (.key name, c.nextSolid)
    else if beginsInt b then
      let (i, ending, c) ← readInt c
      .ok (.index i, pastSpaces ending c)
    else (c.skip 1).fail .unionForm

/-- Reads members of a union up to its closing bracket. The first argument bounds their
number. -/
def readUnionKeys : Nat → Cursor → Except Failure (List UnionKey × Cursor)
  | 0, c => c.fail .exhausted
  | fuel + 1, c => do
    let (key, ending, c) ← readUnionKey c
    if ending = some (byteOf ',') then
      let (keys, c) ← readUnionKeys fuel c
      .ok (key :: keys, c)
    else if ending = some (byteOf ']') then .ok ([key], c)
    else c.fail .unionForm

def readUnion (first : UnionKey) (c : Cursor) : Except Failure (Fragment × Cursor) :=
  if c.rest.isEmpty then c.fail .notTerminated
  else do
    let (keys, c) ← readUnionKeys (c.rest.length + 1) c
    .ok (.union (first :: keys), c)

def readWord (word : String) (v : Operand) (c : Cursor) : Except Failure (Equation × Cursor) :=
  let matched := (word.toList.zip c.rest).takeWhile fun p => byteOf p.1 = p.2
  let c := c.skip matched.length
  if matched.length = word.length then .ok (.value v, c) else c.fail (.noWord word)

/-- Reads the bracket fragments that hold no script, given their first byte and the place
before it. -/
def readPlainBracket (b : UInt8) (c : Cursor) : Except Failure (Fragment × Cursor) := do
  if b = byteOf '*' then
    let (ending, c) := (c.skip 1).nextSolid
    if ending = some (byteOf ']') then .ok (.wildcard, c) else c.fail .notTerminated
  else if isQuote b then
    let (name, c) ← readQuoted b (c.skip 1)
    let (ending, c) := c.nextSolid
    if ending = some (byteOf ']') then .ok (.child name, c)
    else if ending = some (byteOf ',') then readUnion (.key name) c
    else c.fail .bracketForm
  else if b = byteOf ':' then readSlice 0 (c.skip 1)
  else if b = byteOf '(' then (c.skip 1).fail .scriptFragment
  else if beginsInt b then
    let (i, ending, c) ← readInt c
    let (ending, c) := pastSpaces ending c
    if ending = some (byteOf ']') then .ok (.nth i, c)
    else if ending = some (byteOf ',') then readUnion (.index i) c
    else if ending = some (byteOf ':') then readSlice i c
    else c.fail .bracketForm
  else (c.skip 1).fail .unexpected

/-- Whether a script that begins with this byte may begin with a lone value, which then
asks for its presence. -/
def mayBeginAlone (b : UInt8) : Bool := !"!lcms".toList.contains (charOf b)

mutual

/-- Reads fragments. Only the first may be `$` or `@`; a name without a point comes first
or after `..`. -/
def readFragments : Nat → Bool → Bool → Cursor → Except Failure (Path × Cursor)
  | 0, _, _, c => c.fail .exhausted
  | fuel + 1, first, afterDescent, c =>
    match c.peek? with
    | none => .ok ([], c)
    | some b =>
      let continueWith (f : Fragment) (c : Cursor) : Except Failure (Path × Cursor) := do
        let descent := match f with
          | .descent => true
          | _ => false
        let (fs, c) ← readFragments fuel false descent c
        .ok (f :: fs, c)
      if b = byteOf '$' ∧ first then continueWith .root (c.skip 1)
      else if b = byteOf '@' ∧ first then continueWith .current (c.skip 1)
      else if b = byteOf '.' then do
        let (f, c) ← readAfterPoint (c.skip 1)
        continueWith f c
      else if b = byteOf '*' then continueWith .wildcard (c.skip 1)
      else if b = byteOf '[' then do
        let (f, c) ← readBracket fuel (c.skip 1)
        continueWith f c
      else if isNameByte b ∧ (first ∨ afterDescent) then do
        let (f, c) ← readName c
        continueWith f c
      else .ok ([], c)

/-- Reads a bracket fragment after its bracket. -/
def readBracket : Nat → Cursor → Except Failure (Fragment × Cursor)
  | 0, c => c.fail .exhausted
  | fuel + 1, c =>
    if c.rest.isEmpty then c.fail .notTerminated
    else
      let c := c.skipSpaces
      match c.peek? with
      | none => c.fail .unexpected
      | some b => if b = byteOf '?' then readFilter fuel (c.skip 1) else readPlainBracket b c

/-- Reads a filter after its question mark. -/
def readFilter : Nat → Cursor → Except Failure (Fragment × Cursor)
  | 0, c => c.fail .exhausted
  | fuel + 1, c =>
    match c.peek? with
    | none => c.fail .notTerminated
    | some b => do
      let c := if b = byteOf '(' then c.skip 1 else c
      let (e, c) ← readEquation fuel c
      if c.peek? = some (byteOf ']') then .ok (.filter e.compile, c.skip 1)
      else c.fail .notTerminated

/-- Reads a script up to a closing parenthesis, which is read, or a closing bracket, which
is not, or the end. A value that stands alone asks whether it is present. -/
def readEquation : Nat → Cursor → Except Failure (Equation × Cursor)
  | 0, c => c.fail .exhausted
  | fuel + 1, c =>
    let c := c.skipSpaces
    match c.peek? with
    | none => c.fail .notTerminated
    | some b => do
      let (left, c) ← readValue fuel c
      match mayBeginAlone b, left with
      | true, .value _ =>
        let (op, c) ← readOperation c
        match op with
        | some op =>
          let (right, c) ← readValue fuel c
          let (run, c) ← readRun fuel c
          .ok (foldOperations left ((op, right) :: run), c)
        | none =>
          let (run, c) ← readRun fuel c
          .ok (foldOperations left ((.present, .value (.bool true)) :: run), c)
      | _, _ =>
        let (run, c) ← readRun fuel c
        .ok (foldOperations left run, c)

/-- Reads operators, each with the operand after it, up to the end of a script. -/
def readRun : Nat → Cursor → Except Failure ((List (Operator × Equation)) × Cursor)
  | 0, c => c.fail .exhausted
  | fuel + 1, c =>
    let c := c.skipSpaces
    match c.peek? with
    | none => .ok ([], c)
    | some b =>
      if b = byteOf ')' then .ok ([], c.skip 1)
      else if b = byteOf ']' then .ok ([], c)
      else do
        let (op, c) ← readOperation c
        match op with
        | none => c.fail .noOperation
        | some op =>
          let (right, c) ← readValue fuel c
          let (run, c) ← readRun fuel c
          .ok ((op, right) :: run, c)

/-- Reads one operand: a literal, a path, a script in parentheses, a negation or a call of
a function. -/
def readValue : Nat → Cursor → Except Failure (Equation × Cursor)
  | 0, c => c.fail .exhausted
  | fuel + 1, c =>
    let c := c.skipSpaces
    match c.peek? with
    | none => c.fail .noValue
    | some b =>
      if beginsInt b then do
        let (v, c) ← readNumber c
        .ok (.value v, c)
      else if isQuote b then do
        let (s, c) ← readQuoted b (c.skip 1)
        .ok (.value (.str s), c)
      else
        match charOf b with
        | 'n' => readWord "null" .null c
        | 'N' => readWord "Nothing" .nothing c
        | 't' => readWord "true" (.bool true) c
        | 'f' => readWord "false" (.bool false) c
        | '@' | '$' => do
          let (p, c) ← readFragments fuel true false c
          .ok (.value (.path p), c)
        | '(' => readEquation fuel (c.skip 1)
        | '[' => do
          let c := (c.skip 1).skipSpaces
          if c.peek? = some (byteOf ']') then .ok (.value (.list []), c.skip 1)
          else
            let (items, c) ← readList fuel c
            .ok (.value (.list items), c)
        | '/' => do
          let (r, c) ← readPattern (c.skip 1)
          .ok (.value (.regex r), c)
        | '!' => do
          let (e, c) ← readValue fuel (c.skip 1)
          .ok (.unary .lnot e, c)
        | 'l' => readFunction fuel .length c
        | 'c' => readFunction fuel .count c
        | 'm' => readFunction fuel .wholeMatch c
        | 's' => readFunction fuel .search c
        | _ => c.fail .noValue

def readList : Nat → Cursor → Except Failure (List Operand × Cursor)
  | 0, c => c.fail .exhausted
  | fuel + 1, c => do
    let (e, c) ← readValue fuel c
    match e with
    | .value v =>
      match c.nextSolid with
      | (none, c) => c.fail .notTerminated
      | (some b, c) =>
        if b = byteOf ',' then
          let (vs, c) ← readList fuel c
          .ok (v :: vs, c)
        else if b = byteOf ']' then .ok ([v], c)
        else c.fail .noComma
    | _ => c.fail .noListValue

def readFunction : Nat → Operator → Cursor → Except Failure (Equation × Cursor)
  | 0, _, c => c.fail .exhausted
  | fuel + 1, op, c =>
    let opening := (op.name.toList ++ ['(']).map byteOf
    if opening.isPrefixOf c.rest then do
      let (left, c) ← readValue fuel (c.skip opening.length)
      let c := c.skipSpaces
      let (e, c) ←
        if c.peek? = some (byteOf ',') then do
          let (right, c) ← readValue fuel (c.skip 1)
          .ok (Equation.binary op left right, c.skipSpaces)
        else .ok (Equation.unary op left, c)
      if c.peek? = some (byteOf ')') then .ok (e, c.skip 1) else c.fail .notTerminated
    else c.fail (.noFunction op)

end

/-- A bound on the depth of calls that reading so many bytes takes. -/
def readingDepth (bytes : Nat) : Nat := 4 * bytes + 8

/-- Runs a reader on a whole input; nothing may be left over. -/
def readAll {α : Type} (bytes : List UInt8) (read : Nat → Cursor → Except Failure (α × Cursor))
    : Except ParseError α :=
  let outcome : Except Failure α := do
    let (a, c) ← read (readingDepth bytes.length) (.start bytes)
    if c.rest.isEmpty then .ok a else c.fail .unexpected
  outcome.mapError fun f => ⟨f.fault, f.offset + 1, Text.Utf8.decodeString bytes⟩

def Path.parseBytes (bytes : List UInt8) : Except ParseError Path :=
  readAll bytes fun depth c => readFragments depth true false c

def Path.parse (text : String) : Except ParseError Path :=
  Path.parseBytes (Text.Utf8.encode text.toList)

/-- Reads a script that stands alone. The parentheses around it may be missing. -/
def Script.parse (text : String) : Except ParseError Script :=
  readAll (Text.Utf8.encode text.toList) fun depth c => do
    let (e, c) ← readEquation depth c
    .ok (e.compile, c.skipSpaces)

end DocPath
