import DocPath.Builtin
import DocPath.Command.Basic

/-! The arguments of the command line: a command's name, its operands, and its options in
any order. Options have a long and mostly a short name; short ones can be run together. An
option is given at most once, an argument that begins with a hyphen is no operand unless
it follows `--`, and anything unknown or missing is a usage error. -/
namespace DocPath.CommandLine

def version : String := "0.1.0"

inductive Verb where
  | get
  | first
  | has
  | set
  | delete
  | remove
  | walk
  | format
  deriving DecidableEq, Repr

def Verb.ofName? (s : String) : Option Verb :=
  match s with
  | "get" => some .get
  | "first" => some .first
  | "has" => some .has
  | "set" => some .set
  | "del" => some .delete
  | "remove" => some .remove
  | "walk" => some .walk
  | "fmt" => some .format
  | _ => none

namespace Verb

def takesInput : Verb → Bool
  | .format => false
  | _ => true

def takesPretty : Verb → Bool
  | .get | .first | .set | .delete | .remove => true
  | _ => false

def takesOne : Verb → Bool
  | .set | .delete | .remove => true
  | _ => false

def takesLeaves : Verb → Bool
  | .walk => true
  | _ => false

end Verb

/-- The arguments given so far; operands stand in reverse. -/
structure Given where
  operands : List String
  input : Option String
  pretty : Bool
  one : Bool
  leaves : Bool
  help : Bool
  deriving DecidableEq, Repr

def Given.empty : Given := ⟨[], none, false, false, false, false⟩

namespace Given

def addInput (v : Verb) (g : Given) (text : String) : Option Given :=
  if v.takesInput ∧ g.input.isNone then some { g with input := some text } else none

def addPretty (v : Verb) (g : Given) : Option Given :=
  if v.takesPretty ∧ !g.pretty then some { g with pretty := true } else none

/-- A long option that takes no value. -/
def addFlag (v : Verb) (g : Given) (name : String) : Option Given :=
  match name with
  | "pretty" => g.addPretty v
  | "one" => if v.takesOne ∧ !g.one then some { g with one := true } else none
  | "leaves" => if v.takesLeaves ∧ !g.leaves then some { g with leaves := true } else none
  | "help" => some { g with help := true }
  | _ => none

def addOperand (g : Given) (text : String) : Given := { g with operands := text :: g.operands }

end Given

/-- An argument that can be the value of an option in front of it: a lone hyphen, or one
that does not begin with a hyphen. -/
def isPlain (arg : List Char) : Bool :=
  match arg with
  | ['-'] => true
  | '-' :: _ => false
  | _ => true

/-- The value attached to a short option, which may have an equals sign before it. -/
def attached (cs : List Char) : String :=
  match cs with
  | '=' :: more => String.ofList more
  | _ => String.ofList cs

/-- Short options run together. The one for the input takes the rest as its value; `true`
says that it is still without one. -/
def readShort (v : Verb) : Given → List Char → Option (Given × Bool)
  | g, [] => some (g, false)
  | g, 'p' :: cs => do
    let g ← g.addPretty v
    readShort v g cs
  | g, 'h' :: cs => readShort v { g with help := true } cs
  | g, 'i' :: cs =>
    if cs.isEmpty then if v.takesInput then some (g, true) else none
    else (g.addInput v (attached cs)).map (·, false)
  | _, _ => none

/-- A long option, up to whether the input is still without its value. -/
def readLong (v : Verb) (g : Given) (cs : List Char) : Option (Given × Bool) :=
  let name := String.ofList (cs.takeWhile (· ≠ '='))
  match cs.dropWhile (· ≠ '=') with
  | _ :: value =>
    if name = "input" then (g.addInput v (String.ofList value)).map (·, false) else none
  | [] =>
    if name = "input" then if v.takesInput then some (g, true) else none
    else (g.addFlag v name).map (·, false)

def readArguments (v : Verb) : Given → List String → Option Given
  | g, [] => some g
  | g, arg :: rest =>
    match arg.toList with
    | ['-', '-'] => some (rest.foldl Given.addOperand g)
    | '-' :: c :: cs => do
      let (g, pending) ← if c = '-' then readLong v g cs else readShort v g (c :: cs)
      if g.help then some g
      else if pending then
        match rest with
        | value :: rest =>
          if isPlain value.toList then
            let g ← g.addInput v value
            readArguments v g rest
          else none
        | [] => none
      else readArguments v g rest
    | _ => readArguments v (g.addOperand arg) rest

inductive Request where
  | version
  | help
  | run (command : Command) (input : Option String)
  deriving DecidableEq, Repr

/-- The command with its operands, if their number is right. -/
def Given.request? (v : Verb) (g : Given) : Option Request :=
  let style : Json.Style := if g.pretty then .pretty else .compact
  let run (c : Command) := some (Request.run c g.input)
  if g.help then some .help
  else
    match v, g.operands.reverse with
    | .get, [path] => run (.query .all path style)
    | .first, [path] => run (.query .first path style)
    | .has, [path] => run (.query .has path style)
    | .set, [path, value] => run (.change (.set value) path g.one style)
    | .delete, [path] => run (.change .delete path g.one style)
    | .remove, [path] => run (.change .remove path g.one style)
    | .walk, [] => run (.walk g.leaves)
    | .format, [path] => run (.format path)
    | _, _ => none

/-- Reads the arguments of the command line; none for a usage error. -/
def read? (args : List String) : Option Request :=
  match args with
  | [] => none
  | "--version" :: _ | "-V" :: _ => some .version
  | "--help" :: _ | "-h" :: _ | "help" :: _ => some .help
  | name :: rest => do
    let v ← Verb.ofName? name
    let g ← readArguments v .empty rest
    g.request? v

inductive Ending where
  | printed (text : String)
  | failed (e : CommandError)
  | usage
  deriving Repr

def helpText : String :=
  "jpath - query and update JSON documents with JSONPath expressions\n\n" ++
  "Usage: jpath <COMMAND>\n\n" ++
  "Commands: get, first, has, set, del, remove, walk, fmt\n"

/-- Runs the command line. Standard input is absent where it is a terminal; it counts only
when no input is given as an option. -/
def run (args : List String) (stdin : Option (List UInt8)) : Ending :=
  match read? args with
  | none => .usage
  | some .version => .printed ("jpath " ++ version ++ "\n")
  | some .help => .printed helpText
  | some (.run c input) =>
    let text : Except CommandError (Option String) :=
      if !c.needsInput ∨ input.isSome then .ok input
      else
        match stdin with
        | none => .ok none
        | some bytes =>
          if Text.Utf8.isValid bytes then .ok (some (Text.Utf8.decodeString bytes))
          else .error .invalidText
    match text with
    | .error e => .failed e
    | .ok text =>
      match c.run text with
      | .ok out => .printed (out ++ c.lineEnd)
      | .error e => .failed e

def readsStdin (args : List String) : Bool :=
  match read? args with
  | some (.run c none) => c.needsInput
  | _ => false

end DocPath.CommandLine
