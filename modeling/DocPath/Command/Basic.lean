import DocPath.Json.Printer
import DocPath.Json.Reader
import DocPath.Path.Parser
import DocPath.Update.Run
import DocPath.Walk

/-! The commands of the command line as functions from their arguments to the text they
print. A command reads its path before the document and the document before the value to
write, and reports the first fault. -/
namespace DocPath

variable [Libraries]

inductive CommandError where
  | parse (e : ParseError)
  | update (e : UpdateError)
  | invalidJson
  | invalidText
  | noInput
  | noMatch (path : String)
  deriving Repr

def CommandError.message : CommandError → String
  | .parse e => "Parse error: " ++ e.message
  | .update e => "Mutation error: " ++ e.message
  | .invalidJson => "Invalid JSON"
  | .invalidText => "IO error: stream did not contain valid UTF-8"
  | .noInput => "No input provided. Use --input or pipe JSON to stdin."
  | .noMatch path => "no match for " ++ path

inductive QueryMode where
  /-- Every match, as an array. -/
  | all
  | first
  /-- Whether there is a match. -/
  | has
  deriving DecidableEq, Repr

inductive Change where
  /-- Writes the value of a JSON text. -/
  | set (text : String)
  | delete
  | remove
  deriving DecidableEq, Repr

inductive Command where
  | query (mode : QueryMode) (path : String) (style : Json.Style)
  | change (what : Change) (path : String) (one : Bool) (style : Json.Style)
  | walk (leaves : Bool)
  /-- Prints the normal form of a path. -/
  | format (path : String)
  deriving DecidableEq, Repr

def readPath (text : String) : Except CommandError Path := (Path.parse text).mapError .parse

def readJson (text : String) : Except CommandError Value :=
  match Json.read? text with
  | some v => .ok v
  | none => .error .invalidJson

def readDocument : Option String → Except CommandError Value
  | some text => readJson text
  | none => .error .noInput

def Change.action : Change → Except CommandError Action
  | .set text => (readJson text).map .set
  | .delete => .ok .delete
  | .remove => .ok .remove

namespace Command

/-- The text of a walk: path, tab and value of a node on every line. -/
def walkText (nodes : List (Path × Value)) : String :=
  nodes.foldl (fun text n => text ++ Path.text n.1 ++ "\t" ++ n.2.compact ++ "\n") ""

def run (c : Command) (input : Option String) : Except CommandError String :=
  match c with
  | .query mode path style => do
    let p ← readPath path
    let doc ← readDocument input
    match mode with
    | .all => .ok (Json.render style (.array (p.get doc)))
    | .first =>
      match p.first? doc with
      | some v => .ok (Json.render style v)
      | none => .error (.noMatch (Path.text p))
    | .has => .ok (if p.has doc then "true" else "false")
  | .change what path one style => do
    let p ← readPath path
    let doc ← readDocument input
    let action ← what.action
    let outcome := p.update action one doc
    match outcome.error with
    | some e => .error (.update e)
    | none => .ok (Json.render style outcome.doc)
  | .walk leaves => do
    let doc ← readDocument input
    .ok (walkText (if leaves then doc.leaves else doc.walk))
  | .format path => do
    let p ← readPath path
    .ok (Path.text p)

def needsInput : Command → Bool
  | .format _ => false
  | _ => true

/-- What ends the output of a command. A walk ends its lines itself. -/
def lineEnd : Command → String
  | .walk _ => ""
  | _ => "\n"

end Command
end DocPath
