import DocPath.Path.Render
import DocPath.Value.Write

/-! What can be done to the nodes that a path selects, and how that can fail. -/
namespace DocPath

inductive Action where
  /-- Writes a value; missing containers on the way are created. -/
  | set (value : Value)
  /-- Deletes; a position outside a sequence is an error. -/
  | delete
  /-- Deletes what is there and skips what is not. -/
  | remove
  /-- Exchanges each value for what a rewriting gives for it; where it gives none the value
  stays. The rewriting also knows the values it was handed before, in order. -/
  | modify (rewrite : List Value → Value → Option Value)

namespace Action

def name : Action → String
  | .set _ => "set"
  | .delete => "delete"
  | .remove => "remove"
  | .modify _ => "modify"

def isSet : Action → Bool
  | .set _ => true
  | _ => false

def allows (a : Action) (last : Fragment) : Bool :=
  match a, last with
  | .set _, .child _ | .set _, .nth _ | .set _, .wildcard | .set _, .union _ => true
  | .set _, _ => false
  | .delete, .child _ | .delete, .nth _ | .delete, .slice _ | .delete, .union _
  | .delete, .wildcard => true
  | .delete, _ => false
  | .remove, .child _ | .remove, .nth _ | .remove, .slice _ | .remove, .union _
  | .remove, .wildcard | .remove, .filter _ => true
  | .remove, _ => false
  | .modify _, .descent => false
  | .modify _, _ => true

/-- Whether a position outside a sequence is an error; otherwise it is skipped. -/
def isStrict : Action → Bool
  | .set _ | .delete => true
  | _ => false

end Action

/-- Why an action could not be carried out. Paths lead up to the fragment at fault. -/
inductive UpdateError where
  | emptyPath (action : String)
  | illegalEnd (action : String) (fragment : String)
  | blocked (kind : String) (path : String)
  | unknownShape (path : String)
  | negativeLength (path : String)
  | outOfBounds (path : String)
  | refused (action : String) (path : String) (cause : AssignError)
  deriving DecidableEq, Repr

def UpdateError.message : UpdateError → String
  | .emptyPath action => "can not " ++ action ++ " with an empty expression"
  | .illegalEnd action fragment =>
    "can not " ++ action ++ " with an expression ending with a " ++ fragment
  | .blocked kind path => "can not follow a " ++ kind ++ " at '" ++ path ++ "'"
  | .unknownShape path => "can not deduce what element to add at '" ++ path ++ "'"
  | .negativeLength path =>
    "can not deduce the length of the array to add at '" ++ path ++ "'"
  | .outOfBounds path => "can not follow out of bounds array index at '" ++ path ++ "'"
  | .refused action path cause =>
    "can not " ++ action ++ " at '" ++ path ++ "': " ++ cause.message

end DocPath
