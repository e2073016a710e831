import DocPath.Path.Render
import DocPath.Query.Agenda
import DocPath.Value.Basic

/-! Every node of a document with the path that leads to it, parents before their children
and children in order.

The nodes still to visit wait on an explicit stack, so the depth of a walk is not bounded by
that of a call stack. All of them share one path: when a node is taken, the path is cut back
to that of its parent and gets the step to the node as its last fragment. -/
namespace DocPath

def Step.fragment : Step → Fragment
  | .key name => .child name
  | .index i => .nth (Int64.ofNat (min i (Nat.pow 2 63 - 1)))

namespace Walk

/-- A node that waits: the length of its parent's path, the step to it from there, which the
root does not have, and its value. -/
structure Entry where
  depth : Nat
  step : Option Step
  value : Value

/-- The path of an entry, made of the path that is shared. -/
def Entry.path (shared : Path) (e : Entry) : Path :=
  shared.take e.depth ++ (e.step.map Step.fragment).toList

/-- The entries for the children of a value that has a path of the given length. -/
def entries (depth : Nat) (v : Value) : List Entry :=
  v.entries.map fun c => ⟨depth, some c.1, c.2⟩

theorem entries_lower {depth : Nat} {v : Value} :
    ∀ e ∈ entries depth v, e.value.height < v.height := by
  intro e he
  obtain ⟨c, hc, rfl⟩ := List.mem_map.mp he
  have hchild : c.2 ∈ v.children := Value.entries_map_snd v ▸ List.mem_map_of_mem hc
  exact Nat.lt_of_le_of_lt (Value.height_le_heightItems hchild)
    (Value.heightItems_children_lt (List.ne_nil_of_mem hchild))

instance : WellFoundedRelation (List Entry) :=
  ⟨Agenda.Shrinks (InvImage (· < ·) fun e => e.value.height),
    Agenda.shrinks_wf (InvImage.wf _ Nat.lt_wfRel.wf)⟩

/-- Takes the nodes from the stack and shows each to the visitor, or only those that are no
containers. -/
def run {σ : Type} (visit : σ → Path → Value → σ) (justLeaves : Bool) :
    Path → List Entry → σ → σ
  | _, [], s => s
  | shared, e :: stack, s =>
    let path := e.path shared
    let s := if !e.value.isContainer || !justLeaves then visit s path e.value else s
    run visit justLeaves path (entries path.length e.value ++ stack) s
termination_by _ stack => stack
decreasing_by exact Agenda.Shrinks.top entries_lower

def all {σ : Type} (visit : σ → Path → Value → σ) (justLeaves : Bool) (doc : Value) (s : σ) : σ :=
  run visit justLeaves [.root] [⟨1, none, doc⟩] s

def shown (justLeaves : Bool) (doc : Value) : List (Path × Value) :=
  (all (fun seen path v => (path, v) :: seen) justLeaves doc []).reverse

end Walk

def Value.walk (v : Value) : List (Path × Value) := Walk.shown false v

def Value.leaves (v : Value) : List (Path × Value) := Walk.shown true v

end DocPath
