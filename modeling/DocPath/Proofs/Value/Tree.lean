import DocPath.Value.Basic
import Mathlib.Data.List.Basic

/-!
# Documents as trees

Every value is a node whose children are strictly lower, so that properties of documents
can be proved from the children up, whichever kind of container holds them.
-/

namespace DocPath.Value

theorem height_lt_of_mem_children {v c : Value} (h : c ∈ v.children) : c.height < v.height :=
  Nat.lt_of_le_of_lt (height_le_heightItems h)
    (heightItems_children_lt (List.ne_nil_of_mem h))

/-- Proves a property of every value from the same property of its children. -/
theorem childrenInduction {P : Value → Prop} (step : ∀ v, (∀ c ∈ v.children, P c) → P v)
    (v : Value) : P v :=
  step v fun c _ => childrenInduction step c
termination_by v.height
decreasing_by exact height_lt_of_mem_children ‹_›

theorem mem_children_of_mem_entries {v : Value} {e : Step × Value} (h : e ∈ v.entries) :
    e.2 ∈ v.children := by
  rw [← entries_map_snd]
  exact List.mem_map_of_mem h

/-- Every node of a value, parents before their children and children in order. -/
def subtree (v : Value) : List Value :=
  v :: v.children.attach.flatMap fun c => c.1.subtree
termination_by v.height
decreasing_by exact height_lt_of_mem_children c.2

theorem subtree_eq (v : Value) : v.subtree = v :: v.children.flatMap subtree := by
  rw [subtree]
  simp

end DocPath.Value
