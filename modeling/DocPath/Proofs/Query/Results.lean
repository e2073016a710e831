import DocPath.Query.Evaluate
import DocPath.Proofs.Value.Tree

/-!
# What a path selects, by recursion

The search of `Search.run` keeps its work on a stack of levels. Here the values that a path
selects are written down by recursion on the path and, for a descent, on the value. The
stack is read as the list of what its levels still have to give, and a round of the search
moves values from the front of that list to the visitor.
-/

namespace DocPath

/-- What a fragment selects at a value, as the last fragment of a path. -/
def Fragment.found [Libraries] (root v : Value) : Fragment → List Value
  | .root => [root]
  | .current | .bracket => [v]
  | .child name => (v.getKey? name).toList
  | .nth i => (v.getIndex? i).toList
  | .wildcard => v.children
  | .descent => v.subtree
  | .slice s =>
    match v with
    | .array items | .slots _ items => (s.indices items.length).filterMap (items[·]?)
    | _ => []
  | .union keys => keys.filterMap fun
    | .key name => v.getKey? name
    | .index i => v.getIndex? i
  | .filter template => Script.select template v root

/-- The fragments that choose among the children of a value. -/
def Fragment.picks : Fragment → Bool
  | .root | .current | .bracket | .descent => false
  | _ => true

@[elab_as_elim]
theorem Fragment.pickCases {motive : Fragment → Prop} (root : motive .root)
    (current : motive .current) (bracket : motive .bracket) (descent : motive .descent)
    (pick : ∀ f, f.picks → motive f) (f : Fragment) : motive f := by
  cases f with
  | root => exact root
  | current => exact current
  | bracket => exact bracket
  | descent => exact descent
  | _ => exact pick _ rfl

/-- Proves a property of every path from its end, by what the first fragment does when others
follow it. -/
@[elab_as_elim]
theorem Path.fragmentInduction {motive : Path → Prop} (nil : motive [])
    (last : ∀ f, motive [f])
    (root : ∀ g rest, motive (g :: rest) → motive (.root :: g :: rest))
    (current : ∀ g rest, motive (g :: rest) → motive (.current :: g :: rest))
    (bracket : ∀ g rest, motive (g :: rest) → motive (.bracket :: g :: rest))
    (descent : ∀ g rest, motive (g :: rest) → motive (.descent :: g :: rest))
    (pick : ∀ f g rest, f.picks → motive (g :: rest) → motive (f :: g :: rest))
    (p : Path) : motive p := by
  induction p with
  | nil => exact nil
  | cons f rest ih =>
    cases rest with
    | nil => exact last f
    | cons g rest =>
      cases f using Fragment.pickCases with
      | root => exact root g rest ih
      | current => exact current g rest ih
      | bracket => exact bracket g rest ih
      | descent => exact descent g rest ih
      | pick f hf => exact pick f g rest hf ih

namespace Path

variable [Libraries]

/-- What a path selects from a value. A fragment before the last one is followed into the
containers that it selects; a descent takes the value itself first and then goes on in the
containers among its children. -/
def results (root : Value) : Path → Value → List Value
  | [], _ => []
  | [f], v => f.found root v
  | .root :: rest, _ => results root rest root
  | .current :: rest, v => results root rest v
  | .bracket :: rest, v => results root rest v
  | .descent :: rest, v =>
    results root rest v ++
      (v.children.filter Value.isContainer).attach.flatMap fun c =>
        results root (.descent :: rest) c.1
  | f :: rest, v =>
    ((f.found root v).filter Value.isContainer).flatMap fun c => results root rest c
termination_by p v => (p.length, v.height)
decreasing_by
  all_goals first
    | exact Prod.Lex.left _ _ (Nat.lt_succ_self _)
    | exact Prod.Lex.right _ (Value.height_lt_of_mem_children (List.mem_of_mem_filter c.2))

section equations

variable (root : Value) (g : Fragment) (rest : Path) (v : Value)

theorem results_root : results root (.root :: g :: rest) v = results root (g :: rest) root := by
  rw [results]
  simp

theorem results_current : results root (.current :: g :: rest) v = results root (g :: rest) v := by
  rw [results]
  simp

theorem results_bracket : results root (.bracket :: g :: rest) v = results root (g :: rest) v := by
  rw [results]
  simp

theorem results_descent :
    results root (.descent :: g :: rest) v =
      results root (g :: rest) v ++
        (v.children.filter Value.isContainer).flatMap (results root (.descent :: g :: rest)) := by
  rw [results]
  · simp
  · simp

end equations

theorem results_picks {f : Fragment} (hf : f.picks) (root : Value) (g : Fragment) (rest : Path)
    (v : Value) :
    results root (f :: g :: rest) v =
      ((f.found root v).filter Value.isContainer).flatMap (results root (g :: rest)) := by
  cases f with
  | root | current | bracket | descent => cases hf
  | _ => rw [results] <;> simp

end Path

namespace Search

/-- What selectors lead to from a value, by the same recursion. -/
def reached (root : Value) : List Selector → Value → List Value
  | [], _ => []
  | [.root], _ => [root]
  | [.here], v => [v]
  | [.descent], v => v.subtree
  | [.pick choose], v => choose root v
  | .root :: rest, _ => reached root rest root
  | .here :: rest, v => reached root rest v
  | .descent :: rest, v =>
    reached root rest v ++
      (v.children.filter Value.isContainer).attach.flatMap fun c =>
        reached root (.descent :: rest) c.1
  | .pick choose :: rest, v =>
    ((choose root v).filter Value.isContainer).flatMap fun c => reached root rest c
termination_by sels v => (sels.length, v.height)
decreasing_by
  all_goals first
    | exact Prod.Lex.left _ _ (Nat.lt_succ_self _)
    | exact Prod.Lex.right _ (Value.height_lt_of_mem_children (List.mem_of_mem_filter c.2))

theorem reached_descent (root : Value) (g : Selector) (rest : List Selector) (v : Value) :
    reached root (.descent :: g :: rest) v =
      reached root (g :: rest) v ++
        (v.children.filter Value.isContainer).flatMap (reached root (.descent :: g :: rest)) := by
  rw [reached]
  · simp
  · simp

/-- What a level still has to give for one of its values. Once a descent has queued the
containers below, only the value itself is left to it. -/
def Level.due (root : Value) : List Selector → Bool → Value → List Value
  | .descent :: g :: rest, true, v => reached root (g :: rest) v
  | sels, _, v => reached root sels v

theorem Level.due_fresh (root : Value) (sels : List Selector) :
    Level.due root sels false = reached root sels := by
  funext v
  unfold Level.due
  split
  · simp_all
  · rfl

def Level.pending (root : Value) (l : Level) : List Value :=
  l.waiting.flatMap (Level.due root l.selectors l.expanded)

theorem Level.pending_fresh (root : Value) (sels : List Selector) (vs : List Value) :
    Level.pending root ⟨sels, false, vs⟩ = vs.flatMap (reached root sels) := by
  simp [Level.pending, Level.due_fresh]

theorem Level.pending_cons (root : Value) (sels : List Selector) (expanded : Bool) (v : Value)
    (vs : List Value) :
    Level.pending root ⟨sels, expanded, v :: vs⟩ =
      Level.due root sels expanded v ++ Level.pending root ⟨sels, expanded, vs⟩ :=
  rfl

/-- One round loses and reorders nothing: the values found and what the queued levels have
to give are what was due for the value taken. -/
theorem expand_due (root : Value) (sels : List Selector) (expanded : Bool) (v : Value) :
    (expand root sels expanded v).1 ++
        (expand root sels expanded v).2.flatMap (Level.pending root) =
      Level.due root sels expanded v := by
  match sels, expanded with
  | [], expanded => cases expanded <;> simp [expand, Level.due, reached]
  | [.root], expanded => cases expanded <;> simp [expand, Level.due, reached]
  | [.here], expanded => cases expanded <;> simp [expand, Level.due, reached]
  | [.descent], expanded =>
    have rest : Level.due root [.descent] expanded = Value.subtree := by
      funext w
      cases expanded <;> simp [Level.due, reached]
    simp [expand, Level.pending, rest, Value.subtree_eq v]
  | [.pick choose], expanded => cases expanded <;> simp [expand, Level.due, reached]
  | .root :: g :: rest, expanded =>
    cases expanded <;> simp [expand, Level.pending_fresh, Level.due, reached]
  | .here :: g :: rest, expanded =>
    cases expanded <;> simp [expand, Level.pending_fresh, Level.due, reached]
  | .descent :: g :: rest, true =>
    simp [expand, Level.pending_fresh, Level.due]
  | .descent :: g :: rest, false =>
    -- the value itself comes before the containers below it
    have self : Level.pending root ⟨.descent :: g :: rest, true, [v]⟩ =
        reached root (g :: rest) v := by
      simp [Level.pending, Level.due]
    simp [expand, self, Level.pending_fresh, Level.due_fresh, reached_descent]
  | .pick choose :: g :: rest, expanded =>
    cases expanded <;> simp [expand, Level.pending_fresh, Level.due, reached]

section visiting

variable {σ : Type} {visit : σ → Value → ForInStep σ}

theorem offer_append (s : σ) (vs ws : List Value) :
    offer visit s (vs ++ ws) =
      match offer visit s vs with
      | .done s => .done s
      | .yield s => offer visit s ws := by
  induction vs generalizing s with
  | nil => rfl
  | cons v vs ih =>
    simp only [List.cons_append, offer]
    cases visit s v with
    | done s => rfl
    | yield s => exact ih s

/-- The search hands the visitor what its levels have to give, in order, until the visitor
stops it. -/
theorem run_eq_offer (root : Value) (levels : List Level) (s : σ) :
    run root visit levels s =
      (offer visit s (levels.flatMap (Level.pending root))).value := by
  fun_induction run root visit levels s with
  | case1 s => rfl
  | case2 s sels expanded levels ih =>
    rw [ih]
    rfl
  | case3 s sels expanded v vs levels stopped hstop =>
    rw [List.flatMap_cons, Level.pending_cons, ← expand_due, List.append_assoc,
      List.append_assoc, offer_append, hstop]
    rfl
  | case4 s sels expanded v vs levels t hgo ih =>
    rw [ih, List.flatMap_cons, Level.pending_cons, ← expand_due, List.append_assoc,
      List.append_assoc, offer_append, hgo]
    simp

theorem traverse_eq_offer (sels : List Selector) (doc : Value) (s : σ) :
    traverse sels doc visit s = (offer visit s (reached doc sels doc)).value := by
  unfold traverse
  split
  · simp_all [reached, offer]
  · rw [run_eq_offer]
    simp [Level.pending_fresh]

end visiting

theorem offer_collect (found vs : List Value) :
    offer (fun found v => ForInStep.yield (v :: found)) found vs =
      .yield (vs.reverse ++ found) := by
  induction vs generalizing found with
  | nil => rfl
  | cons v vs ih => simp [offer, ih]

theorem get_eq_reached (sels : List Selector) (doc : Value) :
    get sels doc = reached doc sels doc := by
  simp [get, traverse_eq_offer, offer_collect]

end Search

namespace Path

variable [Libraries]

theorem selector_of_picks {f : Fragment} (h : f.picks) :
    f.selector = .pick fun root v => f.found root v := by
  cases f with
  | root | current | bracket | descent => cases h
  | child name | nth i | wildcard | filter template => rfl
  | union keys => rfl
  | slice s =>
    simp only [Fragment.selector, Selector.pick.injEq]
    funext root v
    cases v <;> simp [Slice.select, Fragment.found, Value.isOrdered, Value.containerLen?,
      Value.step?]

theorem reached_singleton (root : Value) (f : Fragment) (v : Value) :
    Search.reached root [f.selector] v = f.found root v := by
  cases f using Fragment.pickCases with
  | pick f hf => rw [selector_of_picks hf, Search.reached]
  | _ => simp [Fragment.selector, Search.reached, Fragment.found]

theorem reached_selectors (root : Value) (p : Path) (v : Value) :
    Search.reached root (selectors p) v = results root p v := by
  induction p using Path.fragmentInduction generalizing v with
  | nil => simp [selectors, Search.reached, results]
  | last f =>
    rw [results]
    exact reached_singleton root f v
  | root g rest ih =>
    rw [results_root, ← ih]
    simp [selectors, Fragment.selector, Search.reached]
  | current g rest ih =>
    rw [results_current, ← ih]
    simp [selectors, Fragment.selector, Search.reached]
  | bracket g rest ih =>
    rw [results_bracket, ← ih]
    simp [selectors, Fragment.selector, Search.reached]
  | descent g rest ih =>
    induction v using Value.childrenInduction with
    | step v ihv =>
      rw [results_descent, ← ih]
      simp only [selectors, Fragment.selector] at ihv ⊢
      rw [Search.reached_descent]
      congr 1
      exact List.flatMap_congr fun c hc => ihv c (List.mem_of_mem_filter hc)
  | pick f g rest hf ih =>
    have onward : results root (g :: rest) = Search.reached root (selectors (g :: rest)) :=
      funext fun c => (ih c).symm
    rw [results_picks hf, onward]
    simp [selectors, selector_of_picks hf, Search.reached]

/-- The search ends, and what it finds is what the recursion selects, in the same order
and as often. -/
theorem get_eq_results (p : Path) (doc : Value) : p.get doc = results doc p doc := by
  rw [Path.get, Search.get_eq_reached, reached_selectors]

end Path
end DocPath
