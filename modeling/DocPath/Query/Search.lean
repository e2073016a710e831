import DocPath.Query.Agenda
import DocPath.Value.Basic

/-! Finding the nodes that a sequence of selectors selects.

Every fragment of a path acts on a value as a selector. The search keeps its work on an
explicit stack of levels, so its depth is not bounded by that of a call stack: a level
holds the selectors still to apply and the values that wait for them. The first waiting
value of the level on top is exchanged for the levels that it leads to; a level whose
values are used up is dropped. -/
namespace DocPath

/-- What a fragment does to the value it is applied to. -/
inductive Selector where
  /-- Goes back to the document. -/
  | root
  /-- Stays at the value. -/
  | here
  /-- The value and everything below it. -/
  | descent
  /-- Some of the value's children; the first argument is the document. -/
  | pick (choose : Value → Value → List Value)

namespace Search

/-- Values that wait for the first of some selectors. `expanded` says that the levels below
the values have been queued for a descent already. -/
structure Level where
  selectors : List Selector
  expanded : Bool
  waiting : List Value

/-- What the first of some selectors gives for a value: the values found, when it is the
last one, and else the levels to be worked through next. Only containers are followed. -/
def expand (root : Value) : List Selector → Bool → Value → List Value × List Level
  | [], _, _ => ([], [])
  | [.root], _, _ => ([root], [])
  | [.here], _, v => ([v], [])
  | [.descent], expanded, v => ([v], [⟨[.descent], expanded, v.children⟩])
  | [.pick choose], _, v => (choose root v, [])
  | .root :: rest, _, _ => ([], [⟨rest, false, [root]⟩])
  | .here :: rest, _, v => ([], [⟨rest, false, [v]⟩])
  | .descent :: rest, true, v => ([], [⟨rest, false, [v]⟩])
  | .descent :: rest, false, v =>
    ([], [⟨.descent :: rest, true, [v]⟩,
      ⟨.descent :: rest, false, v.children.filter Value.isContainer⟩])
  | .pick choose :: rest, _, v =>
    ([], [⟨rest, false, (choose root v).filter Value.isContainer⟩])

/-- Measure of a level: the selectors left, the height of what waits, whether it still has
to be expanded, and how many values wait. -/
def Level.key (l : Level) : Nat × Nat × Nat × Nat :=
  (l.selectors.length, Value.heightItems l.waiting, if l.expanded then 0 else 1,
    l.waiting.length)

def Level.Smaller (a b : Level) : Prop :=
  Prod.Lex (· < ·) (Prod.Lex (· < ·) (Prod.Lex (· < ·) (· < ·))) a.key b.key

theorem Level.smaller_wf : WellFounded Level.Smaller :=
  InvImage.wf Level.key
    (Prod.lex Nat.lt_wfRel (Prod.lex Nat.lt_wfRel (Prod.lex Nat.lt_wfRel Nat.lt_wfRel))).wf

theorem Level.smaller_of_length {a b : Level} (h : a.selectors.length < b.selectors.length) :
    a.Smaller b :=
  Prod.Lex.left _ _ h

theorem Level.smaller_of_height {a b : Level} (h : a.selectors = b.selectors)
    (hh : Value.heightItems a.waiting < Value.heightItems b.waiting) : a.Smaller b := by
  unfold Smaller key
  rw [h]
  exact Prod.Lex.right _ (Prod.Lex.left _ _ hh)

theorem Level.smaller_of_expanded {a b : Level} (h : a.selectors = b.selectors)
    (hh : Value.heightItems a.waiting ≤ Value.heightItems b.waiting)
    (ha : a.expanded = true) (hb : b.expanded = false) : a.Smaller b := by
  unfold Smaller key
  rw [h, ha, hb]
  rcases Nat.lt_or_eq_of_le hh with hlt | heq
  · exact Prod.Lex.right _ (Prod.Lex.left _ _ hlt)
  · rw [heq]
    exact Prod.Lex.right _ (Prod.Lex.right _ (Prod.Lex.left _ _ (by decide)))

theorem Level.smaller_of_waiting {a b : Level} (h : a.selectors = b.selectors)
    (he : a.expanded = b.expanded)
    (hh : Value.heightItems a.waiting ≤ Value.heightItems b.waiting)
    (hw : a.waiting.length < b.waiting.length) : a.Smaller b := by
  unfold Smaller key
  rw [h, he]
  rcases Nat.lt_or_eq_of_le hh with hlt | heq
  · exact Prod.Lex.right _ (Prod.Lex.left _ _ hlt)
  · rw [heq]
    exact Prod.Lex.right _ (Prod.Lex.right _ (Prod.Lex.right _ hw))

theorem heightItems_filter_le (p : Value → Bool) (vs : List Value) :
    Value.heightItems (vs.filter p) ≤ Value.heightItems vs := by
  induction vs with
  | nil => exact Nat.le_refl _
  | cons v vs ih =>
    rw [List.filter_cons, Value.heightItems]
    split
    · rw [Value.heightItems]; omega
    · omega

theorem heightItems_children_lt {v : Value} {vs : List Value} (hv : v ∈ vs)
    (h : v.children ≠ []) : Value.heightItems v.children < Value.heightItems vs :=
  Nat.lt_of_lt_of_le (Value.heightItems_children_lt h) (Value.height_le_heightItems hv)

/-- Children that wait for what their container waited for are a smaller level. -/
theorem Level.smaller_of_children {selectors : List Selector} {expanded : Bool} {v : Value}
    {vs : List Value} (p : Value → Bool) :
    Level.Smaller ⟨selectors, expanded, v.children.filter p⟩ ⟨selectors, expanded, v :: vs⟩ := by
  by_cases h : v.children.filter p = []
  · rw [h]
    exact smaller_of_waiting rfl rfl (Nat.zero_le _) (Nat.succ_pos _)
  · refine smaller_of_height rfl (Nat.lt_of_le_of_lt (heightItems_filter_le p _) ?_)
    exact heightItems_children_lt List.mem_cons_self fun he => h (by rw [he]; rfl)

/-- The levels queued for a value are smaller than the level it waited in. -/
theorem expand_smaller (root : Value) (selectors : List Selector) (expanded : Bool)
    (v : Value) (vs : List Value) :
    ∀ q ∈ (expand root selectors expanded v).2, q.Smaller ⟨selectors, expanded, v :: vs⟩ := by
  have here : Value.heightItems [v] ≤ Value.heightItems (v :: vs) := by
    simp only [Value.heightItems]; omega
  have all : v.children.filter (fun _ => true) = v.children := by simp
  intro q hq
  unfold expand at hq
  split at hq
  all_goals simp only [List.not_mem_nil, List.mem_cons, or_false] at hq
  · subst hq
    have := @Level.smaller_of_children [.descent] expanded v vs fun _ => true
    rwa [all] at this
  · subst hq
    exact Level.smaller_of_length (Nat.lt_succ_self _)
  · subst hq
    exact Level.smaller_of_length (Nat.lt_succ_self _)
  · subst hq
    exact Level.smaller_of_length (Nat.lt_succ_self _)
  · rcases hq with hq | hq
    · subst hq
      exact Level.smaller_of_expanded rfl here rfl rfl
    · subst hq
      exact Level.smaller_of_children _
  · subst hq
    exact Level.smaller_of_length (Nat.lt_succ_self _)

def offer {σ : Type} (visit : σ → Value → ForInStep σ) (s : σ) : List Value → ForInStep σ
  | [] => .yield s
  | v :: vs =>
    match visit s v with
    | .done s => .done s
    | .yield s => offer visit s vs

instance : WellFoundedRelation (List Level) :=
  ⟨Agenda.Shrinks Level.Smaller, Agenda.shrinks_wf Level.smaller_wf⟩

/-- Works through the levels from the top, handing every value found to the visitor. -/
def run {σ : Type} (root : Value) (visit : σ → Value → ForInStep σ) : List Level → σ → σ
  | [], s => s
  | ⟨_, _, []⟩ :: levels, s => run root visit levels s
  | ⟨selectors, expanded, v :: vs⟩ :: levels, s =>
    match offer visit s (expand root selectors expanded v).1 with
    | .done s => s
    | .yield s =>
      run root visit
        ((expand root selectors expanded v).2 ++ ⟨selectors, expanded, vs⟩ :: levels) s
termination_by levels => levels
decreasing_by
  · exact Agenda.Shrinks.drop
  · rw [List.append_cons]
    refine Agenda.Shrinks.top fun q hq => ?_
    rcases List.mem_append.mp hq with hq | hq
    · exact expand_smaller root selectors expanded v vs q hq
    · obtain rfl := List.mem_singleton.mp hq
      exact Level.smaller_of_waiting rfl rfl (by simp only [Value.heightItems]; omega)
        (Nat.lt_succ_self _)

/-- The search for what selectors select in a document. No selectors select nothing. -/
def traverse {σ : Type} (selectors : List Selector) (doc : Value)
    (visit : σ → Value → ForInStep σ) (s : σ) : σ :=
  if selectors.isEmpty then s else run doc visit [⟨selectors, false, [doc]⟩] s

/-- Every value selected, parents before children and in the order of each container. -/
def get (selectors : List Selector) (doc : Value) : List Value :=
  (traverse selectors doc (fun found v => .yield (v :: found)) []).reverse

/-- The first value selected; the search stops there. -/
def first? (selectors : List Selector) (doc : Value) : Option Value :=
  traverse selectors doc (fun _ v => .done (some v)) none

def has (selectors : List Selector) (doc : Value) : Bool :=
  traverse selectors doc (fun _ _ => .done true) false

end Search

end DocPath
