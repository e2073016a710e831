import DocPath.Builtin
import DocPath.Proofs.Query.First

/-!
# Which document `$` stands for

A search takes the place where it begins for the document, also the search for a path of a
filter. So below an `@` path the top document is out of reach: a `$` in a filter there goes
back to the candidate of the outer filter. The reading with one top document for all filters
is written down here next to the search, and the two agree on the paths without such a `$`.
-/

namespace DocPath

mutual

/-- The selector of a fragment with `top` for the document, at any depth of filters. -/
def Fragment.scoped [Libraries] (top : Value) : Fragment → Selector
  | .filter template => .pick fun _ v =>
    v.children.filter fun c => (Cell.result (scopedCells top template false c)).isTrue
  | .root => .root
  | .current => .here
  | .bracket => .here
  | .descent => .descent
  | .child name => .pick fun _ v => (v.getKey? name).toList
  | .nth i => .pick fun _ v => (v.getIndex? i).toList
  | .wildcard => .pick fun _ v => v.children
  | .slice s => .pick fun _ v => s.select v
  | .union keys => .pick fun _ v => keys.filterMap (·.find? v)

def scopedSelectors [Libraries] (top : Value) : List Fragment → List Selector
  | [] => []
  | f :: fs => f.scoped top :: scopedSelectors top fs

/-- The places of a template for a candidate, with `top` for the document. -/
def scopedCells [Libraries] (top : Value) : List Slot → (all : Bool) → (elem : Value) → List Cell
  | [], _, _ => []
  | .operand o :: rest, all, elem =>
    .done (o.scoped top all elem) :: scopedCells top rest false elem
  | .op op :: rest, _, elem => .waiting op :: scopedCells top rest op.getsLeft elem

/-- A path in a filter begins at `top` or at the candidate, and `$` means `top` all along. -/
def Operand.scoped [Libraries] (top : Value) : Operand → (all : Bool) → (elem : Value) → Term
  | .path p, all, elem =>
    let found := Search.reached top (scopedSelectors top p) (Path.origin p elem top)
    if all then .found found else (found.head?.map Term.ofValue).getD .nothing
  | o, _, _ => .ofOperand o

end

/-- What a path selects when `$` means the given document wherever it stands. -/
def Path.scoped [Libraries] (p : Path) (doc : Value) : List Value :=
  Search.reached doc (scopedSelectors doc p) doc

/-- Whether a search for the path in a script begins at the document. -/
def Path.startsAtRoot : Path → Bool
  | .root :: _ => true
  | _ => false

mutual

/-- Whether every `$` of a fragment stands for the top document, in a search that begins there
or, without `atTop`, elsewhere. -/
def Fragment.inScope (atTop : Bool) : Fragment → Bool
  | .root => atTop
  | .filter template => slotsInScope atTop template
  | _ => true

def allInScope (atTop : Bool) : List Fragment → Bool
  | [] => true
  | f :: fs => f.inScope atTop && allInScope atTop fs

def slotsInScope (atTop : Bool) : List Slot → Bool
  | [] => true
  | .operand o :: rest => o.inScope atTop && slotsInScope atTop rest
  | .op _ :: rest => slotsInScope atTop rest

/-- Below an `@` path no `$` stands for the top document. -/
def Operand.inScope (atTop : Bool) : Operand → Bool
  | .path p => allInScope (atTop && Path.startsAtRoot p) p
  | _ => true

end

namespace Search

/-- Selectors that do the same, each with its own document. -/
inductive Agree (root root' : Value) : Selector → Selector → Prop where
  | root (same : root = root') : Agree root root' .root .root
  | here : Agree root root' .here .here
  | descent : Agree root root' .descent .descent
  | pick {choose choose' : Value → Value → List Value}
    (same : ∀ v, choose root v = choose' root' v) : Agree root root' (.pick choose) (.pick choose')

theorem reached_of_agree {root root' : Value} {sels sels' : List Selector}
    (h : List.Forall₂ (Agree root root') sels sels') (v : Value) :
    reached root sels v = reached root' sels' v := by
  induction h generalizing v with
  | nil => simp [reached]
  | @cons s s' rest rest' hs hrest ih =>
    cases hrest with
    | nil => cases hs <;> simp_all [reached]
    | @cons g g' more more' hg hmore =>
      cases hs with
      | root same =>
        subst same
        simpa [reached] using ih root
      | here => simpa [reached] using ih v
      | descent =>
        induction v using Value.childrenInduction with
        | step v ihv =>
          rw [reached_descent, reached_descent, ih v]
          congr 1
          exact List.flatMap_congr fun c hc => ihv c (List.mem_of_mem_filter hc)
      | pick same =>
        have onward : reached root (g :: more) = reached root' (g' :: more') := funext ih
        simp only [reached, same, onward]

end Search

theorem Path.origin_of_startsAtRoot {p : Path} (h : p.startsAtRoot) (elem root : Value) :
    p.origin elem root = root := by
  unfold startsAtRoot at h
  split at h
  · rfl
  · cases h

theorem Path.origin_of_not_startsAtRoot {p : Path} (h : p.startsAtRoot = false)
    (elem root : Value) : p.origin elem root = elem := by
  unfold Path.origin
  split
  · cases h
  · rfl

theorem Path.atTop_of_startsAtRoot {atTop : Bool} {p : Path} (hp : p.startsAtRoot)
    (h : allInScope atTop p) : atTop := by
  unfold startsAtRoot at hp
  split at hp
  · rw [allInScope, Fragment.inScope, Bool.and_eq_true] at h
    exact h.1
  · cases hp

mutual

/-- Where every `$` stands for the top document, a fragment does what it does with that
document for all its filters. -/
theorem Fragment.agree_scoped [Libraries] {atTop : Bool} {root top : Value} (f : Fragment)
    (hroot : atTop → root = top) (h : f.inScope atTop) :
    Search.Agree root top f.selector (f.scoped top) := by
  cases f with
  | root =>
    rw [Fragment.inScope] at h
    rw [Fragment.selector, Fragment.scoped]
    exact .root (hroot h)
  | filter template =>
    rw [Fragment.inScope] at h
    rw [Fragment.selector, Fragment.scoped]
    refine .pick fun v => List.filter_congr fun c _ => ?_
    rw [cells_eq_scopedCells template hroot h]
  | current | bracket =>
    rw [Fragment.selector, Fragment.scoped]
    exact .here
  | descent =>
    rw [Fragment.selector, Fragment.scoped]
    exact .descent
  | child name | nth i | wildcard | slice s | union keys =>
    rw [Fragment.selector, Fragment.scoped]
    exact .pick fun _ => rfl

theorem agree_scopedSelectors [Libraries] {atTop : Bool} {root top : Value} (p : List Fragment)
    (hroot : atTop → root = top) (h : allInScope atTop p) :
    List.Forall₂ (Search.Agree root top) (selectors p) (scopedSelectors top p) := by
  cases p with
  | nil =>
    rw [selectors, scopedSelectors]
    exact .nil
  | cons f p =>
    rw [allInScope, Bool.and_eq_true] at h
    rw [selectors, scopedSelectors]
    exact .cons (f.agree_scoped hroot h.1) (agree_scopedSelectors p hroot h.2)

theorem cells_eq_scopedCells [Libraries] {atTop : Bool} {root top : Value} (t : List Slot)
    (hroot : atTop → root = top) (h : slotsInScope atTop t) (all : Bool) (elem : Value) :
    cells t all elem root = scopedCells top t all elem := by
  match t with
  | [] => rw [cells, scopedCells]
  | .operand o :: t =>
    rw [slotsInScope, Bool.and_eq_true] at h
    rw [cells, scopedCells, o.resolve_eq_scoped hroot h.1, cells_eq_scopedCells t hroot h.2]
  | .op op :: t =>
    rw [slotsInScope] at h
    rw [cells, scopedCells, cells_eq_scopedCells t hroot h]

theorem Operand.resolve_eq_scoped [Libraries] {atTop : Bool} {root top : Value} (o : Operand)
    (hroot : atTop → root = top) (h : o.inScope atTop) (all : Bool) (elem : Value) :
    o.resolve all elem root = o.scoped top all elem := by
  cases o with
  | path p =>
    rw [Operand.inScope] at h
    have found : Search.get (selectors p) (Path.origin p elem root) =
        Search.reached top (scopedSelectors top p) (Path.origin p elem top) := by
      rw [Search.get_eq_reached]
      cases hp : Path.startsAtRoot p with
      | true =>
        rw [hp, Bool.and_true] at h
        rw [Path.origin_of_startsAtRoot hp, Path.origin_of_startsAtRoot hp]
        obtain rfl := hroot (Path.atTop_of_startsAtRoot hp h)
        exact Search.reached_of_agree (agree_scopedSelectors p hroot h) root
      | false =>
        -- the search begins at the candidate, and no `$` in it may go back there
        rw [hp, Bool.and_false] at h
        rw [Path.origin_of_not_startsAtRoot hp, Path.origin_of_not_startsAtRoot hp]
        have never : false = true → elem = top := nofun
        exact Search.reached_of_agree (agree_scopedSelectors p never h) elem
    cases all with
    | true => simp only [Operand.resolve, Operand.scoped, found, if_true]
    | false =>
      rw [Operand.resolve_path, Path.get, found]
      simp only [Operand.scoped, Bool.false_eq_true, if_false]
  | _ => simp only [Operand.resolve, Operand.scoped]

end

/-- A query resolves the paths of its filters as if `$` meant the document that was handed to it
at every depth, provided that no filter of an `@` path in a filter mentions `$`. -/
theorem Path.get_eq_scoped [Libraries] (p : Path) (h : allInScope true p) (doc : Value) :
    p.get doc = p.scoped doc := by
  rw [Path.get, Search.get_eq_reached]
  exact Search.reached_of_agree (agree_scopedSelectors p (fun _ => rfl) h) doc

/-- In `$.a[?(@ == $.b[?(@ == $.x)])]` both filters reach the document. -/
theorem Path.get_eq_scoped_of_root_paths :
    let inner : Script := [.op .equal, .operand (.path [.current]),
      .operand (.path [.root, .child "x"])]
    let p : Path := [.root, .child "a", .filter [.op .equal, .operand (.path [.current]),
      .operand (.path [.root, .child "b", .filter inner])]]
    let doc : Value := .object [("a", .array [.int 2, .int 1]), ("b", .array [.int 0, .int 1]),
      ("x", .int 1)]
    p.get doc = p.scoped doc ∧ p.scoped doc = [.int 1] := by
  intro inner p doc
  constructor
  · exact Path.get_eq_scoped p (by decide) doc
  · simp only [Path.scoped, scopedSelectors, Fragment.scoped, Search.reached, scopedCells,
      Operand.scoped, inner, p, doc]
    rfl

/-- In `$.a[?(@.b[?(@ == $.x)] exists true)]` the inner `$` stands for an element of `a` and not
for the document. -/
theorem Path.get_ne_scoped_of_nested_filters :
    let inner : Script := [.op .equal, .operand (.path [.current]),
      .operand (.path [.root, .child "x"])]
    let p : Path := [.root, .child "a", .filter [.op .present,
      .operand (.path [.current, .child "b", .filter inner]), .operand (.bool true)]]
    let elem : Value := .object [("b", .array [.int 1]), ("x", .int 2)]
    let doc : Value := .object [("a", .array [elem]), ("x", .int 1)]
    p.get doc = [] ∧ p.scoped doc = [elem] := by
  intro inner p elem doc
  constructor
  · simp only [Path.get, Search.get_eq_reached, selectors, Fragment.selector, Search.reached, cells,
      Operand.resolve, Search.first?_eq_head?_get, inner, p, elem, doc]
    rfl
  · simp only [Path.scoped, scopedSelectors, Fragment.scoped, Search.reached, scopedCells,
      Operand.scoped, inner, p, elem, doc]
    rfl

end DocPath
