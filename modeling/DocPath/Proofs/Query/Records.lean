import DocPath.Builtin
import DocPath.Proofs.Query.First
import DocPath.Proofs.Query.Sweep
import DocPath.Proofs.Value.Records

/-!
# Queries of records

A search in a record and the same search in the plain document go side by side. Every fragment
takes nodes that stand for each other to such nodes, and every operator gives one result for
operands that stand for each other, so that a filter keeps the same candidates. Names with
capitals, in the document or in the path, are left out: a record may find a field for them where
an object has no member.
-/

namespace DocPath

def UnionKey.isLowerCased : UnionKey → Bool
  | .key name => DocPath.isLowerCased name
  | .index _ => true

mutual

/-- Whether no name in a fragment has capitals, those in filters at any depth included. -/
def Fragment.isLowerCased : Fragment → Bool
  | .child name => DocPath.isLowerCased name
  | .union keys => keys.all UnionKey.isLowerCased
  | .filter template => slotsLowerCased template
  | _ => true

def fragmentsLowerCased : List Fragment → Bool
  | [] => true
  | f :: fs => f.isLowerCased && fragmentsLowerCased fs

def slotsLowerCased : List Slot → Bool
  | [] => true
  | .operand o :: rest => o.isLowerCased && slotsLowerCased rest
  | .op _ :: rest => slotsLowerCased rest

/-- Paths in lists are not followed, so their names do not count. -/
def Operand.isLowerCased : Operand → Bool
  | .path p => fragmentsLowerCased p
  | _ => true

end

variable {r d : Value} {rs ds : List Value}

namespace Term

def holdsNodes : Term → Bool
  | .container _ | .found _ => true
  | _ => false

/-- Terms that differ only in the nodes they refer to, which stand for each other. -/
inductive Mirrors : Term → Term → Prop where
  | same {t : Term} (h : t.holdsNodes = false) : Mirrors t t
  | container {r d : Value} (h : r.Mirrors d) : Mirrors (.container r) (.container d)
  | found {rs ds : List Value} (h : List.Forall₂ Value.Mirrors rs ds) :
    Mirrors (.found rs) (.found ds)

variable {a a' b b' : Term}

theorem holdsNodes_ofOperand (o : Operand) : (ofOperand o).holdsNodes = false := by
  cases o <;> rfl

theorem ofValue_mirrors (h : r.Mirrors d) : (ofValue r).Mirrors (ofValue d) := by
  cases h.reads with
  | scalar hkind => cases r <;> first | exact .same rfl | cases hkind
  | array | record => exact .container h

theorem first_mirrors {x y : Option Value} (h : Option.Rel Value.Mirrors x y) :
    ((x.map ofValue).getD .nothing).Mirrors ((y.map ofValue).getD .nothing) := by
  cases h with
  | none => exact .same rfl
  | some h => exact ofValue_mirrors h

theorem Mirrors.isTrue_eq (h : a.Mirrors a') : a.isTrue = a'.isTrue := by
  cases h <;> rfl

theorem Mirrors.length?_eq (h : a.Mirrors a') : a.length? = a'.length? := by
  cases h with
  | same => rfl
  | container h => exact h.containerLen?_eq
  | found h => exact congrArg some h.length_eq

mutual

theorem equalsValue_of_mirrors [Libraries] (o : Operand) {r d : Value} (h : r.Mirrors d) :
    equalsValue o r = equalsValue o d := by
  cases o with
  | list os =>
    cases h.reads with
    | scalar => rfl
    | array items => exact equalsValues_of_mirrors os items
    | record => rfl
  | _ => cases h.reads <;> rfl

theorem equalsValues_of_mirrors [Libraries] (os : List Operand) {rs ds : List Value}
    (h : List.Forall₂ Value.Mirrors rs ds) : equalsValues os rs = equalsValues os ds := by
  cases os with
  | nil => cases h <;> rfl
  | cons o os =>
    cases h with
    | nil => rfl
    | cons hhead htail =>
      rw [equalsValues, equalsValues, equalsValue_of_mirrors o hhead,
        equalsValues_of_mirrors os htail]

end

theorem Mirrors.equal_eq [Libraries] (ha : a.Mirrors a') (hb : b.Mirrors b') : equal a b =
    equal a' b' := by
  cases ha with
  | same hnodes =>
    cases hb with
    | same => rfl
    | container h =>
      cases a with
      | list items => exact equalsValue_of_mirrors (.list items) h
      | container => cases hnodes
      | _ => rfl
    | found h => cases a <;> rfl
  | container h =>
    cases hb with
    | same hnodes =>
      cases b with
      | list items => exact equalsValue_of_mirrors (.list items) h
      | container => cases hnodes
      | _ => rfl
    | container h' => exact h.beq_eq h'
    | found h' => rfl
  | found h =>
    cases hb with
    | same => cases b <;> rfl
    | container h' => rfl
    | found h' => rfl

theorem Mirrors.any_equal_eq [Libraries] (ha : a.Mirrors a')
    (h : List.Forall₂ Value.Mirrors rs ds) :
    (rs.any fun c => equal a (ofValue c)) = ds.any fun c => equal a' (ofValue c) := by
  induction h with
  | nil => rfl
  | cons hhead htail ih =>
    rw [List.any_cons, List.any_cons, ih, ha.equal_eq (ofValue_mirrors hhead)]

theorem Mirrors.memberOf_eq [Libraries] (ha : a.Mirrors a') (hb : b.Mirrors b') :
    memberOf a b = memberOf a' b' := by
  cases hb with
  | same hnodes =>
    cases b with
    | list items =>
      have each : (fun o => equal a (ofOperand o)) = fun o => equal a' (ofOperand o) :=
        funext fun o => ha.equal_eq (.same (holdsNodes_ofOperand o))
      rw [memberOf, memberOf, each]
    | container => cases hnodes
    | _ => rfl
  | container h => rw [memberOf, memberOf, h.isOrdered_eq, ha.any_equal_eq h.children]
  | found h => rfl

def withoutNodes (t : Term) : Term := if t.holdsNodes then .nothing else t

/-- A term with nodes is to the operation as nothing is. -/
def IgnoresNodes {α : Type} (f : Term → Term → α) : Prop :=
  ∀ a b, f a.withoutNodes b.withoutNodes = f a b

theorem Mirrors.withoutNodes_eq (h : a.Mirrors a') : a.withoutNodes = a'.withoutNodes := by
  cases h <;> rfl

theorem IgnoresNodes.congr {α : Type} {f : Term → Term → α} (h : IgnoresNodes f)
    (ha : a.Mirrors a') (hb : b.Mirrors b') : f a b = f a' b' := by
  rw [← h a b, ← h a' b', ha.withoutNodes_eq, hb.withoutNodes_eq]

theorem compare?_ignoresNodes [Libraries] : IgnoresNodes compare? := by
  intro a b
  cases a <;> cases b <;> rfl

theorem arithmetic_ignoresNodes [Libraries] (op : Operator) : IgnoresNodes (arithmetic op) := by
  intro a b
  cases a <;> cases b <;> rfl

theorem matchesPattern_ignoresNodes [Libraries] : IgnoresNodes matchesPattern := by
  intro a b
  cases a <;> cases b <;> rfl

theorem testPattern_ignoresNodes [Libraries] (whole : Bool) : IgnoresNodes (testPattern whole) := by
  intro a b
  cases a <;> cases b <;> rfl

theorem Mirrors.presence_eq [Libraries] (ha : a.Mirrors a') (hb : b.Mirrors b') :
    apply .has a b = apply .has a' b' := by
  cases ha with
  | same =>
    cases hb with
    | same => rfl
    | container | found => cases a <;> rfl
  | container | found =>
    cases hb with
    | same => cases b <;> rfl
    | container | found => rfl

/-- Operands that stand for each other have one result. -/
theorem Mirrors.apply_eq [Libraries] (op : Operator) (ha : a.Mirrors a') (hb : b.Mirrors b') :
    apply op a b = apply op a' b' := by
  cases op with
  | equal | notEqual => rw [apply, apply, ha.equal_eq hb]
  | less | greater | lessEqual | greaterEqual =>
    rw [apply, apply, compare?_ignoresNodes.congr ha hb]
  | land | lor => rw [apply, apply, ha.isTrue_eq, hb.isTrue_eq]
  | lnot => rw [apply, apply, ha.isTrue_eq]
  | add | subtract | multiply | divide => exact (arithmetic_ignoresNodes _).congr ha hb
  | member => rw [apply, apply, ha.memberOf_eq hb]
  | has | present => exact ha.presence_eq hb
  | empty =>
    simp only [apply, ha.length?_eq]
    cases hb with
    | same => rfl
    | container | found => cases a'.length? <;> rfl
  | pattern => rw [apply, apply, matchesPattern_ignoresNodes.congr ha hb]
  | length => rw [apply, apply, ha.length?_eq]
  | count =>
    cases ha with
    | same | container => rfl
    | found h => exact congrArg ofCount h.length_eq
  | wholeMatch | search => exact (testPattern_ignoresNodes _).congr ha hb

theorem holdsNodes_ofCount (n : Nat) : (ofCount n).holdsNodes = false := by
  unfold ofCount
  split <;> rfl

theorem holdsNodes_arithmetic [Libraries] (op : Operator) (a b : Term) :
    (arithmetic op a b).holdsNodes = false := by
  have floats : ∀ x y, (floatArithmetic op x y).holdsNodes = false := by
    intro x y
    unfold floatArithmetic
    split
    all_goals try rfl
    split <;> rfl
  have mixed : ∀ x y dx dy, (mixedArithmetic op x y dx dy).holdsNodes = false := by
    intro x y dx dy
    unfold mixedArithmetic
    dsimp only
    split
    · rfl
    · exact floats x y
  have ints : ∀ m n, (intArithmetic op m n).holdsNodes = false := by
    intro m n
    unfold intArithmetic
    dsimp only
    split
    · split <;> rfl
    · rfl
  unfold arithmetic
  split
  · exact ints _ _
  · exact floats _ _
  · exact mixed _ _ _ _
  · exact mixed _ _ _ _
  · split <;> rfl
  · rfl

theorem holdsNodes_testPattern [Libraries] (whole : Bool) (a b : Term) :
    (testPattern whole a b).holdsNodes = false := by
  unfold testPattern
  dsimp only
  split
  · split
    · rfl
    · split <;> rfl
  · rfl

/-- No operator makes nodes. -/
theorem holdsNodes_apply [Libraries] (op : Operator) (a b : Term) : (apply op a b).holdsNodes =
    false := by
  cases op with
  | add | subtract | multiply | divide => exact holdsNodes_arithmetic _ a b
  | wholeMatch | search => exact holdsNodes_testPattern _ a b
  | length | count =>
    unfold apply
    dsimp only
    split
    · exact holdsNodes_ofCount _
    · rfl
  | empty | has | present =>
    unfold apply
    dsimp only
    split <;> rfl
  | _ => rfl

end Term

namespace Cell

inductive Mirrors : Cell → Cell → Prop where
  | waiting (op : Operator) : Mirrors (.waiting op) (.waiting op)
  | done {t t' : Term} (h : t.Mirrors t') : Mirrors (.done t) (.done t')

variable {c c' : Cell} {cs cs' : List Cell}

theorem term_mirrors {x y : Option Cell} (h : Option.Rel Mirrors x y) :
    (term x).Mirrors (term y) := by
  cases h with
  | none => exact .same rfl
  | some h =>
    cases h with
    | waiting => exact .same rfl
    | done h => exact h

theorem settle_mirrors [Libraries] (h : c.Mirrors c') (behind : List.Forall₂ Mirrors cs cs') :
    List.Forall₂ Mirrors (c.settle cs) (c'.settle cs') := by
  cases h with
  | done h => exact .cons (.done h) behind
  | waiting op =>
    have operand : ∀ i, (term (cs.take op.arity)[i]?).Mirrors (term (cs'.take op.arity)[i]?) :=
      fun i => term_mirrors (rel_getElem? (List.forall₂_take _ behind) i)
    refine .cons (.done ?_) (List.forall₂_drop _ behind)
    rw [Term.Mirrors.apply_eq op (operand 0) (operand 1)]
    exact .same (Term.holdsNodes_apply op _ _)

theorem settled_mirrors [Libraries] (h : List.Forall₂ Mirrors cs cs') :
    List.Forall₂ Mirrors (settled cs) (settled cs') := by
  induction h with
  | nil => exact .nil
  | cons hhead _ ih => exact settle_mirrors hhead ih

theorem isTrue_result_eq [Libraries] (h : List.Forall₂ Mirrors cs cs') :
    (result cs).isTrue = (result cs').isTrue := by
  rw [result, result, swept_length, swept_length, List.head?_eq_getElem?, List.head?_eq_getElem?]
  exact (term_mirrors (rel_getElem? (settled_mirrors h) 0)).isTrue_eq

end Cell

namespace Search

/-- A selector that takes nodes that stand for each other to such nodes. -/
def Transfers (root root' : Value) : Selector → Prop
  | .pick choose =>
    ∀ {r d : Value}, r.Mirrors d → List.Forall₂ Value.Mirrors (choose root r) (choose root' d)
  | _ => True

variable {root root' : Value}

theorem containers_mirrors (h : List.Forall₂ Value.Mirrors rs ds) :
    List.Forall₂ Value.Mirrors (rs.filter Value.isContainer) (ds.filter Value.isContainer) :=
  List.rel_filter (fun _ _ hrd => Eq.to_iff (congrArg (· = true) hrd.isContainer_eq)) h

/-- Searches with such selectors find nodes that stand for each other, one for one. -/
theorem reached_mirrors (hroot : root.Mirrors root') {sels : List Selector}
    (h : ∀ s ∈ sels, Transfers root root' s) (hr : r.Mirrors d) :
    List.Forall₂ Value.Mirrors (reached root sels r) (reached root' sels d) := by
  induction sels generalizing r d with
  | nil =>
    rw [reached, reached]
    exact .nil
  | cons s rest ih =>
    obtain ⟨hs, hrest⟩ := List.forall_mem_cons.mp h
    cases rest with
    | nil =>
      cases s with
      | root =>
        rw [reached, reached]
        exact .cons hroot .nil
      | here =>
        rw [reached, reached]
        exact .cons hr .nil
      | descent =>
        rw [reached, reached]
        exact hr.subtree
      | pick choose =>
        rw [reached, reached]
        exact hs hr
    | cons g more =>
      cases s with
      | root =>
        simp only [reached]
        exact ih hrest hroot
      | here =>
        simp only [reached]
        exact ih hrest hr
      | descent =>
        induction d using Value.childrenInduction generalizing r with
        | step d ihd =>
          rw [reached_descent, reached_descent]
          refine List.rel_append (ih hrest hr) ?_
          refine rel_flatMap_of_mem (containers_mirrors hr.children) fun c hc {_} hrd => ?_
          exact ihd c (List.mem_of_mem_filter hc) hrd
      | pick choose =>
        simp only [reached]
        exact List.rel_flatMap (containers_mirrors (hs hr)) fun _ _ hrd => ih hrest hrd

end Search

theorem forall₂_toList {x y : Option Value} (h : Option.Rel Value.Mirrors x y) :
    List.Forall₂ Value.Mirrors x.toList y.toList := by
  cases h with
  | none => exact .nil
  | some h => exact .cons h .nil

theorem UnionKey.find?_mirrors {k : UnionKey} (hk : k.isLowerCased) (h : r.Mirrors d) :
    Option.Rel Value.Mirrors (k.find? r) (k.find? d) := by
  cases k with
  | key name => exact h.getKey? hk
  | index i => exact h.getIndex? i

theorem Slice.select_mirrors (s : Slice) (h : r.Mirrors d) :
    List.Forall₂ Value.Mirrors (s.select r) (s.select d) := by
  rw [Slice.select, Slice.select, h.isOrdered_eq, h.containerLen?_eq]
  split
  · have same := List.forall₂_same.mpr fun n (_ : n ∈ s.indices (d.containerLen?.getD 0)) =>
      Eq.refl n
    exact List.rel_filterMap (fun _ _ hn => hn ▸ h.step?_index _) same
  · exact .nil

mutual

/-- A fragment without capitals takes a record where it takes the plain document. -/
theorem Fragment.transfers [Libraries] (f : Fragment) (h : f.isLowerCased) {root root' : Value}
    (hroot : root.Mirrors root') : Search.Transfers root root' f.selector := by
  cases f with
  | root | current | bracket | descent =>
    rw [Fragment.selector]
    trivial
  | child name =>
    rw [Fragment.isLowerCased] at h
    rw [Fragment.selector]
    exact fun hrd => forall₂_toList (hrd.getKey? h)
  | nth i =>
    rw [Fragment.selector]
    exact fun hrd => forall₂_toList (hrd.getIndex? i)
  | wildcard =>
    rw [Fragment.selector]
    exact fun hrd => hrd.children
  | slice s =>
    rw [Fragment.selector]
    exact fun hrd => s.select_mirrors hrd
  | union keys =>
    rw [Fragment.isLowerCased, List.all_eq_true] at h
    rw [Fragment.selector]
    intro r d hrd
    have same : List.Forall₂ (fun k k' => k = k' ∧ k.isLowerCased) keys keys :=
      List.forall₂_same.mpr fun k hk => ⟨rfl, h k hk⟩
    refine List.rel_filterMap (fun k k' hk => ?_) same
    obtain ⟨rfl, hk⟩ := hk
    exact k.find?_mirrors hk hrd
  | filter template =>
    rw [Fragment.isLowerCased] at h
    rw [Fragment.selector]
    intro r d hrd
    refine List.rel_filter (fun c c' hc => Eq.to_iff (congrArg (· = true) ?_)) hrd.children
    exact Cell.isTrue_result_eq (cells_mirrors template h false hc hroot)

theorem selectors_transfer [Libraries] (p : List Fragment) (h : fragmentsLowerCased p)
    {root root' : Value}
    (hroot : root.Mirrors root') : ∀ s ∈ selectors p, Search.Transfers root root' s := by
  cases p with
  | nil =>
    rw [selectors]
    exact nofun
  | cons f p =>
    rw [fragmentsLowerCased, Bool.and_eq_true] at h
    rw [selectors]
    exact List.forall_mem_cons.mpr ⟨f.transfers h.1 hroot, selectors_transfer p h.2 hroot⟩

theorem cells_mirrors [Libraries] (t : List Slot) (h : slotsLowerCased t) (all : Bool)
    {elem elem' root root' : Value} (helem : elem.Mirrors elem') (hroot : root.Mirrors root') :
    List.Forall₂ Cell.Mirrors (cells t all elem root) (cells t all elem' root') := by
  match t with
  | [] =>
    rw [cells, cells]
    exact .nil
  | .operand o :: t =>
    rw [slotsLowerCased, Bool.and_eq_true] at h
    rw [cells, cells]
    exact .cons (.done (o.resolve_mirrors h.1 all helem hroot))
      (cells_mirrors t h.2 false helem hroot)
  | .op op :: t =>
    rw [slotsLowerCased] at h
    rw [cells, cells]
    exact .cons (.waiting op) (cells_mirrors t h op.getsLeft helem hroot)

theorem Operand.resolve_mirrors [Libraries] (o : Operand) (h : o.isLowerCased) (all : Bool)
    {elem elem' root root' : Value} (helem : elem.Mirrors elem') (hroot : root.Mirrors root') :
    (o.resolve all elem root).Mirrors (o.resolve all elem' root') := by
  cases o with
  | path p =>
    rw [Operand.isLowerCased] at h
    have horigin : (Path.origin p elem root).Mirrors (Path.origin p elem' root') := by
      unfold Path.origin
      split
      · exact hroot
      · exact helem
    have hfound : List.Forall₂ Value.Mirrors (Path.get p (Path.origin p elem root))
        (Path.get p (Path.origin p elem' root')) := by
      rw [Path.get, Path.get, Search.get_eq_reached, Search.get_eq_reached]
      exact Search.reached_mirrors horigin (selectors_transfer p h horigin) horigin
    cases all with
    | true =>
      simp only [Operand.resolve, if_true]
      exact .found hfound
    | false =>
      rw [Operand.resolve_path, Operand.resolve_path, List.head?_eq_getElem?,
        List.head?_eq_getElem?]
      exact Term.first_mirrors (rel_getElem? hfound 0)
  | _ =>
    simp only [Operand.resolve]
    exact .same (Term.holdsNodes_ofOperand _)

end

namespace Path

/-- What a path without capitals selects from a record are the records of what it selects from
the plain document. -/
theorem get_mirrors [Libraries] (p : Path) (names : fragmentsLowerCased p) (h : r.Mirrors d) :
    List.Forall₂ Value.Mirrors (p.get r) (p.get d) := by
  rw [get, get, Search.get_eq_reached, Search.get_eq_reached]
  exact Search.reached_mirrors h (selectors_transfer p names h) h

theorem map_render_eq (style : Json.Style) (h : List.Forall₂ Value.Mirrors rs ds) :
    rs.map (Json.render style) = ds.map (Json.render style) := by
  induction h with
  | nil => rfl
  | cons hhead _ ih => rw [List.map_cons, List.map_cons, hhead.render_eq, ih]

/-- Where neither an object nor a path has names with capitals, the object can be read as a
record, and the path selects the same texts from the two: all matches in order, the first of
them, and whether there are any. -/
theorem texts_of_record [Libraries] (p : Path) (names : fragmentsLowerCased p) {members : Members}
    (plain : (Value.object members).Plain) (lowerCased : (Value.object members).LowerCased) :
    ∃ r, (Value.object members).record? = .ok r ∧ ∀ style,
      (p.get r).map (Json.render style) =
          (p.get (.object members)).map (Json.render style) ∧
        (p.first? r).map (Json.render style) =
          (p.first? (.object members)).map (Json.render style) ∧
        p.has r = p.has (.object members) := by
  refine ⟨_, rfl, fun style => ?_⟩
  have texts := map_render_eq style (p.get_mirrors names ⟨plain, lowerCased, rfl⟩)
  refine ⟨texts, ?_, ?_⟩
  · rw [first?, first?, Search.first?_eq_head?_get, Search.first?_eq_head?_get,
      ← List.head?_map, ← List.head?_map]
    exact congrArg List.head? texts
  · have matchless := congrArg List.isEmpty texts
    rw [List.isEmpty_map, List.isEmpty_map] at matchless
    rw [has, has, Search.has_eq_get, Search.has_eq_get]
    exact congrArg (!·) matchless

/-- `$.a[?(@.x == $.b && length(@.x) == 1)].x` compares containers in both readings of the
document, and selects `{"k":1}`. -/
theorem texts_of_record_with_nested_objects :
    let test : Script := [.op .land, .op .equal, .operand (.path [.current, .child "x"]),
      .operand (.path [.root, .child "b"]), .op .equal, .op .length,
      .operand (.path [.current, .child "x"]), .operand (.int 1)]
    let p : Path := [.root, .child "a", .filter test, .child "x"]
    let inner : Value := .object [("k", .int 1)]
    let members : Members := [("a", .array [.object [("x", inner)], .object [("x", .int 1)]]),
      ("b", inner)]
    p.get (.object members) = [inner] ∧ fragmentsLowerCased p ∧ (Value.object members).Plain ∧
      (Value.object members).LowerCased ∧
      ∃ r, (Value.object members).record? = .ok r ∧ ∀ style,
        (p.get r).map (Json.render style) =
            (p.get (.object members)).map (Json.render style) ∧
          (p.first? r).map (Json.render style) =
            (p.first? (.object members)).map (Json.render style) ∧
          p.has r = p.has (.object members) := by
  intro test p inner members
  refine ⟨?_, by decide, by decide, by decide,
    texts_of_record p (by decide) (by decide) (by decide)⟩
  simp only [get, Search.get_eq_reached, selectors, Fragment.selector, Search.reached, cells,
    Operand.resolve, Search.first?_eq_head?_get, test, p, inner, members]
  rfl

end Path

end DocPath
