import DocPath.Builtin
import DocPath.Proofs.Decimal.Doubles
import DocPath.Proofs.Query.Scope
import DocPath.Proofs.Query.Sweep

/-!
# Literals of scripts and the same data

A literal and a path to what it stands for are one operand when the literal is no list. A list of
a script and a container of the document are two, and every pairing of them has an equality of its
own: with a list, integers and floats are compared by size and the two kinds of sequences are one;
between two containers they are not. So a list may be exchanged for the same data where this makes
no difference to the containers that it is compared with.
-/

namespace DocPath

mutual

def Operand.denoted? : Operand → Option Value
  | .null => some .null
  | .bool b => some (.bool b)
  | .int n => some (.int n)
  | .float x => some (.float x)
  | .str s => some (.str s)
  | .list items => (denotedAll? items).map .array
  | .nothing | .regex _ | .path _ => none

def denotedAll? : List Operand → Option (List Value)
  | [] => some []
  | o :: os => o.denoted?.bind fun v => (denotedAll? os).map (v :: ·)

end

namespace Value

variable [Libraries]

mutual

/-- Nowhere has one value an integer and the other a float of the same size, and nowhere do they
have sequences of different kinds. -/
def alike : Value → Value → Bool
  | .int n, .float x | .float x, .int n => Term.compareMixed? n x != some .eq
  | .array _, .slots _ _ | .slots _ _, .array _ => false
  | .array vs, .array ws | .slots _ vs, .slots _ ws => alikeItems vs ws
  | _, _ => true

def alikeItems : List Value → List Value → Bool
  | v :: vs, w :: ws => v.alike w && alikeItems vs ws
  | _, _ => true

end

mutual

theorem alike_comm (v w : Value) : v.alike w = w.alike v := by
  cases v <;> cases w <;> first | rfl | exact alikeItems_comm _ _

theorem alikeItems_comm (vs ws : List Value) : alikeItems vs ws = alikeItems ws vs := by
  match vs, ws with
  | [], [] => rfl
  | [], _ :: _ => rfl
  | _ :: _, [] => rfl
  | v :: vs, w :: ws => rw [alikeItems, alikeItems, alike_comm v w, alikeItems_comm vs ws]

end

end Value

variable {o a b : Operand} {v w : Value} {os items : List Operand} {vs ws : List Value}

theorem denotedAll?_cons (h : denotedAll? (o :: os) = some vs) :
    ∃ w ws, vs = w :: ws ∧ o.denoted? = some w ∧ denotedAll? os = some ws := by
  rw [denotedAll?] at h
  obtain ⟨w, hw, h⟩ := Option.bind_eq_some_iff.mp h
  obtain ⟨ws, hws, rfl⟩ := Option.map_eq_some_iff.mp h
  exact ⟨w, ws, rfl, hw, hws⟩

/-- A literal that is no list is the operand that its value is. -/
theorem Operand.denoted?_scalar (ho : ∀ items, o ≠ .list items) (h : o.denoted? = some v) :
    v.isContainer = false ∧ Term.ofOperand o = Term.ofValue v := by
  cases o with
  | list items => exact absurd rfl (ho items)
  | nothing | regex _ | path _ => simp [denoted?] at h
  | _ =>
    simp only [denoted?, Option.some.injEq] at h
    subst h
    exact ⟨rfl, rfl⟩

namespace Term

variable [Libraries]

theorem equalScalars_comm (s t : Term) : equalScalars s t = equalScalars t s := by
  cases s <;> cases t <;> try rfl
  all_goals simp only [equalScalars]
  case bool.bool x y => exact Bool.beq_comm
  case int.int m n => exact Bool.beq_comm
  case str.str s t => exact Bool.beq_comm
  case float.float x y => exact Decimal.double_beq_comm x y
  case regex.regex r s => exact Bool.beq_comm
  case int.float n x | float.int x n =>
    simp only [compareNumbers?]
    cases h : compareMixed? n x with
    | none => rfl
    | some c => cases c <;> rfl

theorem equalLiterals_of_not_list (hb : ∀ bs, b ≠ .list bs) (a : Operand) :
    equalLiterals a b = equalScalars (ofOperand a) (ofOperand b) := by
  cases a with
  | list as =>
    rw [equalLiterals]
    · rfl
    · exact hb
  | _ =>
    rw [equalLiterals]
    · exact nofun
    · exact hb
    · exact fun _ _ h _ => nomatch h

theorem equalLiterals_comm_of_not_list (hb : ∀ bs, b ≠ .list bs) (a : Operand) :
    equalLiterals a b = equalLiterals b a := by
  cases a with
  | list as =>
    rw [equalLiterals, equalLiterals]
    · exact hb
    · exact hb
  | _ =>
    rw [equalLiterals_of_not_list hb, equalLiterals_of_not_list, equalScalars_comm]
    exact nofun

mutual

theorem equalLiterals_comm (a b : Operand) : equalLiterals a b = equalLiterals b a := by
  cases b with
  | list bs =>
    cases a with
    | list as => exact equalItems_comm as bs
    | _ => exact (equalLiterals_comm_of_not_list (by exact nofun) _).symm
  | _ => exact equalLiterals_comm_of_not_list (by exact nofun) a

theorem equalItems_comm (as bs : List Operand) : equalItems as bs = equalItems bs as := by
  match as, bs with
  | [], [] => rfl
  | [], _ :: _ => rfl
  | _ :: _, [] => rfl
  | a :: as, b :: bs => rw [equalItems, equalItems, equalLiterals_comm a b, equalItems_comm as bs]

end

theorem equalsValue_of_not_list (ha : ∀ as, a ≠ .list as) (v : Value) :
    equalsValue a v = equalScalars (ofOperand a) (ofValue v) := by
  rw [equalsValue]
  · exact ha
  · exact fun as _ h _ => ha as h
  · exact fun as _ _ h _ => ha as h

theorem equalsValue_of_not_container (hv : v.isContainer = false) (a : Operand) :
    equalsValue a v = equalScalars (ofOperand a) (ofValue v) := by
  cases a with
  | list as => cases v <;> first | rfl | cases hv
  | _ => exact equalsValue_of_not_list (by exact nofun) v

mutual

/-- A literal equals what another one stands for exactly when it equals that one. -/
theorem equalLiterals_denoted (o : Operand) {v : Value} (h : o.denoted? = some v) (a : Operand) :
    equalLiterals a o = equalsValue a v := by
  match o with
  | .list items =>
    obtain ⟨vs, hitems, rfl⟩ := Option.map_eq_some_iff.mp h
    cases a with
    | list as => exact equalItems_denoted items hitems as
    | _ => rfl
  | .null | .nothing | .bool _ | .int _ | .float _ | .str _ | .regex _ | .path _ =>
    obtain ⟨hv, hterm⟩ := Operand.denoted?_scalar (by exact nofun) h
    rw [equalLiterals_of_not_list (by exact nofun), equalsValue_of_not_container hv, hterm]

theorem equalItems_denoted (items : List Operand) {vs : List Value}
    (h : denotedAll? items = some vs) (as : List Operand) :
    equalItems as items = equalsValues as vs := by
  match items with
  | [] =>
    cases h
    cases as <;> rfl
  | o :: os =>
    obtain ⟨w, ws, rfl, hw, hws⟩ := denotedAll?_cons h
    cases as with
    | nil => rfl
    | cons a as =>
      rw [equalItems, equalsValues, equalLiterals_denoted o hw, equalItems_denoted os hws]

end

mutual

/-- A literal equals a value like what it stands for exactly when what it stands for does, on
either side. -/
theorem equalsValue_denoted (o : Operand) {v w : Value} (h : o.denoted? = some v)
    (alike : v.alike w) : equalsValue o w = v.beq w ∧ equalsValue o w = w.beq v := by
  match o with
  | .list items =>
    obtain ⟨vs, hitems, rfl⟩ := Option.map_eq_some_iff.mp h
    cases w with
    | array ws => exact equalsValues_denoted items hitems alike
    | slots refused ws => cases alike
    | _ => exact ⟨rfl, rfl⟩
  | .nothing | .regex _ | .path _ => cases h
  | .null =>
    cases h
    cases w <;> exact ⟨rfl, rfl⟩
  | .bool x =>
    cases h
    cases w with
    | bool y => exact ⟨rfl, Bool.beq_comm⟩
    | _ => exact ⟨rfl, rfl⟩
  | .int m =>
    cases h
    cases w with
    | int n => exact ⟨rfl, Bool.beq_comm⟩
    | float y =>
      have differ : equalsValue (.int m) (.float y) = false := (Bool.not_eq_true' _).mp alike
      exact ⟨differ, differ⟩
    | _ => exact ⟨rfl, rfl⟩
  | .float x =>
    cases h
    cases w with
    | int n =>
      have differ : equalsValue (.float x) (.int n) = false :=
        (equalScalars_comm (.float x) (.int n)).trans ((Bool.not_eq_true' _).mp alike)
      exact ⟨differ, differ⟩
    | float y => exact ⟨rfl, Decimal.double_beq_comm x y⟩
    | _ => exact ⟨rfl, rfl⟩
  | .str s =>
    cases h
    cases w with
    | str t => exact ⟨rfl, Bool.beq_comm⟩
    | _ => exact ⟨rfl, rfl⟩

theorem equalsValues_denoted (items : List Operand) {vs ws : List Value}
    (h : denotedAll? items = some vs) (alike : Value.alikeItems vs ws) :
    equalsValues items ws = Value.beqItems vs ws ∧
      equalsValues items ws = Value.beqItems ws vs := by
  match items with
  | [] =>
    cases h
    cases ws <;> exact ⟨rfl, rfl⟩
  | o :: os =>
    obtain ⟨v, vs, rfl, hv, hvs⟩ := denotedAll?_cons h
    cases ws with
    | nil => exact ⟨rfl, rfl⟩
    | cons w ws =>
      obtain ⟨hhead, htail⟩ := Bool.and_eq_true_iff.mp alike
      obtain ⟨left, right⟩ := equalsValue_denoted o hv hhead
      obtain ⟨lefts, rights⟩ := equalsValues_denoted os hvs htail
      exact ⟨congrArg₂ and left lefts, congrArg₂ and right rights⟩

end

/-- A literal and the value it stands for are equal to the same operands, on either side. -/
theorem equal_denoted (h : o.denoted? = some v) {t : Term}
    (alike : ∀ w, t = .container w → v.isContainer → v.alike w) :
    equal (ofOperand o) t = equal (ofValue v) t ∧ equal t (ofOperand o) = equal t (ofValue v) := by
  cases o with
  | list items =>
    have denoted := h
    obtain ⟨vs, hitems, rfl⟩ := Option.map_eq_some_iff.mp h
    cases t with
    | container w =>
      obtain ⟨left, right⟩ := equalsValue_denoted (.list items) denoted (alike w rfl rfl)
      exact ⟨left, right⟩
    | list bs =>
      have hdata := equalLiterals_denoted (.list items) denoted (.list bs)
      exact ⟨(equalLiterals_comm (.list items) (.list bs)).trans hdata, hdata⟩
    | _ => exact ⟨rfl, rfl⟩
  | _ =>
    obtain ⟨-, hterm⟩ := Operand.denoted?_scalar (by exact nofun) h
    rw [hterm]
    exact ⟨rfl, rfl⟩

/-- Literals and containers have no order. -/
theorem compare?_denoted (h : o.denoted? = some v) (t : Term) :
    compare? (ofOperand o) t = compare? (ofValue v) t ∧
      compare? t (ofOperand o) = compare? t (ofValue v) := by
  cases o with
  | list items =>
    obtain ⟨vs, hitems, rfl⟩ := Option.map_eq_some_iff.mp h
    cases t <;> exact ⟨rfl, rfl⟩
  | _ =>
    obtain ⟨-, hterm⟩ := Operand.denoted?_scalar (by exact nofun) h
    rw [hterm]
    exact ⟨rfl, rfl⟩

end Term

namespace Operator

/-- The operators that compare their operands, and membership. -/
def compares : Operator → Bool
  | .equal | .notEqual | .less | .greater | .lessEqual | .greaterEqual | .member => true
  | _ => false

theorem isBinary_of_compares {op : Operator} (h : op.compares) : op.isBinary := by
  cases op <;> first | rfl | cases h

/-- The containers that an operator compares for equality when both its operands are
containers. -/
def meetings (op : Operator) (left right : Value) : List (Value × Value) :=
  match op with
  | .equal | .notEqual => [(left, right)]
  | .member =>
    if right.isOrdered then (right.children.filter Value.isContainer).map (left, ·) else []
  | _ => []

end Operator

namespace Term

theorem ofValue_eq_container (h : ofValue v = .container w) : v = w ∧ v.isContainer := by
  cases v <;> cases h <;> exact ⟨rfl, rfl⟩

theorem ofOperand_ne_container (o : Operand) (w : Value) : ofOperand o ≠ .container w := by
  cases o <;> nofun

theorem memberOf_denoted_left [Libraries] (h : o.denoted? = some v) {t : Term}
    (alike : v.isContainer → ∀ w, t = .container w →
      ∀ m ∈ Operator.meetings .member v w, m.1.alike m.2) :
    memberOf (ofOperand o) t = memberOf (ofValue v) t := by
  cases t with
  | list bs =>
    simp only [memberOf]
    refine congrArg (List.any bs) (funext fun b => (equal_denoted h ?_).1)
    exact fun w hw _ => absurd hw (ofOperand_ne_container b w)
  | container w =>
    simp only [memberOf]
    cases hw : w.isOrdered with
    | false => rfl
    | true =>
      rw [Bool.true_and, Bool.true_and, Bool.eq_iff_iff, List.any_eq_true, List.any_eq_true]
      refine exists_congr fun c => and_congr_right fun hc => ?_
      rw [(equal_denoted h ?_).1]
      intro u hu hv
      obtain ⟨rfl, hcontainer⟩ := ofValue_eq_container hu
      refine alike hv w rfl (v, c) ?_
      simp [Operator.meetings, hw, hc, hcontainer]
  | _ => rfl

theorem any_denoted [Libraries] (h : denotedAll? items = some vs) {t : Term}
    (alike : ∀ c ∈ vs, ∀ w, t = .container w → c.isContainer → c.alike w) :
    (items.any fun o => equal t (ofOperand o)) = vs.any fun c => equal t (ofValue c) := by
  induction items generalizing vs with
  | nil =>
    cases h
    rfl
  | cons o os ih =>
    obtain ⟨c, cs, rfl, hc, hcs⟩ := denotedAll?_cons h
    rw [List.forall_mem_cons] at alike
    rw [List.any_cons, List.any_cons, (equal_denoted hc alike.1).2, ih hcs alike.2]

theorem memberOf_denoted_right [Libraries] (h : o.denoted? = some v) {t : Term}
    (alike : v.isContainer → ∀ w, t = .container w →
      ∀ m ∈ Operator.meetings .member w v, m.1.alike m.2) :
    memberOf t (ofOperand o) = memberOf t (ofValue v) := by
  cases o with
  | list items =>
    obtain ⟨vs, hitems, rfl⟩ := Option.map_eq_some_iff.mp h
    refine any_denoted hitems fun c hc w hw hcontainer => ?_
    rw [Value.alike_comm]
    refine alike rfl w hw (w, c) ?_
    simp [Operator.meetings, Value.isOrdered, Value.children, hc, hcontainer]
  | _ =>
    obtain ⟨-, hterm⟩ := Operand.denoted?_scalar (by exact nofun) h
    rw [hterm]

variable {op : Operator} {t : Term}

/-- An operator that compares gives the same for a literal and for the value it stands for, when
the containers that it tests for equality are alike. -/
theorem apply_denoted_left [Libraries] (compares : op.compares) (h : o.denoted? = some v)
    (alike : v.isContainer → ∀ w, t = .container w → ∀ m ∈ op.meetings v w, m.1.alike m.2) :
    apply op (ofOperand o) t = apply op (ofValue v) t := by
  have equality : op.meetings = (fun v w => [(v, w)]) →
      equal (ofOperand o) t = equal (ofValue v) t := by
    intro hmeet
    refine (equal_denoted h fun w hw hv => alike hv w hw (v, w) ?_).1
    rw [hmeet]
    exact List.mem_cons_self
  cases op with
  | equal | notEqual => simp only [apply, equality rfl]
  | less | greater | lessEqual | greaterEqual => simp only [apply, (compare?_denoted h t).1]
  | member => simp only [apply, memberOf_denoted_left h alike]
  | _ => cases compares

theorem apply_denoted_right [Libraries] (compares : op.compares) (h : o.denoted? = some v)
    (alike : v.isContainer → ∀ w, t = .container w → ∀ m ∈ op.meetings w v, m.1.alike m.2) :
    apply op t (ofOperand o) = apply op t (ofValue v) := by
  have equality : op.meetings = (fun v w => [(v, w)]) →
      equal t (ofOperand o) = equal t (ofValue v) := by
    intro hmeet
    refine (equal_denoted h fun w hw hv => ?_).2
    rw [Value.alike_comm]
    refine alike hv w hw (w, v) ?_
    rw [hmeet]
    exact List.mem_cons_self
  cases op with
  | equal | notEqual => simp only [apply, equality rfl]
  | less | greater | lessEqual | greaterEqual => simp only [apply, (compare?_denoted h t).2]
  | member => simp only [apply, memberOf_denoted_right h alike]
  | _ => cases compares

end Term

namespace Equation

variable {elem root : Value}
variable [Libraries]

theorem leftArgument_of_found? {e : Equation} (h : e.found? elem root = none) (op : Operator)
    (t : Term) : e.leftArgument elem root op t = t := by
  rw [leftArgument, h]
  exact ite_self t

theorem leftArgument_of_compares {op : Operator} (h : op.compares) (e : Equation) (t : Term) :
    e.leftArgument elem root op t = t := by
  cases op <;> first | rfl | cases h

/-- A tree with a place for one operand of an operator that compares. -/
inductive Hole where
  | left (op : Operator) (compares : op.compares) (other : Equation)
  | right (op : Operator) (compares : op.compares) (other : Equation)
  | under (op : Operator) (hole : Hole)
  | inLeft (op : Operator) (hole : Hole) (other : Equation)
  | inRight (op : Operator) (other : Equation) (hole : Hole)

namespace Hole

def fill (o : Operand) : Hole → Equation
  | .left op _ other => .binary op (.value o) other
  | .right op _ other => .binary op other (.value o)
  | .under op hole => .unary op (hole.fill o)
  | .inLeft op hole other => .binary op (hole.fill o) other
  | .inRight op other hole => .binary op other (hole.fill o)

/-- Whether a container in the place is like those that it is tested for equality with. Nothing is
asked of other values. -/
def Fair (elem root v : Value) : Hole → Prop
  | .left op _ other => v.isContainer → ∀ w, other.result elem root = .container w →
    ∀ m ∈ op.meetings v w, m.1.alike m.2
  | .right op _ other => v.isContainer → ∀ w, other.result elem root = .container w →
    ∀ m ∈ op.meetings w v, m.1.alike m.2
  | .under _ hole | .inLeft _ hole _ | .inRight _ _ hole => hole.Fair elem root v

theorem found?_fill (hole : Hole) (o : Operand) : (hole.fill o).found? elem root = none := by
  cases hole <;> rfl

/-- A literal and an operand whose result is the value that the literal stands for give one
result. -/
theorem result_fill {p : Operand} (hole : Hole) (h : o.denoted? = some v)
    (data : p.result elem root = .ofValue v) (fair : hole.Fair elem root v) :
    (hole.fill p).result elem root = (hole.fill o).result elem root := by
  have literal : o.result elem root = .ofOperand o := by
    cases o with
    | path q => cases h
    | _ => rfl
  induction hole with
  | left op compares other =>
    simp only [fill, result, leftArgument_of_compares compares,
      Operator.isBinary_of_compares compares, if_true, data, literal]
    exact (Term.apply_denoted_left compares h fair).symm
  | right op compares other =>
    simp only [fill, result, leftArgument_of_compares compares,
      Operator.isBinary_of_compares compares, if_true, data, literal]
    exact (Term.apply_denoted_right compares h fair).symm
  | under op hole ih =>
    simp only [fill, result, leftArgument_of_found? (found?_fill hole _), ih fair]
  | inLeft op hole other ih =>
    simp only [fill, result, leftArgument_of_found? (found?_fill hole _), ih fair]
  | inRight op other hole ih => simp only [fill, result, ih fair]

end Hole
end Equation

theorem Operand.result_path [Libraries] (p : Path) (elem root : Value) :
    (Operand.path p).result elem root =
    ((p.get (p.origin elem root)).head?.map Term.ofValue).getD .nothing := by
  rw [← Operand.resolve_first, Operand.resolve_path]

/-- A `$` path stands for the one value that it selects from the root. -/
theorem Operand.result_of_data [Libraries] {p : Path} {elem root : Value} (starts : p.startsAtRoot)
    (data : p.get root = [v]) : (Operand.path p).result elem root = .ofValue v := by
  rw [Operand.result_path, Path.origin_of_startsAtRoot starts, data]
  rfl

/-- A literal that an operator compares may be exchanged for a `$` path that selects from the root
just the value it stands for, without more ado when it is no list, and else when the value is
like the containers that it is tested for equality with. -/
theorem Script.eval_of_data [Libraries] {p : Path} {elem root : Value} (hole : Equation.Hole)
    (literal : o.denoted? = some v) (starts : p.startsAtRoot) (data : p.get root = [v])
    (fair : hole.Fair elem root v) :
    (hole.fill (.path p)).compile.eval elem root = (hole.fill o).compile.eval elem root := by
  rw [Script.eval_eq_result, Script.eval_eq_result]
  exact hole.result_fill literal (Operand.result_of_data starts data) fair

theorem Path.get_member [Libraries] {first : Fragment} (h : first = .root ∨ first = .current)
    (name : String)
    (doc : Value) : Path.get [first, .child name] doc = (doc.getKey? name).toList := by
  rcases h with rfl | rfl
  all_goals
    simp only [Path.get, Search.get_eq_reached, selectors, Fragment.selector, Search.reached]

/-- What `@` and a name stand for. -/
theorem Operand.result_member [Libraries] (name : String) (elem root : Value) :
    (Operand.path [.current, .child name]).result elem root =
      ((elem.getKey? name).map Term.ofValue).getD .nothing := by
  rw [Operand.result_path, Path.origin, Path.get_member (Or.inr rfl), Option.head?_toList]
  intro tail heq
  cases heq

/-- A nested list in `@.k > 0 && @.a == [1, [2.5, "x"]]`, which holds of the candidate. -/
theorem Script.eval_of_data_of_nested_list :
    let o : Operand := .list [.int 1, .list [.float 2.5, .str "x"]]
    let v : Value := .array [.int 1, .array [.float 2.5, .str "x"]]
    let hole : Equation.Hole := .inRight .land
      (.binary .greater (.value (.path [.current, .child "k"])) (.value (.int 0)))
      (.right .equal rfl (.value (.path [.current, .child "a"])))
    let p : Path := [.root, .child "x"]
    let elem : Value := .object [("a", v), ("k", .int 3)]
    let root : Value := .object [("x", v)]
    o.denoted? = some v ∧ p.startsAtRoot ∧ p.get root = [v] ∧ hole.Fair elem root v ∧
      ((hole.fill o).compile.eval elem root).isTrue ∧
      (hole.fill (.path p)).compile.eval elem root = (hole.fill o).compile.eval elem root := by
  intro o v hole p elem root
  have data : p.get root = [v] := Path.get_member (Or.inl rfl) "x" root
  have fair : hole.Fair elem root v := by
    intro _ w hw m hm
    rw [Equation.result, Operand.result_member] at hw
    cases hw
    cases List.mem_singleton.mp hm
    rfl
  have holds : ((hole.fill o).compile.eval elem root).isTrue := by
    rw [Script.eval_eq_result]
    simp only [hole, Equation.Hole.fill, Equation.result, Operand.result_member]
    decide +kernel
  exact ⟨rfl, rfl, data, fair, holds, Script.eval_of_data hole rfl rfl data fair⟩

/-- In `@.a == [1]` the list equals an array with a float, in `@.a == $.x` the array that `x` holds
does not. -/
theorem Script.eval_ne_of_mixed_numbers :
    let hole : Equation.Hole := .right .equal rfl (.value (.path [.current, .child "a"]))
    let o : Operand := .list [.int 1]
    let p : Path := [.root, .child "x"]
    let doc : Value := .object [("a", .array [.float 1.0]), ("x", .array [.int 1])]
    o.denoted? = some (.array [.int 1]) ∧ p.get doc = [.array [.int 1]] ∧
      ((hole.fill o).compile.eval doc doc).isTrue = true ∧
      ((hole.fill (.path p)).compile.eval doc doc).isTrue = false := by
  intro hole o p doc
  have data : p.get doc = [.array [.int 1]] := Path.get_member (Or.inl rfl) "x" doc
  refine ⟨rfl, data, ?_, ?_⟩
  · rw [Script.eval_eq_result]
    simp only [hole, o, Equation.Hole.fill, Equation.result, Operand.result_member]
    decide +kernel
  · rw [Script.eval_eq_result]
    simp only [hole, Equation.Hole.fill, Equation.result, Operand.result_member,
      Operand.result_of_data (p := p) rfl data]
    decide +kernel

end DocPath
