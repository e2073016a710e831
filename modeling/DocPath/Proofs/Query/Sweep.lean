import DocPath.Builtin
import DocPath.Proofs.Query.First

/-!
# Scripts are evaluated as the trees they come from

A script is evaluated in rounds, at positions counted before the first of them, while the
places behind close up. Here the rounds are compared with the recursion over the tree that
the script was compiled from. What lies behind the places still to be dealt with is settled:
it holds one term for every tree that stood there.
-/

namespace DocPath

/-- A literal stands for itself, and a path for its first match or, without any, for nothing.
Paths that start with `$` begin at the root, all others at the candidate. -/
def Operand.result [Libraries] (elem root : Value) : Operand → Term
  | .path (.root :: more) => ((Path.get (.root :: more) root).head?.map Term.ofValue).getD .nothing
  | .path p => ((Path.get p elem).head?.map Term.ofValue).getD .nothing
  | o => .ofOperand o

namespace Equation

/-- All matches of a tree that is a path. -/
def found? [Libraries] (elem root : Value) : Equation → Option Term
  | .value (.path (.root :: more)) => some (.found (Path.get (.root :: more) root))
  | .value (.path p) => some (.found (Path.get p elem))
  | _ => none

/-- What a tree stands for as left argument, given its result: a path right below `count` for
all its matches. -/
def leftArgument [Libraries] (elem root : Value) (op : Operator) (left : Equation) (result : Term) :
    Term :=
  if op = .count then (left.found? elem root).getD result else result

/-- The result of a tree. A missing right side counts as null, a surplus one not at all. -/
def result [Libraries] (elem root : Value) : Equation → Term
  | .value o => o.result elem root
  | .unary op left =>
    .apply op (leftArgument elem root op left (left.result elem root))
      (if op.isBinary then .null else .nothing)
  | .binary op left right =>
    .apply op (leftArgument elem root op left (left.result elem root))
      (if op.isBinary then right.result elem root else .nothing)

end Equation

namespace Cell

variable [Libraries]

/-- What a place makes of the settled places behind it. -/
def settle : Cell → List Cell → List Cell
  | .done t, behind => .done t :: behind
  | .waiting op, behind =>
    .done (.apply op (term (behind.take op.arity)[0]?) (term (behind.take op.arity)[1]?)) ::
      behind.drop op.arity

def settled (cells : List Cell) : List Cell := cells.foldr settle []

theorem sweepAt_append (before : List Cell) (c : Cell) (behind : List Cell) :
    sweepAt (before ++ c :: behind) before.length = before ++ c.settle behind := by
  have here : (before ++ c :: behind)[before.length]? = some c := by simp
  have after : ∀ n, (before ++ c :: behind).drop (before.length + 1 + n) = behind.drop n := by
    intro n
    rw [Nat.add_assoc, List.drop_length_add_append, Nat.add_comm, List.drop_succ_cons]
  have next := after 0
  rw [Nat.add_zero, List.drop_zero] at next
  unfold sweepAt
  rw [here]
  cases c with
  | done t => rfl
  | waiting op => simp only [next, after, List.take_left, settle]

/-- As many rounds as there are places behind settle those and leave the others alone. -/
theorem swept_append (before behind : List Cell) :
    swept (before ++ behind) behind.length = before ++ settled behind := by
  induction behind generalizing before with
  | nil => rfl
  | cons c behind ih =>
    have earlier : swept (before ++ c :: behind) behind.length =
        before ++ c :: settled behind := by
      have h := ih (before ++ [c])
      simpa only [List.append_assoc, List.singleton_append] using h
    have position : (before ++ c :: behind).length - (behind.length + 1) = before.length := by
      simp
    rw [List.length_cons, swept, earlier, position, sweepAt_append]
    rfl

theorem swept_length (cells : List Cell) : swept cells cells.length = settled cells :=
  swept_append [] cells

/-- The stack before a round: the place that is dealt with next, and settled ones behind it. -/
theorem swept_of_lt (cells : List Cell) {n : Nat} (h : n < cells.length) :
    ∃ before c behind, cells = before ++ c :: behind ∧
      before.length = cells.length - (n + 1) ∧ swept cells n = before ++ c :: settled behind := by
  obtain ⟨i, hi⟩ : ∃ i, i = cells.length - (n + 1) := ⟨_, rfl⟩
  have hlt : i < cells.length := by omega
  have split : cells = cells.take i ++ cells[i] :: cells.drop (i + 1) := by
    rw [List.getElem_cons_drop, List.take_append_drop]
  have hn : n = (cells.drop (i + 1)).length := by
    rw [List.length_drop]
    omega
  refine ⟨cells.take i, cells[i], cells.drop (i + 1), split, ?_, ?_⟩
  · rw [List.length_take, Nat.min_eq_left (Nat.le_of_lt hlt), hi]
  · have rounds := swept_append (cells.take i ++ [cells[i]]) (cells.drop (i + 1))
    simp only [List.append_assoc, List.singleton_append, ← split] at rounds
    rw [← hn] at rounds
    exact rounds

/-- Places of which every operator finds its operands when its turn comes. -/
def Fed : List Cell → Prop
  | [] => True
  | .done _ :: cells => Fed cells
  | .waiting op :: cells => op.arity ≤ (settled cells).length ∧ Fed cells

theorem Fed.behind {before cells : List Cell} (h : Fed (before ++ cells)) : Fed cells := by
  induction before with
  | nil => exact h
  | cons c before ih =>
    cases c with
    | done t => exact ih h
    | waiting op => exact ih h.2

theorem exists_term_of_mem_settled {cells : List Cell} {c : Cell} (h : c ∈ settled cells) :
    ∃ t, c = .done t := by
  induction cells with
  | nil => cases h
  | cons d cells ih =>
    cases d with
    | done t =>
      rcases List.mem_cons.mp h with rfl | h
      · exact ⟨t, rfl⟩
      · exact ih h
    | waiting op =>
      rcases List.mem_cons.mp h with rfl | h
      · exact ⟨_, rfl⟩
      · exact ih (List.mem_of_mem_drop h)

end Cell

section compiled

variable (elem root : Value)
variable [Libraries]

theorem Operand.resolve_first (o : Operand) :
    o.resolve false elem root = o.result elem root := by
  cases o with
  | path p =>
    rw [resolve_path]
    unfold Path.origin
    split
    · rfl
    · rename_i hroot
      rw [result]
      exact hroot
  | _ => simp only [resolve, result]

theorem Operand.resolve_all (o : Operand) :
    o.resolve true elem root = ((Equation.value o).found? elem root).getD (o.result elem root) := by
  cases o with
  | path p =>
    simp only [resolve, if_true, Path.origin]
    split
    · rfl
    · rename_i hroot
      rw [Equation.found?]
      · rfl
      · exact hroot
  | _ => simp [resolve, Equation.found?, result]

/-- What a tree stands for where all matches of a path are asked for, or not. -/
def Equation.argument (all : Bool) (e : Equation) : Term :=
  if all then (e.found? elem root).getD (e.result elem root) else e.result elem root

theorem Equation.argument_getsLeft (op : Operator) (e : Equation) :
    e.argument elem root op.getsLeft = e.leftArgument elem root op (e.result elem root) := by
  cases op <;> rfl

theorem Equation.argument_operator {e : Equation} (h : e.found? elem root = none) :
    e.argument elem root = fun _ => e.result elem root := by
  funext all
  cases all
  · rfl
  · rw [argument, h]
    rfl

/-- Code that comes to one term, whatever follows it, and leaves the code behind it its
operands. The term depends on whether all matches of a path are asked for. -/
structure Codes (code : Script) (value : Bool → Term) : Prop where
  settles (all : Bool) (rest : Script) :
    Cell.settled (cells (code ++ rest) all elem root) =
      .done (value all) :: Cell.settled (cells rest false elem root)
  fed (all : Bool) (rest : Script) (h : Cell.Fed (cells rest false elem root)) :
    Cell.Fed (cells (code ++ rest) all elem root)

variable {elem root}

theorem Codes.operand (o : Operand) :
    Codes elem root [.operand o] fun all => o.resolve all elem root where
  settles all rest := by simp [cells, Cell.settled, Cell.settle]
  fed all rest h := by simpa [cells, Cell.Fed] using h

theorem Codes.operator {left right : Script} {l r : Bool → Term} (op : Operator)
    (hl : Codes elem root left l) (hr : Codes elem root right r) :
    Codes elem root (.op op :: (left ++ if op.isBinary then right else [])) fun _ =>
      .apply op (l op.getsLeft) (if op.isBinary then r false else .nothing) where
  settles all rest := by
    rw [List.cons_append, List.append_assoc, cells, Cell.settled, List.foldr_cons,
      ← Cell.settled, hl.settles]
    cases hb : op.isBinary with
    | true => simp [hr.settles, Cell.settle, Operator.arity, hb, Cell.term]
    | false => simp [Cell.settle, Operator.arity, hb, Cell.term]
  fed all rest h := by
    rw [List.cons_append, List.append_assoc, cells, Cell.Fed, hl.settles]
    cases hb : op.isBinary with
    | true =>
      refine ⟨?_, hl.fed _ _ (hr.fed _ _ h)⟩
      simp [hr.settles, Operator.arity, hb]
    | false =>
      refine ⟨?_, hl.fed _ _ h⟩
      simp [Operator.arity, hb]

variable (elem root)

/-- A tree compiles to code for its result. -/
theorem codes_compile (e : Equation) : Codes elem root e.compile (e.argument elem root) := by
  induction e with
  | value o =>
    have ho : (fun all => o.resolve all elem root) = (Equation.value o).argument elem root := by
      funext all
      cases all
      · exact o.resolve_first elem root
      · exact o.resolve_all elem root
    exact ho ▸ Codes.operand o
  | unary op left ih =>
    have h := Codes.operator op ih (Codes.operand .null)
    rw [Equation.argument_getsLeft, Operand.resolve_first] at h
    rwa [Equation.argument_operator elem root rfl]
  | binary op left right ihl ihr =>
    have h := Codes.operator op ihl ihr
    rw [Equation.argument_getsLeft] at h
    rwa [Equation.argument_operator elem root rfl]

theorem Script.eval_eq_result (e : Equation) : e.compile.eval elem root = e.result elem root := by
  have h := (codes_compile elem root e).settles false []
  rw [List.append_nil] at h
  rw [Script.eval, Cell.result, Cell.swept_length, h]
  rfl

end compiled

/-- A script gives the result of the tree that it was compiled from. Before every round the
place dealt with is one of the stack, and if it holds an operator, the terms that the
operator takes stand right behind it; the last round leaves one term. -/
theorem Script.eval_compile [Libraries] (e : Equation) (elem root : Value) :
    let stack := cells e.compile false elem root
    e.compile.eval elem root = e.result elem root ∧
      Cell.swept stack stack.length = [.done (e.result elem root)] ∧
      ∀ n < stack.length, ∃ c, (Cell.swept stack n)[stack.length - (n + 1)]? = some c ∧
        ∀ op, c = .waiting op → ∀ k < op.arity,
          ∃ t, (Cell.swept stack n)[stack.length - (n + 1) + 1 + k]? = some (.done t) := by
  intro stack
  have code := codes_compile elem root e
  have whole : Cell.swept stack stack.length = [.done (e.result elem root)] := by
    have h := code.settles false []
    rw [List.append_nil] at h
    rw [Cell.swept_length, h]
    rfl
  refine ⟨?_, whole, fun n hn => ?_⟩
  · rw [Script.eval, Cell.result, whole]
    rfl
  · obtain ⟨before, c, behind, hstack, hlength, hswept⟩ := Cell.swept_of_lt stack hn
    have fed : Cell.Fed stack := by
      have h := code.fed false [] trivial
      rwa [List.append_nil] at h
    rw [hswept, ← hlength]
    refine ⟨c, by simp, ?_⟩
    rintro op rfl k hk
    rw [hstack] at fed
    have enough := fed.behind.1
    obtain ⟨t, ht⟩ := Cell.exists_term_of_mem_settled
      (List.getElem_mem (show k < (Cell.settled behind).length by omega))
    refine ⟨t, ?_⟩
    rw [List.getElem?_append_right (by omega), Nat.add_assoc, Nat.add_sub_cancel_left,
      Nat.add_comm 1 k, List.getElem?_cons_succ, List.getElem?_eq_getElem (by omega), ht]

/-- `count($.a[*]) == @.b`, of a candidate with two for `b` in a document with two items in `a`. -/
theorem Script.eval_compile_of_root_path :
    let e := Equation.binary .equal
      (.unary .count (.value (.path [.root, .child "a", .wildcard])))
      (.value (.path [.current, .child "b"]))
    let elem := Value.object [("b", .int 2)]
    let root := Value.object [("a", .array [.null, .int 5]), ("c", elem)]
    (e.result elem root).isTrue ∧ e.compile.eval elem root = e.result elem root := by
  intro e elem root
  have hresult : (e.result elem root).isTrue := by
    simp only [e, Equation.result, Equation.leftArgument, Equation.found?, Operand.result,
      Path.get, Search.get_eq_reached, selectors, Fragment.selector, Search.reached]
    decide +kernel
  exact ⟨hresult, (Script.eval_compile e elem root).1⟩

end DocPath
