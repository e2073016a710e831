import DocPath.Path.Syntax

/-!
# Templates are prefix codes

A template has no brackets, and yet no two scripts are compiled to the same one unless they differ
in operands that their operators do not take. Reading a template, from its end or from its first
slot on, gives the tree that was compiled, with every operator on as many operands as it takes, and
leaves what stands behind the template as it was. So a template is no beginning of another one, and
templates are equal, slot by slot, just when the trees read from them are.
-/

namespace DocPath

namespace Equation

variable {e e' : Equation}

/-- Trees in which every operator has as many operands as it takes. -/
def Saturated : Equation → Prop
  | value _ => True
  | unary op left => op.isBinary = false ∧ left.Saturated
  | binary op left right => op.isBinary ∧ left.Saturated ∧ right.Saturated

/-- The tree with null for every missing right operand and without surplus ones. -/
def saturate : Equation → Equation
  | value o => value o
  | unary op left => .apply op left.saturate (value .null)
  | binary op left right => .apply op left.saturate right.saturate

theorem Saturated.apply {op : Operator} {left right : Equation} (hl : left.Saturated)
    (hr : right.Saturated) : (Equation.apply op left right).Saturated := by
  unfold Equation.apply
  split
  · exact ⟨‹_›, hl, hr⟩
  · exact ⟨(Bool.not_eq_true _).mp ‹_›, hl⟩

theorem saturated_saturate (e : Equation) : e.saturate.Saturated := by
  induction e with
  | value o => trivial
  | unary op left ih => exact ih.apply trivial
  | binary op left right ihl ihr => exact ihl.apply ihr

theorem Saturated.saturate_eq (h : e.Saturated) : e.saturate = e := by
  induction e with
  | value o => rfl
  | unary op left ih => simp [saturate, Equation.apply, h.1, ih h.2]
  | binary op left right ihl ihr => simp [saturate, Equation.apply, h.1, ihl h.2.1, ihr h.2.2]

theorem compile_apply (op : Operator) (left right : Equation) :
    (apply op left right).compile =
      .op op :: (left.compile ++ if op.isBinary then right.compile else []) := by
  unfold apply
  split
  · rw [compile, if_pos ‹_›]
  · rw [compile, if_neg ‹_›]

theorem compile_saturate (e : Equation) : e.saturate.compile = e.compile := by
  induction e with
  | value o => rfl
  | unary op left ih => rw [saturate, compile_apply, ih, compile, compile]
  | binary op left right ihl ihr => rw [saturate, compile_apply, ihl, ihr, compile]

end Equation

namespace Slot

variable (o o' : Operand) (op op' : Operator)

@[simp] theorem op_beq_op : (Slot.op op == .op op') = (op == op') := by
  change Slot.beq _ _ = _
  rw [Slot.beq]

@[simp] theorem operand_beq_operand : (operand o == operand o') = (o == o') := by
  change Slot.beq _ _ = o.beq o'
  rw [Slot.beq]

@[simp] theorem op_beq_operand : (Slot.op op == operand o) = false := by
  change Slot.beq _ _ = _
  simp [Slot.beq]

@[simp] theorem operand_beq_op : (operand o == Slot.op op) = false := by
  change Slot.beq _ _ = _
  simp [Slot.beq]

end Slot

namespace Equation

variable {e e' : Equation} {op op' : Operator} {left right left' right' : Equation}

theorem unary_beq_unary : (unary op left == unary op' left') = (op == op' && left == left') := rfl

theorem binary_beq_binary :
    (binary op left right == binary op' left' right') =
      (op == op' && left == left' && right == right') := rfl

namespace Saturated

theorem compile_unary (h : (unary op left).Saturated) :
    (unary op left).compile = .op op :: left.compile := by
  rw [compile, h.1, if_neg Bool.false_ne_true, List.append_nil]

theorem compile_binary (h : (binary op left right).Saturated) :
    (binary op left right).compile = .op op :: (left.compile ++ right.compile) := by
  rw [compile, if_pos h.1]

theorem operators_ne (h : (unary op left).Saturated) (h' : (binary op' left' right').Saturated) :
    op ≠ op' := by
  rintro rfl
  exact Bool.false_ne_true (h.1.symm.trans h'.1)

/-- Templates, each with slots behind it, are compared tree by tree and then slot by slot. -/
theorem beq_compile_append (h : e.Saturated) (h' : e'.Saturated) (rest rest' : Script) :
    (e.compile ++ rest == e'.compile ++ rest') = (e == e' && rest == rest') := by
  -- what stands behind an operand is again a template with slots behind it
  induction e generalizing e' rest rest' with
  | value o =>
    cases e' with
    | value o' =>
      rw [compile, compile, List.singleton_append, List.singleton_append, List.cons_beq_cons,
        Slot.operand_beq_operand]
      rfl
    | unary op' left' | binary op' left' right' =>
      rw [compile, compile, List.singleton_append, List.cons_append, List.cons_beq_cons,
        Slot.operand_beq_op]
      rfl
  | unary op left ih =>
    rw [h.compile_unary, List.cons_append]
    cases e' with
    | value o' =>
      rw [compile, List.singleton_append, List.cons_beq_cons, Slot.op_beq_operand]
      rfl
    | unary op' left' =>
      rw [h'.compile_unary, List.cons_append, List.cons_beq_cons, ih h.2 h'.2, Slot.op_beq_op,
        unary_beq_unary, Bool.and_assoc]
    | binary op' left' right' =>
      rw [h'.compile_binary, List.cons_append, List.cons_beq_cons, Slot.op_beq_op,
        beq_false_of_ne (h.operators_ne h')]
      rfl
  | binary op left right ihl ihr =>
    rw [h.compile_binary, List.cons_append, List.append_assoc]
    cases e' with
    | value o' =>
      rw [compile, List.singleton_append, List.cons_beq_cons, Slot.op_beq_operand]
      rfl
    | unary op' left' =>
      rw [h'.compile_unary, List.cons_append, List.cons_beq_cons, Slot.op_beq_op,
        beq_false_of_ne (h'.operators_ne h).symm]
      rfl
    | binary op' left' right' =>
      rw [h'.compile_binary, List.cons_append, List.append_assoc, List.cons_beq_cons,
        ihl h.2.1 h'.2.1, ihr h.2.2 h'.2.2, Slot.op_beq_op, binary_beq_binary, Bool.and_assoc,
        Bool.and_assoc]

end Saturated

end Equation

namespace Script

open Equation

theorem trees_apply {op : Operator} {s rest : Script} {left right : Equation}
    (h : trees (s ++ rest) = left :: (if op.isBinary then [right] else []) ++ trees rest) :
    trees (.op op :: (s ++ rest)) = .apply op left right :: trees rest := by
  rw [trees, h]
  cases hop : op.isBinary <;> simp [Equation.apply, Operator.arity, hop]

/-- A template is read as one tree, whatever comes after it. -/
theorem trees_compile (e : Equation) (rest : Script) :
    trees (e.compile ++ rest) = e.saturate :: trees rest := by
  induction e generalizing rest with
  | value o => rfl
  | unary op left ih =>
    rw [compile, List.cons_append]
    refine trees_apply ?_
    rw [List.append_assoc, ih]
    cases op.isBinary <;> rfl
  | binary op left right ihl ihr =>
    rw [compile, List.cons_append]
    refine trees_apply ?_
    rw [List.append_assoc, ihl]
    cases op.isBinary
    · rfl
    · exact congrArg _ (ihr rest)

/-- A template is no beginning of the template of another tree. -/
theorem saturate_eq_of_compile_prefix {e e' : Equation} (h : e.compile <+: e'.compile) :
    e.saturate = e'.saturate := by
  obtain ⟨rest, hrest⟩ := h
  have hread : e.saturate :: trees rest = e'.saturate :: trees [] := by
    rw [← trees_compile, ← trees_compile, List.append_nil, hrest]
  exact (List.cons.inj hread).1

/-- Whether a template, from its first slot to its last, is the code of a tree. -/
structure IsCode (s : Script) (e : Equation) : Prop where
  saturated : e.Saturated
  compile_eq : e.compile = s

namespace IsCode

variable {s : Script} {e e' : Equation}

theorem unique (h : s.IsCode e) (h' : s.IsCode e') : e = e' := by
  have hprefix : e.compile <+: e'.compile :=
    h.compile_eq.trans h'.compile_eq.symm ▸ List.prefix_rfl
  rw [← h.saturated.saturate_eq, ← h'.saturated.saturate_eq]
  exact saturate_eq_of_compile_prefix hprefix

end IsCode

theorem isCode_compile (e : Equation) : IsCode e.compile e.saturate :=
  ⟨saturated_saturate e, compile_saturate e⟩

/-- The tree at the beginning of a template, and the slots behind it, which are no more than there
were. -/
def readTreeIn : (s : Script) → Equation × {rest : Script // rest.length ≤ s.length}
  | [] => (.value .null, ⟨[], Nat.le_refl 0⟩)
  | .operand o :: rest => (.value o, ⟨rest, Nat.le_succ _⟩)
  | .op op :: s =>
    let left := readTreeIn s
    if op.isBinary then
      let right := readTreeIn left.2
      (.binary op left.1 right.1, ⟨right.2, Nat.le_succ_of_le (Nat.le_trans right.2.2 left.2.2)⟩)
    else (.unary op left.1, ⟨left.2, Nat.le_succ_of_le left.2.2⟩)
termination_by s => s.length
decreasing_by
  · exact Nat.lt_succ_self _
  · exact Nat.lt_succ_of_le left.2.2

/-- Reads the tree at the beginning of a template and hands over the slots behind it. An operator
reads its operands one after the other, and null where there are no more slots. -/
def readTree (s : Script) : Equation × Script := ((readTreeIn s).1, (readTreeIn s).2)

theorem readTree_nil : readTree [] = (.value .null, []) := by
  rw [readTree, readTreeIn]

theorem readTree_operand (o : Operand) (rest : Script) :
    readTree (.operand o :: rest) = (.value o, rest) := by
  rw [readTree, readTreeIn]

theorem readTree_op (op : Operator) (s : Script) :
    readTree (.op op :: s) =
      if op.isBinary then
        (.binary op (readTree s).1 (readTree (readTree s).2).1, (readTree (readTree s).2).2)
      else (.unary op (readTree s).1, (readTree s).2) := by
  rw [readTree, readTreeIn]
  split <;> rfl

theorem length_readTree_le (s : Script) : (readTree s).2.length ≤ s.length := (readTreeIn s).2.2

/-- What is on top of the stack when a template has been read from its end is its first tree, and
below it lie the trees of the slots behind that one. -/
theorem trees_eq_readTree (s : Script) :
    (trees s).headD (.value .null) = (readTree s).1 ∧ (trees s).tail = trees (readTree s).2 := by
  induction hn : s.length using Nat.strongRecOn generalizing s with
  | ind n ih =>
    match s with
    | [] =>
      rw [readTree_nil]
      exact ⟨rfl, rfl⟩
    | .operand o :: rest =>
      rw [readTree_operand]
      exact ⟨rfl, rfl⟩
    | .op op :: s =>
      have shorter : s.length < n := hn ▸ Nat.lt_succ_self _
      have behind : (readTree s).2.length < n := Nat.lt_of_le_of_lt (length_readTree_le s) shorter
      obtain ⟨hleft, hbehind⟩ := ih s.length shorter s rfl
      obtain ⟨hright, hrest⟩ := ih (readTree s).2.length behind (readTree s).2 rfl
      rw [readTree_op, trees, List.headD_cons, List.tail_cons, hleft, hbehind, hright]
      cases hop : op.isBinary with
      | false => simp [Equation.apply, Operator.arity, hop, hbehind]
      | true =>
        have two : (trees s).drop 2 = (trees s).tail.tail := by
          rw [← List.drop_one, ← List.drop_one, List.drop_drop]
        simp [Equation.apply, Operator.arity, hop, two, hbehind, hrest]

/-- Both ways of reading give the same tree of any template, also of one that is no code. -/
theorem inspect_eq_readTree (s : Script) : inspect s = (readTree s).1 := (trees_eq_readTree s).1

/-- A template is used up to its last slot and no further. -/
theorem readTree_compile (e : Equation) (rest : Script) :
    readTree (e.compile ++ rest) = (e.saturate, rest) := by
  induction e generalizing rest with
  | value o => exact readTree_operand o rest
  | unary op left ih =>
    rw [compile, List.cons_append, readTree_op]
    cases hop : op.isBinary with
    | false => simp [ih, saturate, Equation.apply, hop]
    | true => simp [ih, readTree_operand, saturate, Equation.apply, hop]
  | binary op left right ihl ihr =>
    rw [compile, List.cons_append, readTree_op]
    cases hop : op.isBinary with
    | false => simp [ihl, saturate, Equation.apply, hop]
    | true => simp [ihl, ihr, saturate, Equation.apply, hop]

/-- Inspecting a compiled tree gives its normal form back and uses up the template. So trees are
compiled to one template, or to equal ones, just when their normal forms are one, or equal. -/
theorem inspect_compile (e : Equation) :
    inspect e.compile = e.saturate ∧
      (∀ rest, readTree (e.compile ++ rest) = (inspect e.compile, rest)) ∧
      ∀ e' : Equation, (e.compile = e'.compile ↔ e.saturate = e'.saturate) ∧
        (e.compile == e'.compile) = (e.saturate == e'.saturate) := by
  have hinspect : inspect e.compile = e.saturate := by
    rw [inspect_eq_readTree, ← List.append_nil e.compile, readTree_compile]
  refine ⟨hinspect, fun rest => hinspect ▸ readTree_compile e rest, fun e' => ⟨?_, ?_⟩⟩
  · constructor
    · intro h
      exact saturate_eq_of_compile_prefix (h ▸ List.prefix_rfl)
    · intro h
      rw [← compile_saturate e, ← compile_saturate e', h]
  · have hbeq := (saturated_saturate e).beq_compile_append (saturated_saturate e') [] []
    rw [compile_saturate, compile_saturate, List.append_nil, List.append_nil] at hbeq
    rw [hbeq]
    exact Bool.and_true _

/-- A sum with one operand and a negation with two. -/
example :
    inspect (Equation.binary .lnot (.unary .add (.value (.int 1))) (.value .nothing)).compile =
      .unary .lnot (.binary .add (.value (.int 1)) (.value .null)) := rfl

end Script

end DocPath
