import DocPath.Path.Parser
import Mathlib.Data.List.GetD
import Mathlib.Data.List.Induction

/-!
# How a run of operators is bracketed

A run of operands with operators between them is joined step by step, the tightest operator
first. Here the outcome is described at once: it is the bracketing of the run in which no
operator stands below one that binds more tightly, and on the right below none that binds
alike. Every run has such a bracketing, it has no other, and joining builds it.
-/

namespace DocPath

/-- Two ways to split a list at an element: at the same one, or at one of two that are apart. -/
theorem append_cons_cases {α : Type} {xs xs' ys ys' : List α} {x x' : α}
    (h : xs ++ x :: ys = xs' ++ x' :: ys') :
    (xs = xs' ∧ x = x' ∧ ys = ys') ∨
      (∃ between, xs' = xs ++ x :: between ∧ ys = between ++ x' :: ys') ∨
      ∃ between, xs = xs' ++ x' :: between ∧ ys' = between ++ x :: ys := by
  rcases List.append_eq_append_iff.mp h with ⟨between, hxs, hrest⟩ | ⟨between, hxs, hrest⟩
  · cases between with
    | nil =>
      obtain ⟨hx, hys⟩ := List.cons.inj hrest
      rw [List.append_nil] at hxs
      exact .inl ⟨hxs.symm, hx, hys⟩
    | cons y between =>
      obtain ⟨rfl, hys⟩ := List.cons.inj hrest
      exact .inr (.inl ⟨between, hxs, hys⟩)
  · cases between with
    | nil =>
      obtain ⟨hx, hys⟩ := List.cons.inj hrest
      rw [List.append_nil] at hxs
      exact .inl ⟨hxs, hx.symm, hys.symm⟩
    | cons y between =>
      obtain ⟨rfl, hys⟩ := List.cons.inj hrest
      exact .inr (.inr ⟨between, hxs, hys⟩)

/-- A tree of operators over operands that are not looked into. -/
inductive Bracketing where
  | leaf (e : Equation)
  | node (op : Operator) (left right : Bracketing)

namespace Bracketing

def equation : Bracketing → Equation
  | leaf e => e
  | node op left right => .binary op left.equation right.equation

def first : Bracketing → Equation
  | leaf e => e
  | node _ left _ => left.first

/-- The operators from left to right, each with the operand after it. -/
def run : Bracketing → List (Operator × Equation)
  | leaf _ => []
  | node op left right => left.run ++ (op, right.first) :: right.run

/-- Whether the operators on the left bind at least as tightly as the one above them, and
those on the right more tightly. -/
def Lawful : Bracketing → Prop
  | leaf _ => True
  | node op left right =>
    (∀ r ∈ left.run, r.1.precedence ≤ op.precedence) ∧
      (∀ r ∈ right.run, r.1.precedence < op.precedence) ∧ left.Lawful ∧ right.Lawful

theorem eq_leaf_of_run {t : Bracketing} (h : t.run = []) : t = leaf t.first := by
  cases t with
  | leaf e => rfl
  | node op left right => simp [run] at h

/-- A bracketing of a run that goes on with one more operator. -/
def extend (op : Operator) (e : Equation) : Bracketing → Bracketing
  | leaf d => node op (leaf d) (leaf e)
  | node o left right =>
    if o.precedence ≤ op.precedence then node op (node o left right) (leaf e)
    else node o left (extend op e right)

theorem extend_first (op : Operator) (e : Equation) (t : Bracketing) :
    (t.extend op e).first = t.first := by
  cases t with
  | leaf d => rfl
  | node o left right =>
    unfold extend
    split <;> rfl

theorem extend_run (op : Operator) (e : Equation) (t : Bracketing) :
    (t.extend op e).run = t.run ++ [(op, e)] := by
  induction t with
  | leaf d => rfl
  | node o left right _ ih =>
    unfold extend
    split
    · rfl
    · simp [run, ih, extend_first]

theorem Lawful.extend (op : Operator) (e : Equation) {t : Bracketing} (h : t.Lawful) :
    (t.extend op e).Lawful := by
  induction t with
  | leaf d => exact ⟨nofun, nofun, trivial, trivial⟩
  | node o left right _ ih =>
    obtain ⟨hleft, hright, hl, hr⟩ := h
    unfold Bracketing.extend
    split
    · rename_i hle
      refine ⟨fun r hr => ?_, nofun, ⟨hleft, hright, hl, ‹_›⟩, trivial⟩
      rcases List.mem_append.mp hr with hr | hr
      · exact Nat.le_trans (hleft r hr) hle
      · rcases List.mem_cons.mp hr with rfl | hr
        · exact hle
        · exact Nat.le_trans (Nat.le_of_lt (hright r hr)) hle
    · rename_i hlt
      refine ⟨hleft, fun r hr => ?_, hl, ih hr⟩
      rw [extend_run] at hr
      rcases List.mem_append.mp hr with hr | hr
      · exact hright r hr
      · obtain rfl := List.mem_singleton.mp hr
        exact Nat.lt_of_not_le hlt

theorem exists_lawful (left : Equation) (run : List (Operator × Equation)) :
    ∃ t : Bracketing, t.Lawful ∧ t.first = left ∧ t.run = run := by
  induction run using List.reverseRecOn with
  | nil => exact ⟨leaf left, trivial, rfl, rfl⟩
  | append_singleton run r ih =>
    obtain ⟨t, ht, hfirst, hrun⟩ := ih
    refine ⟨t.extend r.1 r.2, ht.extend _ _, ?_, ?_⟩
    · rw [extend_first, hfirst]
    · rw [extend_run, hrun]

section unique

variable {op op' : Operator} {left right left' right' t t' : Bracketing}

/-- The root of one lawful tree does not stand on the left in another one whose root stands on the
right in it. It would bind at least as tightly as that root, and that root more tightly than it. -/
theorem Lawful.roots_not_crossed (h : (node op left right).Lawful)
    (h' : (node op' left' right').Lawful) {between : List (Operator × Equation)}
    (hleft : left'.run = left.run ++ (op, right.first) :: between)
    (hright : right.run = between ++ (op', right'.first) :: right'.run) : False := by
  have tight : op.precedence ≤ op'.precedence := h'.1 (op, right.first) (by simp [hleft])
  have loose : op'.precedence < op.precedence := h.2.1 (op', right'.first) (by simp [hright])
  omega

theorem Lawful.root_eq (h : (node op left right).Lawful) (h' : (node op' left' right').Lawful)
    (hrun : (node op left right).run = (node op' left' right').run) :
    left.run = left'.run ∧ (op, right.first) = (op', right'.first) ∧ right.run = right'.run := by
  rcases append_cons_cases hrun with same | ⟨between, hleft, hright⟩ | ⟨between, hleft, hright⟩
  · exact same
  · exact (h.roots_not_crossed h' hleft hright).elim
  · exact (h'.roots_not_crossed h hleft hright).elim

/-- A run has no other lawful bracketing. -/
theorem Lawful.eq_of_run (h : t.Lawful) (h' : t'.Lawful) (hfirst : t.first = t'.first)
    (hrun : t.run = t'.run) : t = t' := by
  induction t generalizing t' with
  | leaf e =>
    rw [eq_leaf_of_run (t := t') hrun.symm, ← hfirst]
    rfl
  | node op left right ihl ihr =>
    cases t' with
    | leaf e' => simp [run] at hrun
    | node op' left' right' =>
      obtain ⟨hleft, hroot, hright⟩ := h.root_eq h' hrun
      obtain ⟨rfl, hmiddle⟩ := Prod.mk.inj hroot
      rw [ihl h.2.2.1 h'.2.2.1 hfirst hleft, ihr h.2.2.2 h'.2.2.2 hmiddle hright]

end unique

end Bracketing

/-- The operator binds more tightly than those before it, and at least as tightly as those after
it. -/
structure IsTightest (before : List Operator) (op : Operator) (after : List Operator) : Prop where
  before : ∀ o ∈ before, op.precedence < o.precedence
  after : ∀ o ∈ after, op.precedence ≤ o.precedence

/-- The scan goes on with the first of the tightest operators that it has passed. -/
theorem tightestFrom_spec {before between : List Operator} {best : Operator}
    (h : IsTightest before best between) (ops : List Operator) :
    ∃ before' op after, before ++ best :: (between ++ ops) = before' ++ op :: after ∧
      tightestFrom best before.length (before.length + 1 + between.length) ops = before'.length ∧
      IsTightest before' op after := by
  induction ops generalizing before best between with
  | nil => exact ⟨before, best, between, by rw [List.append_nil], rfl, h⟩
  | cons o ops ih =>
    rw [tightestFrom]
    split
    · rename_i tighter
      have next : IsTightest (before ++ best :: between) o [] := by
        refine ⟨List.forall_mem_append.mpr ⟨fun x hx => ?_, ?_⟩, nofun⟩
        · exact Nat.lt_trans tighter (h.before x hx)
        · exact List.forall_mem_cons.mpr
            ⟨tighter, fun x hx => Nat.lt_of_lt_of_le tighter (h.after x hx)⟩
      have hfound := ih next
      simp only [List.length_append, List.length_cons, List.length_nil, List.nil_append,
        List.append_assoc, List.cons_append, Nat.add_zero] at hfound
      rwa [Nat.add_right_comm, Nat.add_assoc before.length]
    · rename_i looser
      have next : IsTightest before best (between ++ [o]) := by
        refine ⟨h.before, List.forall_mem_append.mpr ⟨h.after, ?_⟩⟩
        exact List.forall_mem_singleton.mpr (Nat.le_of_not_lt looser)
      have hfound := ih next
      rwa [List.length_append, List.append_assoc, List.singleton_append] at hfound

theorem tightest_spec {ops : List Operator} (h : ops ≠ []) :
    ∃ before op after, ops = before ++ op :: after ∧ tightest ops = before.length ∧
      IsTightest before op after := by
  cases ops with
  | nil => exact absurd rfl h
  | cons op ops => exact @tightestFrom_spec [] [] op ⟨nofun, nofun⟩ ops

theorem joinAt_append_left {i : Nat} {op : Operator} {operands : List Equation}
    (h : i + 1 < operands.length) (rest : List Equation) :
    joinAt i op (operands ++ rest) = joinAt i op operands ++ rest := by
  have hi : i < (operands.eraseIdx (i + 1)).length := by
    rw [List.length_eraseIdx_of_lt h]
    omega
  simp only [joinAt]
  rw [List.getD_append _ _ _ _ h, List.getD_append _ _ _ _ (Nat.lt_of_succ_lt h),
    List.eraseIdx_append_of_lt_length h, List.set_append_left _ _ hi]

theorem joinAt_append_right (operands : List Equation) (i : Nat) (op : Operator)
    (rest : List Equation) :
    joinAt (operands.length + i) op (operands ++ rest) = operands ++ joinAt i op rest := by
  have hi : operands.length ≤ operands.length + i := Nat.le_add_right _ _
  simp only [joinAt]
  rw [Nat.add_assoc, List.getD_append_right _ _ _ _ hi,
    List.getD_append_right _ _ _ _ (Nat.le_add_right _ _),
    List.eraseIdx_append_of_length_le (Nat.le_add_right _ _), List.set_append_right _ _ hi,
    Nat.add_sub_cancel_left, Nat.add_sub_cancel_left]

namespace Bracketing

variable {op root : Operator} {before after : List Operator} {t t' left right : Bracketing}

def operands (t : Bracketing) : List Equation := t.first :: t.run.map (·.2)

def operators (t : Bracketing) : List Operator := t.run.map (·.1)

theorem operands_node (op : Operator) (left right : Bracketing) :
    (node op left right).operands = left.operands ++ right.operands := by
  simp [operands, first, run]

theorem operators_node (op : Operator) (left right : Bracketing) :
    (node op left right).operators = left.operators ++ op :: right.operators := by
  simp [operators, run]

theorem length_operands (t : Bracketing) : t.operands.length = t.operators.length + 1 := by
  simp [operands, operators]

theorem eq_leaf_of_operators (h : t.operators = []) : t = leaf t.first :=
  eq_leaf_of_run (List.map_eq_nil_iff.mp h)

theorem lawful_node_iff : (node op left right).Lawful ↔
    (∀ o ∈ left.operators, o.precedence ≤ op.precedence) ∧
      (∀ o ∈ right.operators, o.precedence < op.precedence) ∧ left.Lawful ∧ right.Lawful := by
  simp only [operators, List.forall_mem_map, Lawful]

/-- A bracketing in which one operator has been joined with its operands, which are one operand
now. -/
structure JoinedAt (before : List Operator) (op : Operator) (after : List Operator)
    (t t' : Bracketing) : Prop where
  lawful : t'.Lawful
  equation : t'.equation = t.equation
  operators : t'.operators = before ++ after
  operands : t'.operands = joinAt before.length op t.operands

theorem JoinedAt.mem_operators {o : Operator} (joined : JoinedAt before op after t t')
    (hops : t.operators = before ++ op :: after) (ho : o ∈ t'.operators) : o ∈ t.operators := by
  rw [joined.operators] at ho
  rw [hops]
  exact ((List.sublist_cons_self op after).append_left before).subset ho

/-- Where the root is the first of the tightest operators, nothing has been left to join on either
side of it. -/
theorem joinedAt_root (h : (node op left right).Lawful)
    (tight : IsTightest left.operators op right.operators) :
    ∃ t', JoinedAt left.operators op right.operators (node op left right) t' := by
  obtain ⟨hleft, hright, -, -⟩ := lawful_node_iff.mp h
  have noneL : left.operators = [] := List.eq_nil_iff_forall_not_mem.mpr fun o ho =>
    Nat.not_lt_of_le (hleft o ho) (tight.before o ho)
  have noneR : right.operators = [] := List.eq_nil_iff_forall_not_mem.mpr fun o ho =>
    Nat.not_lt_of_le (tight.after o ho) (hright o ho)
  rw [noneL, noneR, eq_leaf_of_operators noneL, eq_leaf_of_operators noneR]
  exact ⟨leaf (.binary op left.first right.first), trivial, rfl, rfl, rfl⟩

theorem JoinedAt.inLeft (h : (node root left right).Lawful)
    (hops : left.operators = before ++ op :: after) (joined : JoinedAt before op after left t') :
    JoinedAt before op (after ++ root :: right.operators) (node root left right)
      (node root t' right) where
  lawful := by
    obtain ⟨hleft, hright, -, hr⟩ := lawful_node_iff.mp h
    exact lawful_node_iff.mpr
      ⟨fun o ho => hleft o (joined.mem_operators hops ho), hright, joined.lawful, hr⟩
  equation := by
    rw [Bracketing.equation, joined.equation]
    rfl
  operators := by rw [operators_node, joined.operators, List.append_assoc]
  operands := by
    have inside : before.length + 1 < left.operands.length := by
      rw [length_operands, hops, List.length_append, List.length_cons]
      omega
    rw [operands_node, operands_node, joined.operands, joinAt_append_left inside]

theorem JoinedAt.inRight (h : (node root left right).Lawful)
    (hops : right.operators = before ++ op :: after) (joined : JoinedAt before op after right t') :
    JoinedAt (left.operators ++ root :: before) op after (node root left right)
      (node root left t') where
  lawful := by
    obtain ⟨hleft, hright, hl, -⟩ := lawful_node_iff.mp h
    exact lawful_node_iff.mpr
      ⟨hleft, fun o ho => hright o (joined.mem_operators hops ho), hl, joined.lawful⟩
  equation := by
    rw [Bracketing.equation, joined.equation]
    rfl
  operators := by rw [operators_node, joined.operators, List.append_assoc, List.cons_append]
  operands := by
    have position : (left.operators ++ root :: before).length =
        left.operands.length + before.length := by
      rw [length_operands, List.length_append, List.length_cons]
      omega
    rw [operands_node, operands_node, joined.operands, position, joinAt_append_right]

/-- In a lawful bracketing, the first of the tightest operators stands between two operands and can
be joined with them. -/
theorem Lawful.exists_joinedAt (h : t.Lawful) (hops : t.operators = before ++ op :: after)
    (tight : IsTightest before op after) : ∃ t', JoinedAt before op after t t' := by
  induction t generalizing before after with
  | leaf e => simp [Bracketing.operators, run] at hops
  | node root left right ihl ihr =>
    obtain ⟨-, -, hl, hr⟩ := lawful_node_iff.mp h
    rw [operators_node] at hops
    rcases append_cons_cases hops with
      ⟨rfl, rfl, rfl⟩ | ⟨between, rfl, hsplit⟩ | ⟨between, hsplit, rfl⟩
    · exact joinedAt_root h tight
    · have tightR : IsTightest between op after :=
        ⟨fun o ho => tight.before o (List.mem_append_right _ (List.mem_cons_of_mem _ ho)),
          tight.after⟩
      obtain ⟨right', joined⟩ := ihr hr hsplit tightR
      exact ⟨_, joined.inRight h hsplit⟩
    · have tightL : IsTightest before op between :=
        ⟨tight.before, fun o ho => tight.after o (List.mem_append_left _ ho)⟩
      obtain ⟨left', joined⟩ := ihl hl hsplit tightL
      exact ⟨_, joined.inLeft h hsplit⟩

theorem joinOperators_eq {n : Nat} (h : t.Lawful) (hn : t.operators.length = n) :
    joinOperators n t.operands t.operators = [t.equation] := by
  induction n generalizing t with
  | zero =>
    rw [eq_leaf_of_operators (List.length_eq_zero_iff.mp hn)]
    rfl
  | succ n ih =>
    obtain ⟨before, op, after, hops, hposition, tight⟩ :=
      tightest_spec (List.ne_nil_of_length_eq_add_one hn)
    obtain ⟨t', joined⟩ := h.exists_joinedAt hops tight
    have several : ¬t.operands.length ≤ 1 := by
      rw [length_operands, hn]
      omega
    have found : t.operators[before.length]? = some op := by
      rw [hops, List.getElem?_append_right (Nat.le_refl _), Nat.sub_self]
      rfl
    have others : t.operators.eraseIdx before.length = t'.operators := by
      rw [hops, List.eraseIdx_append_of_length_le (Nat.le_refl _), Nat.sub_self, joined.operators]
      rfl
    have fewer : t'.operators.length = n := by
      rw [hops, List.length_append, List.length_cons] at hn
      rw [joined.operators, List.length_append]
      omega
    rw [joinOperators, hposition]
    simp only [found, if_neg several, others]
    rw [← joined.operands, ← joined.equation]
    exact ih joined.lawful fewer

theorem foldOperands_eq (h : t.Lawful) :
    foldOperands t.operands t.operators = t.equation := by
  rw [foldOperands, joinOperators_eq h rfl]
  rfl

theorem foldOperations_eq (h : t.Lawful) : foldOperations t.first t.run = t.equation :=
  foldOperands_eq h

end Bracketing

/-- Operands with operators between them are joined to their lawful bracketing, and they have only
one. -/
theorem foldOperands_lawful {operands : List Equation} {ops : List Operator}
    (h : operands.length = ops.length + 1) :
    ∃ t : Bracketing, foldOperands operands ops = t.equation ∧
      (t.Lawful ∧ t.operands = operands ∧ t.operators = ops) ∧
      ∀ t' : Bracketing, t'.Lawful → t'.operands = operands → t'.operators = ops → t' = t := by
  obtain ⟨left, rest, rfl⟩ := List.exists_cons_of_length_eq_add_one h
  have hlength : rest.length = ops.length := Nat.succ.inj h
  obtain ⟨t, hlawful, hfirst, hrun⟩ := Bracketing.exists_lawful left (ops.zip rest)
  have hoperators : t.operators = ops := by
    rw [Bracketing.operators, hrun, List.map_fst_zip (Nat.le_of_eq hlength.symm)]
  have hoperands : t.operands = left :: rest := by
    rw [Bracketing.operands, hfirst, hrun, List.map_snd_zip (Nat.le_of_eq hlength)]
  refine ⟨t, ?_, ⟨hlawful, hoperands, hoperators⟩, fun t' hlawful' hoperands' hoperators' => ?_⟩
  · rw [← hoperands, ← hoperators, Bracketing.foldOperands_eq hlawful]
  · obtain ⟨hfirst', hrest'⟩ := List.cons.inj hoperands'
    refine hlawful'.eq_of_run hlawful (hfirst'.trans hfirst.symm) ?_
    rw [hrun]
    exact List.zip_of_prod hoperators' hrest'

/-- A product binds more tightly than the sum before it, a difference as tightly. -/
theorem foldOperands_lawful_of_mixed :
    let e := fun i => Bracketing.leaf (.value (.int i))
    let t := Bracketing.node .subtract (.node .add (e 1) (.node .multiply (e 2) (e 3))) (e 4)
    t.Lawful ∧ foldOperands t.operands t.operators = t.equation := by
  intro e t
  have hlawful : t.Lawful := by
    simp [t, e, Bracketing.Lawful, Bracketing.run, Operator.precedence]
  obtain ⟨u, hfold, -, unique⟩ := foldOperands_lawful t.length_operands
  rw [hfold, ← unique t hlawful rfl rfl]
  exact ⟨hlawful, rfl⟩

/-- Parentheses keep an operand together, whatever stands in it. -/
example (a b c : Equation) :
    foldOperands [a, .binary .lor b c, c] [.multiply, .divide] =
      .binary .divide (.binary .multiply a (.binary .lor b c)) c := rfl

end DocPath
