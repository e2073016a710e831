import DocPath.Path.Render
import DocPath.Proofs.Script.Joining
import DocPath.Proofs.Script.Templates

/-!
# How a tree is written

A tree whose operators have their operands is written as a run of operands with infix operators
between them. Functions, `!` and what stands in parentheses are operands of the run, the rest of the
tree is a bracketing of it. The parentheses are placed so that this bracketing is the lawful one.
-/

namespace DocPath

namespace Operator

def isInfix (op : Operator) : Bool := op.isBinary && !op.isFunction

theorem isBinary_of_isInfix {op : Operator} (h : op.isInfix) : op.isBinary :=
  (Bool.and_eq_true_iff.mp h).1

end Operator

theorem Piece.join_of_unary {op : Operator} (h : op.isBinary = false) (left right right' : Piece) :
    Piece.join op left right = Piece.join op left right' := by
  cases op <;> first | rfl | cases h

theorem Piece.join_infix {op : Operator} (h : op.isInfix) (left right : Piece) :
    (Piece.join op left right).text =
      left.under op false ++ ' ' :: (op.name.toList ++ ' ' :: right.under op true) := by
  cases op <;> first | rfl | cases h

theorem Piece.join_call {op : Operator} (hop : op.isFunction) (hone : op.isBinary = false)
    (left right : Piece) :
    (Piece.join op left right).text = op.name.toList ++ '(' :: (left.text ++ [')']) := by
  cases op <;> first | rfl | exact absurd hop (by decide) | cases hone

theorem Piece.join_callTwo {op : Operator} (hop : op.isFunction) (htwo : op.isBinary)
    (left right : Piece) :
    (Piece.join op left right).text =
      op.name.toList ++ '(' :: (left.text ++ ',' :: ' ' :: (right.text ++ [')'])) := by
  cases op <;> first | rfl | exact absurd hop (by decide) | cases htwo

theorem Piece.needsParens_infix {child parent : Operator} (hchild : child.isInfix)
    (hparent : parent.isInfix) (right : Bool) :
    Piece.needsParens child parent right =
      (child.precedence > parent.precedence ||
        (right && child.precedence = parent.precedence)) := by
  have hlnot : child ≠ .lnot := by
    rintro rfl
    cases hchild
  simp only [Operator.isInfix, Bool.and_eq_true, Bool.not_eq_true'] at hchild hparent
  simp [Piece.needsParens, hchild.2, hparent.2, hlnot]

/-- Only what is written with operators between operands is ever put in parentheses. -/
theorem Piece.isInfix_of_needsParens {child parent : Operator} {right : Bool}
    (h : Piece.needsParens child parent right) : child.isInfix := by
  cases child <;> first | rfl | cases h

namespace Equation

def top? : Equation → Option Operator
  | .value _ => none
  | .unary op _ | .binary op _ _ => some op

def piece : Equation → Piece
  | .value o => ⟨none, o.write⟩
  | .unary op left => .join op left.piece .missing
  | .binary op left right => .join op left.piece right.piece

theorem top_piece (e : Equation) : e.piece.top = e.top? := by
  cases e <;> rfl

theorem pieces_op {op : Operator} {s rest : Script} {left right : Piece}
    (h : pieces (s ++ rest) = left :: (if op.isBinary then [right] else []) ++ pieces rest) :
    pieces (.op op :: (s ++ rest)) = .join op left right :: pieces rest := by
  rw [pieces, h]
  cases hop : op.isBinary with
  | true => simp [Operator.arity, hop]
  | false => simp [Operator.arity, hop, Piece.join_of_unary hop left _ right]

/-- A tree is written from its template as one piece, whatever comes after it. -/
theorem pieces_compile (e : Equation) (rest : Script) :
    pieces (e.compile ++ rest) = e.piece :: pieces rest := by
  induction e generalizing rest with
  | value o => rfl
  | unary op left ih =>
    rw [compile, List.cons_append]
    refine pieces_op ?_
    rw [List.append_assoc, ih]
    cases op.isBinary <;> rfl
  | binary op left right ihl ihr =>
    rw [compile, List.cons_append]
    refine pieces_op ?_
    rw [List.append_assoc, ihl]
    cases op.isBinary
    · rfl
    · exact congrArg _ (ihr rest)

/-- The text of a template is that of its tree. -/
theorem close_pieces_compile (e : Equation) :
    Piece.close (pieces e.compile) = '(' :: (e.piece.text ++ [')']) := by
  have hpieces := pieces_compile e []
  rw [List.append_nil] at hpieces
  rw [Piece.close, hpieces, List.headD_cons]

/-- Whether a tree is written as operands with an operator between them. -/
def isRun : Equation → Bool
  | .binary op _ _ => op.isInfix
  | _ => false

/-- A tree as an operand: in parentheses if it is written as a run. -/
def operandText (e : Equation) : List Char :=
  if e.isRun then '(' :: (e.piece.text ++ [')']) else e.piece.text

theorem operandText_of_isRun {e : Equation} (h : e.isRun) :
    e.operandText = '(' :: (e.piece.text ++ [')']) := if_pos h

theorem operandText_of_not_isRun {e : Equation} (h : e.isRun = false) :
    e.operandText = e.piece.text := if_neg (by simp [h])

def isEnclosed (parent : Operator) (right : Bool) (e : Equation) : Bool :=
  match e.top? with
  | some child => Piece.needsParens child parent right
  | none => false

theorem Saturated.isRun_of_isInfix {e : Equation} (h : e.Saturated) {op : Operator}
    (htop : e.top? = some op) (hop : op.isInfix) : e.isRun := by
  cases e with
  | value o => cases htop
  | unary op' left =>
    cases htop
    exact absurd (h.1.symm.trans (Operator.isBinary_of_isInfix hop)) Bool.false_ne_true
  | binary op' left right =>
    cases htop
    exact hop

theorem Saturated.isRun_of_isEnclosed {e : Equation} (h : e.Saturated) {parent : Operator}
    {right : Bool} (henclosed : e.isEnclosed parent right) : e.isRun := by
  rw [isEnclosed] at henclosed
  cases htop : e.top? with
  | none =>
    rw [htop] at henclosed
    cases henclosed
  | some op =>
    rw [htop] at henclosed
    exact h.isRun_of_isInfix htop (Piece.isInfix_of_needsParens henclosed)

theorem under_piece {e : Equation} (h : e.Saturated) (parent : Operator) (right : Bool) :
    e.piece.under parent right =
      if e.isEnclosed parent right then e.operandText else e.piece.text := by
  have henclosed : e.isEnclosed parent right → e.isRun := h.isRun_of_isEnclosed
  rw [Piece.under, top_piece]
  unfold isEnclosed at henclosed ⊢
  cases htop : e.top? with
  | none => rfl
  | some child =>
    rw [htop] at henclosed
    dsimp only at henclosed ⊢
    split
    · rw [operandText_of_isRun (henclosed ‹_›)]
    · rfl

/-- How the run that a tree is written as is bracketed in the tree. -/
def bracketing : Equation → Bracketing
  | .binary op left right =>
    if op.isInfix then
      .node op (if left.isEnclosed op false then .leaf left else left.bracketing)
        (if right.isEnclosed op true then .leaf right else right.bracketing)
    else .leaf (.binary op left right)
  | e => .leaf e

/-- The bracketing of a tree below an operator, where it may stand in parentheses. -/
def bracketingBelow (parent : Operator) (right : Bool) (e : Equation) : Bracketing :=
  if e.isEnclosed parent right then .leaf e else e.bracketing

theorem bracketing_binary {op : Operator} (h : op.isInfix) (left right : Equation) :
    (binary op left right).bracketing =
      .node op (left.bracketingBelow op false) (right.bracketingBelow op true) := if_pos h

theorem bracketing_of_not_isRun {e : Equation} (h : e.isRun = false) : e.bracketing = .leaf e := by
  cases e with
  | binary op left right => exact if_neg (by simpa [isRun] using h)
  | _ => rfl

/-- What holds of trees that are no runs, and of a run if it holds of both its sides, holds of
every tree. -/
@[elab_as_elim]
theorem runInduction {motive : Equation → Prop} (leaf : ∀ e, e.isRun = false → motive e)
    (run : ∀ op left right, op.isInfix → motive left → motive right →
      motive (.binary op left right)) (e : Equation) : motive e := by
  induction e with
  | value o => exact leaf _ rfl
  | unary op left => exact leaf _ rfl
  | binary op left right ihl ihr =>
    cases hop : op.isInfix with
    | false => exact leaf _ hop
    | true => exact run op left right hop ihl ihr

theorem equation_bracketing (e : Equation) : e.bracketing.equation = e := by
  have below : ∀ {t : Equation} (op : Operator) (right : Bool), t.bracketing.equation = t →
      (t.bracketingBelow op right).equation = t := by
    intro t op right ht
    rw [bracketingBelow]
    split
    · rfl
    · exact ht
  induction e using runInduction with
  | leaf e h =>
    rw [bracketing_of_not_isRun h]
    rfl
  | run op left right hop ihl ihr =>
    rw [bracketing_binary hop, Bracketing.equation, below op false ihl, below op true ihr]

end Equation

namespace Bracketing

theorem mem_operands_node {op : Operator} {left right : Bracketing} {e : Equation} :
    e ∈ (node op left right).operands ↔ e ∈ left.operands ∨ e ∈ right.operands := by
  rw [operands_node, List.mem_append]

/-- A run as it is written: a blank on both sides of every operator. -/
def writeRun (run : List (Operator × Equation)) : List Char :=
  run.flatMap fun r => ' ' :: (r.1.name.toList ++ ' ' :: r.2.operandText)

def text (t : Bracketing) : List Char := t.first.operandText ++ writeRun t.run

theorem text_leaf (e : Equation) : (leaf e).text = e.operandText := List.append_nil _

theorem text_node (op : Operator) (left right : Bracketing) :
    (node op left right).text =
      left.text ++ ' ' :: (op.name.toList ++ ' ' :: right.text) := by
  simp [text, first, run, writeRun]

end Bracketing

namespace Equation

variable {e : Equation}

/-- The text of a tree is that of its run. -/
theorem text_bracketing (h : e.Saturated) : e.bracketing.text = e.piece.text := by
  have below : ∀ {t : Equation} (op : Operator) (right : Bool), t.Saturated →
      t.bracketing.text = t.piece.text →
        (t.bracketingBelow op right).text = t.piece.under op right := by
    intro t op right ht htext
    rw [under_piece ht, bracketingBelow]
    split
    · exact Bracketing.text_leaf t
    · exact htext
  induction e using runInduction with
  | leaf e hleaf =>
    rw [bracketing_of_not_isRun hleaf, Bracketing.text_leaf, operandText_of_not_isRun hleaf]
  | run op left right hop ihl ihr =>
    rw [bracketing_binary hop, Bracketing.text_node, below op false h.2.1 (ihl h.2.1),
      below op true h.2.2 (ihr h.2.2), piece, Piece.join_infix hop]

/-- An operand of a run is the whole tree, or stands on one of its sides. -/
theorem mem_operands_bracketing {op : Operator} {left right : Equation} (hop : op.isInfix)
    {x : Equation} (hx : x ∈ (binary op left right).bracketing.operands) :
    (x = left ∨ x ∈ left.bracketing.operands) ∨ x = right ∨ x ∈ right.bracketing.operands := by
  have below : ∀ {t : Equation} {right : Bool}, x ∈ (t.bracketingBelow op right).operands →
      x = t ∨ x ∈ t.bracketing.operands := by
    intro t right hmem
    rw [bracketingBelow] at hmem
    split at hmem
    · exact .inl (List.mem_singleton.mp hmem)
    · exact .inr hmem
  rw [bracketing_binary hop, Bracketing.mem_operands_node] at hx
  exact hx.imp below below

/-- Below an operator, what stands without parentheses binds at least as tightly, and on the
right more tightly. -/
theorem precedence_of_not_isEnclosed {parent : Operator} (hparent : parent.isInfix)
    {right : Bool} (hbare : e.isEnclosed parent right = false) {op : Operator}
    (htop : e.top? = some op) (hop : op.isInfix) :
    op.precedence ≤ parent.precedence ∧ (right = true → op.precedence < parent.precedence) := by
  rw [isEnclosed, htop] at hbare
  dsimp only at hbare
  rw [Piece.needsParens_infix hop hparent] at hbare
  simp only [gt_iff_lt, Bool.or_eq_false_iff, decide_eq_false_iff_not, Nat.not_lt,
    Bool.and_eq_false_iff] at hbare
  refine ⟨hbare.1, fun hright => ?_⟩
  have := hbare.2.resolve_left (by simp [hright])
  omega

/-- The operators of a run are infix and bind at least as tightly as the one at the top. -/
theorem of_mem_run {r : Operator × Equation} (hr : r ∈ e.bracketing.run) :
    r.1.isInfix ∧ ∃ op, e.top? = some op ∧ op.isInfix ∧ r.1.precedence ≤ op.precedence := by
  induction e using runInduction with
  | leaf e hleaf =>
    rw [bracketing_of_not_isRun hleaf] at hr
    cases hr
  | run op left right hop ihl ihr =>
    have below : ∀ {t : Equation} {right : Bool},
        (r ∈ t.bracketing.run → r.1.isInfix ∧
          ∃ o, t.top? = some o ∧ o.isInfix ∧ r.1.precedence ≤ o.precedence) →
        r ∈ (t.bracketingBelow op right).run →
          r.1.isInfix ∧ r.1.precedence ≤ op.precedence := by
      intro t right ih hmem
      rw [bracketingBelow] at hmem
      split at hmem
      · cases hmem
      · rename_i hbare
        obtain ⟨hinner, o, htop, ho, hle⟩ := ih hmem
        have := precedence_of_not_isEnclosed hop (by simpa using hbare) htop ho
        exact ⟨hinner, Nat.le_trans hle this.1⟩
    rw [bracketing_binary hop, Bracketing.run] at hr
    rcases List.mem_append.mp hr with hr | hr
    · exact ⟨(below ihl hr).1, op, rfl, hop, (below ihl hr).2⟩
    · rcases List.mem_cons.mp hr with rfl | hr
      · exact ⟨hop, op, rfl, hop, Nat.le_refl _⟩
      · exact ⟨(below ihr hr).1, op, rfl, hop, (below ihr hr).2⟩

/-- The parentheses make the bracketing lawful. -/
theorem lawful_bracketing (e : Equation) : e.bracketing.Lawful := by
  induction e using runInduction with
  | leaf e hleaf =>
    rw [bracketing_of_not_isRun hleaf]
    trivial
  | run op left right hop ihl ihr =>
    have below : ∀ (right : Bool) {t : Equation}, t.bracketing.Lawful →
        (t.bracketingBelow op right).Lawful ∧ ∀ r ∈ (t.bracketingBelow op right).run,
          r.1.precedence ≤ op.precedence ∧ (right = true → r.1.precedence < op.precedence) := by
      intro right t hlawful
      rw [bracketingBelow]
      split
      · exact ⟨trivial, nofun⟩
      · rename_i hbare
        refine ⟨hlawful, fun r hr => ?_⟩
        obtain ⟨-, o, htop, ho, hle⟩ := of_mem_run hr
        have := precedence_of_not_isEnclosed hop (by simpa using hbare) htop ho
        exact ⟨Nat.le_trans hle this.1, fun hright => Nat.lt_of_le_of_lt hle (this.2 hright)⟩
    obtain ⟨lawfulL, leL⟩ := below false ihl
    obtain ⟨lawfulR, leR⟩ := below true ihr
    rw [bracketing_binary hop]
    exact ⟨fun r hr => (leL r hr).1, fun r hr => (leR r hr).2 rfl, lawfulL, lawfulR⟩

/-- Joining the run of a tree gives the tree. -/
theorem foldOperations_bracketing (e : Equation) :
    foldOperations e.bracketing.first e.bracketing.run = e := by
  rw [Bracketing.foldOperations_eq e.lawful_bracketing, equation_bracketing]

end Equation

end DocPath
