import DocPath.Builtin
import DocPath.Proofs.Script.Operands
import DocPath.Proofs.Script.Written

/-!
# Scripts that are read as they were written

The reader joins the operands of a run to its lawful bracketing, which is the one that the
parentheses are placed for. So a tree is read back from its text if its operands are. Two things are
not kept apart by their text: a pattern match below `!`, and an infix operator that is itself the
argument of a function.
-/

namespace DocPath

open Text.Utf8

variable {offset fuel : Nat} {rest : List UInt8}

namespace Equation

inductive Legible [Libraries] : Equation → Prop where
  | value {o : Operand} (h : o.ReadsBack) : Legible (.value o)
  | between {op : Operator} {left right : Equation} (hop : op.isInfix) (hl : Legible left)
      (hr : Legible right) : Legible (.binary op left right)
  | negation {left : Equation} (hl : Legible left) (hpattern : left.top? ≠ some .pattern) :
      Legible (.unary .lnot left)
  | call {op : Operator} {left : Equation} (hop : op.isFunction) (hone : op.isBinary = false)
      (hl : Legible left) (hleft : left.isRun = false) : Legible (.unary op left)
  | callTwo {op : Operator} {left right : Equation} (hop : op.isFunction) (htwo : op.isBinary)
      (hl : Legible left) (hr : Legible right) (hleft : left.isRun = false)
      (hright : right.isRun = false) : Legible (.binary op left right)

theorem Legible.saturated [Libraries] {e : Equation} (h : e.Legible) : e.Saturated := by
  induction h with
  | value h => trivial
  | between hop hl hr ihl ihr => exact ⟨Operator.isBinary_of_isInfix hop, ihl, ihr⟩
  | negation hl hpattern ih => exact ⟨rfl, ih⟩
  | call hop hone hl hleft ih => exact ⟨hone, ih⟩
  | callTwo hop htwo hl hr hleft hright ihl ihr => exact ⟨htwo, ihl, ihr⟩

end Equation

theorem Cursor.skipSpaces_space (offset : Nat) (bs : List UInt8) :
    (⟨offset, 0x20 :: bs⟩ : Cursor).skipSpaces = (⟨offset + 1, bs⟩ : Cursor).skipSpaces := by
  simp [skipSpaces, takeWhile]
  omega

/-- A blank before an operand does not count. -/
theorem readValue_space [Libraries] (fuel offset : Nat) (bs : List UInt8) :
    readValue (fuel + 1) ⟨offset, 0x20 :: bs⟩ = readValue (fuel + 1) ⟨offset + 1, bs⟩ := by
  rw [readValue, readValue, Cursor.skipSpaces_space]

/-- An infix operator is read back between blanks. -/
theorem readOperation_name {op : Operator} (h : op.isInfix) (offset : Nat) (bs : List UInt8) :
    readOperation ⟨offset, 0x20 :: (encode op.name.toList ++ 0x20 :: bs)⟩ =
      .ok (some op, ⟨offset + 1 + (encode op.name.toList).length, 0x20 :: bs⟩) := by
  cases op <;> first | rfl | cases h

/-- An infix operator and an operand after it that is read back. -/
structure ReadsNext [Libraries] (op : Operator) (e : Equation) : Prop where
  isInfix : op.isInfix
  readsAs : ReadsAs e.operandText e

namespace Bracketing

theorem encode_writeRun_cons (r : Operator × Equation) (run : List (Operator × Equation)) :
    encode (writeRun (r :: run)) = 0x20 :: (encode r.1.name.toList ++
      0x20 :: (encode r.2.operandText ++ encode (writeRun run))) := by
  have blank : ∀ cs, encode (' ' :: cs) = 0x20 :: encode cs := fun cs =>
    encode_cons_ascii (by decide) cs
  rw [writeRun, List.flatMap_cons, encode_append, blank, encode_append, blank]
  simp [writeRun]

/-- What follows an operand of a run ends it. -/
theorem endsOperand_writeRun (run : List (Operator × Equation)) (rest : List UInt8) :
    EndsOperand (encode (writeRun run) ++ byteOf ')' :: rest) := by
  cases run with
  | nil => exact endsOperand_cons (by decide)
  | cons r run =>
    rw [encode_writeRun_cons]
    exact endsOperand_cons (by decide)

end Bracketing

open Bracketing

/-- The first operand after an operator of a run is read back. -/
theorem readValue_writeRun [Libraries] {e : Equation} (h : ReadsAs e.operandText e)
    (run : List (Operator × Equation)) (fuel : Nat)
    (hfuel : 2 * (encode e.operandText).length ≤ fuel) (offset : Nat) (rest : List UInt8) :
    ∃ offset', readValue (fuel + 1) ⟨offset, 0x20 :: (encode e.operandText ++
        (encode (writeRun run) ++ byteOf ')' :: rest))⟩ =
      .ok (e, ⟨offset', encode (writeRun run) ++ byteOf ')' :: rest⟩) := by
  obtain ⟨offset', hread⟩ := h (fuel + 1) (by omega) _ (endsOperand_writeRun run rest) (offset + 1)
  exact ⟨offset', by rw [readValue_space, hread]⟩

theorem readRun_operator [Libraries] {op : Operator} (h : op.isInfix) (offset fuel : Nat)
    (bs : List UInt8) :
    readRun (fuel + 1) ⟨offset, 0x20 :: (encode op.name.toList ++ 0x20 :: bs)⟩ =
      (readValue fuel ⟨offset + 1 + (encode op.name.toList).length, 0x20 :: bs⟩).bind fun r =>
        (readRun fuel r.2).bind fun rs => .ok ((op, r.1) :: rs.1, rs.2) := by
  cases op <;> first | rfl | cases h

/-- A run is read back, up to the parenthesis that closes it. -/
theorem readRun_write [Libraries] {run : List (Operator × Equation)}
    (h : ∀ r ∈ run, ReadsNext r.1 r.2)
    (fuel : Nat) (hfuel : 2 * (encode (writeRun run)).length < fuel) (offset : Nat)
    (rest : List UInt8) :
    ∃ offset', readRun fuel ⟨offset, encode (writeRun run) ++ byteOf ')' :: rest⟩ =
      .ok (run, ⟨offset', rest⟩) := by
  obtain ⟨fuel, rfl⟩ : ∃ n, fuel = n + 1 := ⟨fuel - 1, by omega⟩
  induction run generalizing fuel offset with
  | nil => exact ⟨offset + 1, rfl⟩
  | cons r run ih =>
    obtain ⟨hr, hrun⟩ := List.forall_mem_cons.mp h
    rw [encode_writeRun_cons] at hfuel ⊢
    simp only [List.length_cons, List.length_append] at hfuel
    obtain ⟨fuel, rfl⟩ : ∃ n, fuel = n + 1 := ⟨fuel - 1, by omega⟩
    obtain ⟨offset₁, hvalue⟩ := readValue_writeRun hr.readsAs run fuel (by omega)
      (offset + 1 + (encode r.1.name.toList).length) rest
    obtain ⟨offset₂, hmore⟩ := ih hrun offset₁ fuel (by omega)
    refine ⟨offset₂, ?_⟩
    rw [List.cons_append, List.append_assoc, List.cons_append, List.append_assoc,
      readRun_operator hr.isInfix, hvalue, Except.bind, hmore]
    rfl

structure Equation.ReadsBack [Libraries] (e : Equation) : Prop where
  starts : ∃ b bs, encode e.operandText = b :: bs ∧ b ≠ 0x20 ∧ (e.top? = none → mayBeginAlone b)
  readsAs : ReadsAs e.operandText e

/-- A script whose first operand holds an operator. -/
theorem readEquation_of_group [Libraries] {left : Equation} {b : UInt8} {bs : List UInt8}
    {c c' : Cursor} {run : List (Operator × Equation)} (hleft : left.top? ≠ none) (hb : b ≠ 0x20)
    (hvalue : readValue fuel ⟨offset, b :: bs⟩ = .ok (left, c))
    (hrun : readRun fuel c = .ok (run, c')) :
    readEquation (fuel + 1) ⟨offset, b :: bs⟩ = .ok (foldOperations left run, c') := by
  rw [readEquation, Cursor.skipSpaces_cons hb]
  simp only [Cursor.peek?, List.head?_cons]
  rw [bind_of_ok hvalue]
  cases left with
  | value o => exact absurd rfl hleft
  | unary op left => cases mayBeginAlone b <;> exact bind_of_ok hrun
  | binary op left right => cases mayBeginAlone b <;> exact bind_of_ok hrun

/-- A script whose first operand is a literal, with an operator after it. -/
theorem readEquation_of_value [Libraries] {o : Operand} {b : UInt8} {bs : List UInt8}
    {c c₁ c₂ c₃ : Cursor} {op : Operator} {right : Equation} {run : List (Operator × Equation)}
    (hb : mayBeginAlone b) (hspace : b ≠ 0x20)
    (hvalue : readValue fuel ⟨offset, b :: bs⟩ = .ok (.value o, c))
    (hop : readOperation c = .ok (some op, c₁)) (hright : readValue fuel c₁ = .ok (right, c₂))
    (hrun : readRun fuel c₂ = .ok (run, c₃)) :
    readEquation (fuel + 1) ⟨offset, b :: bs⟩ =
      .ok (foldOperations (.value o) ((op, right) :: run), c₃) := by
  rw [readEquation, Cursor.skipSpaces_cons hspace]
  simp only [Cursor.peek?, List.head?_cons]
  rw [bind_of_ok hvalue, hb]
  exact (bind_of_ok hop).trans ((bind_of_ok hright).trans (bind_of_ok hrun))

/-- A run and the operand before it are read and joined, up to the parenthesis that closes them. -/
theorem readEquation_text [Libraries] {first : Equation} {run : List (Operator × Equation)}
    (hfirst : first.ReadsBack) (hne : first.top? = none → run ≠ [])
    (hrun : ∀ r ∈ run, ReadsNext r.1 r.2) (fuel : Nat)
    (hfuel : 2 * (encode (first.operandText ++ writeRun run)).length + 2 ≤ fuel) (offset : Nat)
    (rest : List UInt8) : ∃ offset', readEquation fuel
      ⟨offset, encode (first.operandText ++ writeRun run) ++ byteOf ')' :: rest⟩ =
        .ok (foldOperations first run, ⟨offset', rest⟩) := by
  rw [encode_append] at hfuel ⊢
  rw [List.length_append] at hfuel
  rw [List.append_assoc]
  obtain ⟨fuel, rfl⟩ : ∃ n, fuel = n + 1 := ⟨fuel - 1, by omega⟩
  obtain ⟨offset₁, hvalue⟩ :=
    hfirst.readsAs fuel (by omega) _ (endsOperand_writeRun run rest) offset
  obtain ⟨b, bs, htext, hspace, halone⟩ := hfirst.starts
  by_cases htop : first.top? = none
  · cases first with
    | unary op left => cases htop
    | binary op left right => cases htop
    | value o =>
      obtain ⟨r, run, rfl⟩ := List.exists_cons_of_ne_nil (hne rfl)
      obtain ⟨hr, hmore⟩ := List.forall_mem_cons.mp hrun
      have shape := encode_writeRun_cons r run
      rw [shape] at hvalue hfuel ⊢
      simp only [List.length_cons, List.length_append] at hfuel
      obtain ⟨fuel, rfl⟩ : ∃ n, fuel = n + 1 := ⟨fuel - 1, by omega⟩
      obtain ⟨offset₂, hright⟩ := readValue_writeRun hr.readsAs run fuel (by omega)
        (offset₁ + 1 + (encode r.1.name.toList).length) rest
      obtain ⟨offset₃, hrest⟩ := readRun_write hmore (fuel + 1) (by omega) offset₂ rest
      refine ⟨offset₃, ?_⟩
      have hop := readOperation_name hr.isInfix offset₁
        (encode r.2.operandText ++ (encode (writeRun run) ++ byteOf ')' :: rest))
      simp only [htext, List.cons_append, List.append_assoc] at hvalue ⊢
      exact readEquation_of_value (halone rfl) hspace hvalue hop hright hrest
  · obtain ⟨offset₂, hrest⟩ := readRun_write hrun fuel (by omega) offset₁ rest
    refine ⟨offset₂, ?_⟩
    rw [htext] at hvalue ⊢
    exact readEquation_of_group htop hspace hvalue hrest

/-- A legible tree with an operator is read up to the parenthesis that closes it. -/
theorem readEquation_piece [Libraries] {e : Equation} (h : e.Saturated) (htop : e.top? ≠ none)
    (hreads : ∀ x ∈ e.bracketing.operands, x.ReadsBack) (fuel : Nat)
    (hfuel : 2 * (encode e.piece.text).length + 2 ≤ fuel) (offset : Nat) (rest : List UInt8) :
    ∃ offset', readEquation fuel ⟨offset, encode e.piece.text ++ byteOf ')' :: rest⟩ =
      .ok (e, ⟨offset', rest⟩) := by
  have hne : e.bracketing.first.top? = none → e.bracketing.run ≠ [] := by
    intro hfirst hrun
    have hleaf := Bracketing.eq_leaf_of_run hrun
    have he := e.equation_bracketing
    rw [hleaf] at he
    exact htop (he ▸ hfirst)
  have hnext : ∀ r ∈ e.bracketing.run, ReadsNext r.1 r.2 := fun r hr =>
    ⟨(Equation.of_mem_run hr).1,
      (hreads r.2 (List.mem_cons_of_mem _ (List.mem_map_of_mem hr))).readsAs⟩
  rw [← Equation.text_bracketing h] at hfuel ⊢
  have hread := readEquation_text (hreads _ List.mem_cons_self) hne hnext fuel hfuel offset rest
  rwa [e.foldOperations_bracketing] at hread

section call

variable {op : Operator} {left right : Equation} {bs bs' : List UInt8} {offset₁ offset₂ : Nat}

theorem readValue_call [Libraries] (hop : op.isFunction) (fuel offset : Nat) (bs : List UInt8) :
    readValue (fuel + 1) ⟨offset, encode op.name.toList ++ bs⟩ =
      readFunction fuel op ⟨offset, encode op.name.toList ++ bs⟩ := by
  cases op <;> first | rfl | cases hop

/-- The name of a function and its parenthesis are read. -/
theorem readFunction_open (op : Operator) (offset : Nat) (bs : List UInt8) :
    ((op.name.toList ++ ['(']).map byteOf).isPrefixOf
        (encode op.name.toList ++ byteOf '(' :: bs) = true ∧
      (⟨offset, encode op.name.toList ++ byteOf '(' :: bs⟩ : Cursor).skip
        ((op.name.toList ++ ['(']).map byteOf).length =
          ⟨offset + (encode op.name.toList).length + 1, bs⟩ := by
  cases op <;> exact ⟨rfl, rfl⟩

theorem readFunction_one [Libraries]
    (hleft : readValue fuel ⟨offset + (encode op.name.toList).length + 1, bs⟩ =
      .ok (left, ⟨offset₁, byteOf ')' :: rest⟩)) :
    readFunction (fuel + 1) op ⟨offset, encode op.name.toList ++ byteOf '(' :: bs⟩ =
      .ok (.unary op left, ⟨offset₁ + 1, rest⟩) := by
  obtain ⟨hopening, hskip⟩ := readFunction_open op offset bs
  rw [readFunction]
  simp only [hopening, hskip, if_true]
  exact bind_of_ok hleft

theorem readFunction_two [Libraries]
    (hleft : readValue fuel ⟨offset + (encode op.name.toList).length + 1, bs⟩ =
      .ok (left, ⟨offset₁, byteOf ',' :: bs'⟩))
    (hright : readValue fuel ⟨offset₁ + 1, bs'⟩ = .ok (right, ⟨offset₂, byteOf ')' :: rest⟩)) :
    readFunction (fuel + 1) op ⟨offset, encode op.name.toList ++ byteOf '(' :: bs⟩ =
      .ok (.binary op left right, ⟨offset₂ + 1, rest⟩) := by
  obtain ⟨hopening, hskip⟩ := readFunction_open op offset bs
  rw [readFunction]
  simp only [hopening, hskip, if_true]
  exact (bind_of_ok hleft).trans ((if_pos rfl).trans (bind_of_ok hright))

end call

namespace Equation

variable [Libraries]

theorem readsBack_value {o : Operand} (h : o.ReadsBack) : (value o).ReadsBack where
  starts := by
    obtain ⟨b, bs, htext, hb⟩ := h.starts
    exact ⟨b, bs, htext, ne_mark hb rfl, fun _ => mayBeginAlone_of_beginsOperand hb⟩
  readsAs := h.readsAs

/-- A tree with an operator is read back if it is, operator first, behind a byte that begins no
lone value. -/
theorem ReadsBack.of_cons {e : Equation} {b : UInt8} {bs : List UInt8}
    (htext : encode e.operandText = b :: bs) (hspace : b ≠ 0x20) (htop : e.top? ≠ none)
    (h : ∀ fuel : Nat, 2 * bs.length + 2 ≤ fuel → ∀ rest : List UInt8, EndsOperand rest →
      ∀ offset, ∃ offset', readValue (fuel + 1) ⟨offset, b :: (bs ++ rest)⟩ =
        .ok (e, ⟨offset', rest⟩)) : e.ReadsBack :=
  ⟨⟨b, bs, htext, hspace, fun hnone => absurd hnone htop⟩, .of_cons htext h⟩

/-- A run in parentheses is read back. -/
theorem readsBack_group {e : Equation} (h : e.Saturated) (hrun : e.isRun)
    (hreads : ∀ x ∈ e.bracketing.operands, x.ReadsBack) : e.ReadsBack := by
  have htop : e.top? ≠ none := by
    cases e <;> first | exact Option.some_ne_none _ | cases hrun
  have htext : encode e.operandText = byteOf '(' :: (encode e.piece.text ++ [byteOf ')']) := by
    rw [operandText_of_isRun hrun, encode_cons_ascii (by decide), encode_append]
    rfl
  refine .of_cons htext (by decide) htop fun fuel hfuel rest _ offset => ?_
  rw [List.length_append, List.length_singleton] at hfuel
  obtain ⟨offset', hread⟩ :=
    readEquation_piece h htop hreads fuel (by omega) (offset + 1) rest
  refine ⟨offset', ?_⟩
  rw [List.append_assoc, List.singleton_append, ← hread]
  rfl

omit [Libraries] in
/-- Below `!`, a tree is written as an operand, unless it is a pattern match. -/
theorem under_lnot {e : Equation} (h : e.Saturated) (hpattern : e.top? ≠ some .pattern) :
    e.piece.under .lnot false = e.operandText := by
  have looser : ∀ op : Operator, op.isInfix → op ≠ .pattern →
      Piece.needsParens op .lnot false := by
    intro op hop hne
    cases op <;> first | rfl | exact absurd rfl hne | cases hop
  rw [under_piece h]
  split
  · rfl
  · rename_i hbare
    cases hrun : e.isRun with
    | false => rw [operandText_of_not_isRun hrun]
    | true =>
      cases e with
      | binary op left right =>
        exact absurd (looser op hrun fun hop => hpattern (congrArg some hop)) hbare
      | _ => cases hrun

theorem readsBack_negation {left : Equation} (h : left.Saturated) (hleft : left.ReadsBack)
    (hpattern : left.top? ≠ some .pattern) : (unary .lnot left).ReadsBack := by
  have htext : encode (unary .lnot left).operandText = byteOf '!' :: encode left.operandText := by
    rw [operandText_of_not_isRun rfl, ← under_lnot h hpattern, ← encode_cons_ascii (by decide)]
    rfl
  refine .of_cons htext (by decide) (Option.some_ne_none _) fun fuel hfuel rest hrest offset => ?_
  obtain ⟨offset', hread⟩ := hleft.readsAs fuel (by omega) rest hrest (offset + 1)
  exact ⟨offset', bind_of_ok hread⟩

/-- A call of a function is read back if what stands in its parentheses is. -/
theorem readsBack_of_call {e : Equation} {op : Operator} {arguments : List Char}
    (hop : op.isFunction) (hrun : e.isRun = false) (htop : e.top? ≠ none)
    (htext : e.piece.text = op.name.toList ++ '(' :: (arguments ++ [')']))
    (h : ∀ fuel : Nat, 2 * (encode arguments).length < fuel → ∀ (rest : List UInt8) (offset : Nat),
      ∃ offset', readFunction (fuel + 1) op ⟨offset, encode op.name.toList ++
        byteOf '(' :: (encode arguments ++ byteOf ')' :: rest)⟩ = .ok (e, ⟨offset', rest⟩)) :
    e.ReadsBack := by
  have hbytes : encode e.operandText = encode op.name.toList ++
      byteOf '(' :: (encode arguments ++ [byteOf ')']) := by
    rw [operandText_of_not_isRun hrun, htext, encode_append, encode_cons_ascii (by decide),
      encode_append]
    rfl
  refine ⟨?_, fun fuel hfuel rest _ offset => ?_⟩
  · have hname : ∃ b bs, encode op.name.toList = b :: bs ∧ b ≠ 0x20 := by
      cases op <;> exact ⟨_, _, rfl, by decide⟩
    obtain ⟨b, bs, hname, hspace⟩ := hname
    exact ⟨b, _, by rw [hbytes, hname, List.cons_append], hspace, fun hnone => absurd hnone htop⟩
  · rw [hbytes] at hfuel ⊢
    simp only [List.length_append, List.length_cons, List.length_nil] at hfuel
    obtain ⟨fuel, rfl⟩ : ∃ n, fuel = n + 1 + 1 := ⟨fuel - 2, by omega⟩
    obtain ⟨offset', hread⟩ := h fuel (by omega) rest offset
    refine ⟨offset', ?_⟩
    rw [List.append_assoc, List.cons_append, List.append_assoc, List.singleton_append,
      readValue_call hop, hread]

theorem readsBack_call {op : Operator} {left : Equation} (hop : op.isFunction)
    (hone : op.isBinary = false) (hleft : left.ReadsBack) (hbare : left.isRun = false) :
    (unary op left).ReadsBack := by
  refine readsBack_of_call hop rfl (Option.some_ne_none _) (Piece.join_call hop hone _ _)
    fun fuel hfuel rest offset => ?_
  rw [← operandText_of_not_isRun hbare] at hfuel ⊢
  obtain ⟨offset', hread⟩ := hleft.readsAs fuel hfuel (byteOf ')' :: rest)
    (endsOperand_cons (by decide)) (offset + (encode op.name.toList).length + 1)
  exact ⟨offset' + 1, readFunction_one hread⟩

theorem readsBack_callTwo {op : Operator} {left right : Equation} (hop : op.isFunction)
    (htwo : op.isBinary) (hleft : left.ReadsBack) (hright : right.ReadsBack)
    (hbare : left.isRun = false) (hbare' : right.isRun = false) :
    (binary op left right).ReadsBack := by
  have hrun : (binary op left right).isRun = false := by simp [isRun, Operator.isInfix, hop]
  have htext : (binary op left right).piece.text = op.name.toList ++
      '(' :: ((left.operandText ++ ',' :: ' ' :: right.operandText) ++ [')']) := by
    rw [operandText_of_not_isRun hbare, operandText_of_not_isRun hbare', piece,
      Piece.join_callTwo hop htwo]
    simp only [List.append_assoc, List.cons_append]
  refine readsBack_of_call hop hrun (Option.some_ne_none _) htext fun fuel hfuel rest offset => ?_
  rw [encode_append, encode_cons_ascii (by decide), encode_cons_ascii (by decide)] at hfuel ⊢
  simp only [List.length_append, List.length_cons] at hfuel
  obtain ⟨fuel, rfl⟩ : ∃ n, fuel = n + 1 := ⟨fuel - 1, by omega⟩
  obtain ⟨offset₁, hread₁⟩ := hleft.readsAs (fuel + 1) (by omega)
    (byteOf ',' :: byteOf ' ' :: (encode right.operandText ++ byteOf ')' :: rest))
    (endsOperand_cons (by decide)) (offset + (encode op.name.toList).length + 1)
  obtain ⟨offset₂, hread₂⟩ := hright.readsAs (fuel + 1) (by omega) (byteOf ')' :: rest)
    (endsOperand_cons (by decide)) (offset₁ + 1 + 1)
  rw [List.append_assoc]
  exact ⟨offset₂ + 1, readFunction_two hread₁ ((readValue_space _ _ _).trans hread₂)⟩

/-- A legible tree is read back, and so are the operands of the run that it is written as. -/
theorem Legible.readsBack {e : Equation} (h : e.Legible) :
    e.ReadsBack ∧ ∀ x ∈ e.bracketing.operands, x.ReadsBack := by
  have alone : ∀ {e : Equation}, e.isRun = false → e.ReadsBack →
      e.ReadsBack ∧ ∀ x ∈ e.bracketing.operands, x.ReadsBack := by
    intro e hrun he
    rw [bracketing_of_not_isRun hrun]
    exact ⟨he, List.forall_mem_singleton.mpr he⟩
  induction h with
  | value h => exact alone rfl (readsBack_value h)
  | @between op left right hop hl hr ihl ihr =>
    have hreads : ∀ x ∈ (binary op left right).bracketing.operands, x.ReadsBack := by
      intro x hx
      rcases mem_operands_bracketing hop hx with (rfl | hx) | rfl | hx
      · exact ihl.1
      · exact ihl.2 x hx
      · exact ihr.1
      · exact ihr.2 x hx
    exact ⟨readsBack_group (Legible.between hop hl hr).saturated hop hreads, hreads⟩
  | negation hl hpattern ih => exact alone rfl (readsBack_negation hl.saturated ih.1 hpattern)
  | call hop hone hl hleft ih => exact alone rfl (readsBack_call hop hone ih.1 hleft)
  | callTwo hop htwo hl hr hleft hright ihl ihr =>
    exact alone (by simp [isRun, Operator.isInfix, hop])
      (readsBack_callTwo hop htwo ihl.1 ihr.1 hleft hright)

end Equation

/-- A script is what has been read if nothing but blanks is left over. -/
theorem Script.parse_eq_of_read [Libraries] {text : String} {e : Equation} {c : Cursor}
    (h : readEquation (readingDepth (encode text.toList).length) (.start (encode text.toList)) =
      .ok (e, c)) (hrest : c.skipSpaces.rest = []) : Script.parse text = .ok e.compile := by
  simp only [Script.parse, readAll, h, bind, Except.bind, hrest, List.isEmpty_nil, if_true,
    Except.mapError]

/-- A script made from a legible tree with an operator is read from its own text. -/
theorem Script.parse_text_of_legible [Libraries] {e : Equation} (h : e.Legible)
    (htop : e.top? ≠ none) :
    Script.parse e.compile.text = .ok e.compile := by
  have htext : encode e.compile.text.toList =
      byteOf '(' :: (encode e.piece.text ++ [byteOf ')']) := by
    rw [Script.text, String.toList_ofList, Equation.close_pieces_compile,
      encode_cons_ascii (by decide), encode_append]
    rfl
  obtain ⟨offset, hread⟩ := readEquation_piece h.saturated htop h.readsBack.2
    (4 * (encode e.compile.text.toList).length + 6)
    (by rw [htext, List.length_cons, List.length_append]; omega) 1 []
  have hend : (⟨offset, []⟩ : Cursor).skipSpaces.rest = [] := rfl
  refine parse_eq_of_read ?_ hend
  have hrun : readRun (4 * (encode e.compile.text.toList).length + 7) ⟨offset, []⟩ =
      .ok ([], ⟨offset, []⟩) := rfl
  have hvalue : readValue (4 * (encode e.compile.text.toList).length + 7)
      ⟨0, byteOf '(' :: (encode e.piece.text ++ [byteOf ')'])⟩ = .ok (e, ⟨offset, []⟩) := by
    rw [← hread]
    rfl
  rw [readingDepth, Cursor.start]
  rw [htext] at hrun hvalue ⊢
  exact readEquation_of_group htop (by decide) hvalue hrun

/-- A filter is read back if its template is that of a legible tree with an operator. -/
theorem Fragment.readsBack_filter [Libraries] {e : Equation} (h : e.Legible)
    (htop : e.top? ≠ none) :
    (filter e.compile).ReadsBack where
  rereads {first after fuel rest} _ _ hfuel := by
    have hwrite : (filter e.compile).write false (first || after) =
        '[' :: ('?' :: '(' :: (e.piece.text ++ [')']) ++ [']']) := by
      rw [write, Equation.close_pieces_compile]
      rfl
    have htext : encode ('?' :: '(' :: (e.piece.text ++ [')'])) =
        byteOf '?' :: byteOf '(' :: (encode e.piece.text ++ [byteOf ')']) := by
      rw [encode_cons_ascii (by decide), encode_cons_ascii (by decide), encode_append]
      rfl
    rw [hwrite, encode_cons_ascii (by decide), encode_append, htext] at hfuel
    simp only [List.length_cons, List.length_append, List.length_nil] at hfuel
    obtain ⟨fuel, rfl⟩ : ∃ n, fuel = n + 1 + 1 := ⟨fuel - 2, by omega⟩
    refine .of_brackets hwrite fun offset => ?_
    obtain ⟨offset', hread⟩ := readEquation_piece h.saturated htop h.readsBack.2 fuel
      (by omega) (offset + 2) (byteOf ']' :: rest)
    refine ⟨offset' + 1, ?_⟩
    rw [htext]
    simp only [List.cons_append, List.append_assoc, List.nil_append]
    exact bind_of_ok hread
  ne_bracket := nofun
  write_ne_nil _ := List.cons_ne_nil _ _
  write_cons := ⟨byteOf '[', _, encode_cons _ _, rfl⟩

inductive Equation.Infix : Equation → Prop where
  | value {o : Operand} (h : o.Literal) : Infix (.value o)
  | binary {op : Operator} {left right : Equation} (hop : op.isInfix) (hl : Infix left)
      (hr : Infix right) : Infix (.binary op left right)

theorem Equation.Infix.legible [Libraries] {e : Equation} (h : e.Infix) : e.Legible := by
  induction h with
  | value h => exact .value h.readsBack
  | binary hop hl hr ihl ihr => exact .between hop ihl ihr

/-- A script made from a tree of infix operators over literals is read from its own text: the
parentheses that are written are those that the order of joining asks for. -/
theorem Script.parse_text_compile [Libraries] {op : Operator} {left right : Equation}
    (h : (Equation.binary op left right).Infix) :
    Script.parse (Equation.binary op left right).compile.text =
      .ok (Equation.binary op left right).compile :=
  parse_text_of_legible h.legible (Option.some_ne_none _)

/-- Both sides of an operator and all five precedences occur in this script. -/
theorem Script.parse_text_compile_of_nested :
    let n (i : Int64) : Equation := .value (.int i)
    let member : Equation := .binary .member (.value (.str "a"))
      (.value (.list [.str "a", .list [.null, .bool true]]))
    let less : Equation := .binary .less
      (.binary .subtract (.binary .multiply (.binary .subtract (n 1) (n 2)) (n 3))
        (.binary .subtract (n 4) (n (-5)))) (n 6)
    let e : Equation := .binary .pattern (.binary .pattern
      (.binary .land (.binary .equal less member) (n 0)) (.value .nothing)) (.value (.str "é"))
    e.Infix ∧ e.compile.text =
      "(((1 - 2) * 3 - (4 - -5) < 6 == ('a' in ['a',[null,true]]) && 0) ~= Nothing ~= 'é')" ∧
      Script.parse e.compile.text = .ok e.compile := by
  intro n member less e
  have hn : ∀ i, (n i).Infix := fun i => .value (.int i)
  have hlist : (Operand.list [.null, .bool true]).Literal :=
    .list (List.forall_mem_cons.mpr ⟨.null, List.forall_mem_singleton.mpr (.bool true)⟩)
  have hmember : member.Infix := .binary rfl (.value (.str "a"))
    (.value (.list (List.forall_mem_cons.mpr ⟨.str "a", List.forall_mem_singleton.mpr hlist⟩)))
  have hless : less.Infix := .binary rfl
    (.binary rfl (.binary rfl (.binary rfl (hn 1) (hn 2)) (hn 3)) (.binary rfl (hn 4) (hn (-5))))
    (hn 6)
  have he : e.Infix := .binary rfl (.binary rfl
    (.binary rfl (.binary rfl hless hmember) (hn 0)) (.value .nothing)) (.value (.str "é"))
  have htext : e.compile.text =
      "(((1 - 2) * 3 - (4 - -5) < 6 == ('a' in ['a',[null,true]]) && 0) ~= Nothing ~= 'é')" := by
    decide +kernel
  exact ⟨he, htext, parse_text_compile he⟩

end DocPath
