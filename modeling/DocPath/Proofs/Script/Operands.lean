import DocPath.Path.Parser
import DocPath.Proofs.Path.Numbers
import DocPath.Proofs.Path.Patterns

/-!
# Operands that are read as they were written

Literals of scripts are read back from their text: null and Nothing, truth values, numbers, strings,
patterns, and lists of these nested to any depth. A path is read back if its fragments are. What
follows an operand must not go on with it.
-/

namespace DocPath

open Text.Utf8

variable {offset fuel : Nat} {rest : List UInt8}
variable [Libraries]

omit [Libraries] in
theorem EndsOperand.endsNumeral (h : EndsOperand rest) : EndsNumeral rest := by
  intro b hb
  rcases h b hb with rfl | rfl | rfl | rfl <;> decide

def beginsOperand (b : UInt8) : Bool := beginsInt b || "nNtf'[/$@".toList.contains (charOf b)

omit [Libraries] in
theorem mayBeginAlone_of_beginsOperand {b : UInt8} (h : beginsOperand b) : mayBeginAlone b := by
  have all : ∀ n : Fin 256, beginsOperand (UInt8.ofFin n) → mayBeginAlone (UInt8.ofFin n) := by
    decide +kernel
  exact all b.toFin h

/-- A text from which a tree is read back, whatever ends it. Reading takes no more than two calls
for each byte. -/
def ReadsAs (text : List Char) (e : Equation) : Prop :=
  ∀ fuel : Nat, 2 * (encode text).length < fuel → ∀ rest : List UInt8, EndsOperand rest →
    ∀ offset, ∃ offset', readValue fuel ⟨offset, encode text ++ rest⟩ = .ok (e, ⟨offset', rest⟩)

/-- A tree whose first byte is known takes one call. -/
theorem ReadsAs.of_cons {text : List Char} {e : Equation} {b : UInt8} {bs : List UInt8}
    (htext : encode text = b :: bs)
    (h : ∀ fuel : Nat, 2 * bs.length + 2 ≤ fuel → ∀ rest : List UInt8, EndsOperand rest →
      ∀ offset, ∃ offset', readValue (fuel + 1) ⟨offset, b :: (bs ++ rest)⟩ =
        .ok (e, ⟨offset', rest⟩)) : ReadsAs text e := by
  intro fuel hfuel rest hrest offset
  rw [htext, List.length_cons] at hfuel
  obtain ⟨fuel, rfl⟩ : ∃ n, fuel = n + 1 := ⟨fuel - 1, by omega⟩
  rw [htext]
  exact h fuel (by omega) rest hrest offset

structure Operand.ReadsBack (o : Operand) : Prop where
  starts : ∃ b bs, encode o.write = b :: bs ∧ beginsOperand b
  readsAs : ReadsAs o.write (.value o)

namespace Operand

theorem ReadsBack.of_cons {o : Operand} {b : UInt8} {bs : List UInt8}
    (htext : encode o.write = b :: bs) (hb : beginsOperand b)
    (h : ∀ fuel : Nat, 2 * bs.length + 2 ≤ fuel → ∀ rest : List UInt8, EndsOperand rest →
      ∀ offset, ∃ offset', readValue (fuel + 1) ⟨offset, b :: (bs ++ rest)⟩ =
        .ok (.value o, ⟨offset', rest⟩)) : o.ReadsBack :=
  ⟨⟨b, bs, htext, hb⟩, .of_cons htext h⟩

theorem readsBack_null : ReadsBack .null :=
  .of_cons rfl rfl fun _ _ _ _ offset => ⟨offset + 4, rfl⟩

theorem readsBack_nothing : ReadsBack .nothing :=
  .of_cons rfl rfl fun _ _ _ _ offset => ⟨offset + 7, rfl⟩

theorem readsBack_bool (b : Bool) : ReadsBack (.bool b) := by
  cases b with
  | true => exact .of_cons rfl rfl fun _ _ _ _ offset => ⟨offset + 4, rfl⟩
  | false => exact .of_cons rfl rfl fun _ _ _ _ offset => ⟨offset + 5, rfl⟩

theorem readsBack_number {o : Operand} {b : UInt8} {bs : List UInt8}
    (htext : encode o.write = b :: bs) (hb : beginsInt b)
    (h : ∀ rest, EndsNumeral rest → ∀ offset, ∃ offset',
      readNumber ⟨offset, b :: (bs ++ rest)⟩ = .ok (o, ⟨offset', rest⟩)) : o.ReadsBack := by
  refine .of_cons htext (by simp [beginsOperand, hb]) fun fuel _ rest hrest offset => ?_
  obtain ⟨offset', hread⟩ := h rest hrest.endsNumeral offset
  refine ⟨offset', ?_⟩
  rw [readValue, Cursor.skipSpaces_cons (ne_mark hb rfl)]
  simp only [Cursor.peek?, List.head?_cons]
  rw [if_pos hb, bind_of_ok hread]

theorem readsBack_int (n : Int64) : ReadsBack (.int n) := by
  obtain ⟨b, bs, htext, hb, -⟩ := encode_writeInt_digits n.toInt
  refine readsBack_number htext hb fun rest hrest offset => ?_
  have hread := readNumber_writeInt n hrest offset
  rwa [htext] at hread

theorem readsBack_float {x : Float} (hfinite : x.isFinite)
    (hvalue : Decimal.readFloat? (Decimal.writeFloat x) = some x) : ReadsBack (.float x) := by
  obtain ⟨b, bs, htext, hb, hread⟩ := readNumber_writeFloat hfinite hvalue
  exact readsBack_number htext hb hread

theorem readsBack_str (s : String) : ReadsBack (.str s) := by
  refine .of_cons (encode_cons _ _) rfl fun fuel _ rest hrest offset => ?_
  obtain ⟨offset', hread⟩ := readQuoted_write (Or.inl rfl) s (offset + 1) rest
  refine ⟨offset', ?_⟩
  change readValue (fuel + 1) ⟨offset, encode (Text.Quoted.write '\'' s.toList) ++ rest⟩ = _
  rw [encode_write (Or.inl rfl), readValue, Cursor.skipSpaces_cons (by decide)]
  simp only [Cursor.peek?, List.head?_cons]
  rw [if_neg (by decide), if_pos (by decide)]
  exact bind_of_ok hread

theorem readsBack_regex {r : Regex} (h : r.Readable) :
    ReadsBack (.regex r) := by
  refine .of_cons (encode_cons _ _) rfl fun fuel _ rest _ offset => ?_
  obtain ⟨offset', hread⟩ := readPattern_write h (offset + 1) rest
  refine ⟨offset', ?_⟩
  rw [readValue, Cursor.skipSpaces_cons (by decide)]
  simp only [Cursor.peek?, List.head?_cons]
  rw [if_neg (by decide), if_neg (by decide)]
  exact bind_of_ok hread

theorem readValue_origin {b : UInt8} (hb : b = byteOf '$' ∨ b = byteOf '@') (fuel offset : Nat)
    (bs : List UInt8) : readValue (fuel + 1) ⟨offset, b :: bs⟩ =
      readFragments fuel true false ⟨offset, b :: bs⟩ >>= fun r =>
        .ok (.value (.path r.1), r.2) := by
  rcases hb with rfl | rfl <;> rfl

/-- A path that begins with `$` or `@` is read back from its text. -/
theorem readsBack_path {f : Fragment} {fs : Path} (hf : f = .root ∨ f = .current)
    (hfs : ∀ g ∈ fs, g.ReadsBack) (hanchored : Path.Anchored (f :: fs)) :
    ReadsBack (.path (f :: fs)) := by
  have hall : ∀ g ∈ f :: fs, g.ReadsBack := by
    refine List.forall_mem_cons.mpr ⟨?_, hfs⟩
    rcases hf with rfl | rfl <;> exact Fragment.Unambiguous.readsBack trivial
  obtain ⟨b, bs, htext, hb⟩ : ∃ b bs, encode (writeFragments false true (f :: fs)) = b :: bs ∧
      (b = byteOf '$' ∨ b = byteOf '@') := by
    rcases hf with rfl | rfl
    · exact ⟨_, _, rfl, .inl rfl⟩
    · exact ⟨_, _, rfl, .inr rfl⟩
  have hbegins : beginsOperand b := by rcases hb with rfl | rfl <;> rfl
  refine .of_cons htext hbegins fun fuel hfuel rest hrest offset => ?_
  have hlength : 2 * (encode (writeFragments false (true || false) (f :: fs))).length ≤ fuel := by
    rw [Bool.or_false, htext, List.length_cons]
    omega
  obtain ⟨offset', hread⟩ := readFragments_write hall hrest true false (by omega) hlength
    (fun _ _ => .inl rfl) hanchored offset
  rw [Bool.or_false, htext, List.cons_append] at hread
  exact ⟨offset', (readValue_origin hb fuel offset _).trans (bind_of_ok hread)⟩

omit [Libraries] in
theorem writeOperands_cons_cons (o o' : Operand) (os : List Operand) :
    writeOperands true (o :: o' :: os) = o.write ++ ',' :: writeOperands true (o' :: os) := by
  simp [writeOperands]

/-- The items of a list are read back, up to its closing bracket. -/
theorem readList_write {o : Operand} {os : List Operand}
    (h : ∀ o' ∈ o :: os, o'.ReadsBack)
    (hfuel : 2 * (encode (writeOperands true (o :: os))).length + 1 < fuel) (offset : Nat)
    (rest : List UInt8) : ∃ offset', readList fuel
      ⟨offset, encode (writeOperands true (o :: os)) ++ byteOf ']' :: rest⟩ =
        .ok (o :: os, ⟨offset', rest⟩) := by
  obtain ⟨fuel, rfl⟩ : ∃ n, fuel = n + 1 := ⟨fuel - 1, by omega⟩
  obtain ⟨ho, hos⟩ := List.forall_mem_cons.mp h
  induction os generalizing o fuel offset with
  | nil =>
    have hwrite : writeOperands true [o] = o.write := by simp [writeOperands]
    rw [hwrite] at hfuel ⊢
    obtain ⟨offset', hread⟩ := ho.readsAs fuel (by omega) (byteOf ']' :: rest)
      (endsOperand_cons (by decide)) offset
    refine ⟨offset' + 1, ?_⟩
    rw [readList, bind_of_ok hread]
    rfl
  | cons o' os ih =>
    have htext : encode (writeOperands true (o :: o' :: os)) =
        encode o.write ++ byteOf ',' :: encode (writeOperands true (o' :: os)) := by
      rw [writeOperands_cons_cons, encode_append, encode_cons_ascii (by decide)]
    rw [htext, List.length_append, List.length_cons] at hfuel
    obtain ⟨fuel, rfl⟩ : ∃ n, fuel = n + 1 := ⟨fuel - 1, by omega⟩
    obtain ⟨offset₁, hread⟩ := ho.readsAs (fuel + 1) (by omega)
      (byteOf ',' :: (encode (writeOperands true (o' :: os)) ++ byteOf ']' :: rest))
      (endsOperand_cons (by decide)) offset
    obtain ⟨ho', hos'⟩ := List.forall_mem_cons.mp hos
    obtain ⟨offset₂, hmore⟩ := ih hos (offset₁ + 1) fuel (by omega) ho' hos'
    refine ⟨offset₂, ?_⟩
    rw [htext, List.append_assoc, List.cons_append, readList, bind_of_ok hread]
    exact bind_of_ok hmore

theorem readValue_list {b : UInt8} {bs : List UInt8} (hspace : b ≠ 0x20) (hclose : b ≠ byteOf ']')
    {items : List Operand} {c : Cursor} (h : readList fuel ⟨offset + 1, b :: bs⟩ = .ok (items, c)) :
    readValue (fuel + 1) ⟨offset, byteOf '[' :: b :: bs⟩ = .ok (.value (.list items), c) := by
  have hskip : (Cursor.skip ⟨offset, byteOf '[' :: b :: bs⟩ 1).skipSpaces = ⟨offset + 1, b :: bs⟩ :=
    Cursor.skipSpaces_cons hspace
  rw [readValue, Cursor.skipSpaces_cons (by decide)]
  simp only [Cursor.peek?, List.head?_cons]
  rw [if_neg (by decide), if_neg (by decide)]
  simp only [hskip, List.head?_cons, Option.some.injEq, hclose]
  exact bind_of_ok h

omit [Libraries] in
theorem write_list (items : List Operand) :
    write (.list items) = '[' :: (writeOperands true items ++ [']']) := rfl

theorem readsBack_list {items : List Operand} (h : ∀ o ∈ items, o.ReadsBack) :
    ReadsBack (.list items) := by
  cases items with
  | nil => exact .of_cons rfl rfl fun _ _ _ _ offset => ⟨offset + 2, rfl⟩
  | cons o os =>
    have htext : encode (Operand.write (.list (o :: os))) =
        byteOf '[' :: (encode (writeOperands true (o :: os)) ++ [byteOf ']']) := by
      rw [write_list, encode_cons_ascii (by decide), encode_append]
      rfl
    refine .of_cons htext rfl fun fuel hfuel rest _ offset => ?_
    rw [List.length_append, List.length_singleton] at hfuel
    have hitemsFuel : 2 * (encode (writeOperands true (o :: os))).length + 1 < fuel := by omega
    obtain ⟨offset', hread⟩ := readList_write h hitemsFuel (offset + 1) rest
    obtain ⟨b, bs, hwrite, hb⟩ := (h o List.mem_cons_self).starts
    have hfirst : encode (writeOperands true (o :: os)) =
        b :: (bs ++ encode (writeOperands false os)) := by
      rw [writeOperands, if_pos rfl, List.nil_append, encode_append, hwrite, List.cons_append]
    refine ⟨offset', ?_⟩
    rw [hfirst] at hread ⊢
    rw [List.append_assoc, List.singleton_append]
    exact readValue_list (ne_mark hb rfl) (ne_mark hb rfl) hread

inductive Literal : Operand → Prop where
  | null : Literal .null
  | nothing : Literal .nothing
  | bool (b : Bool) : Literal (.bool b)
  | int (n : Int64) : Literal (.int n)
  | str (s : String) : Literal (.str s)
  | list {items : List Operand} (h : ∀ o ∈ items, Literal o) : Literal (.list items)

/-- A literal is read back from its text. -/
theorem Literal.readsBack {o : Operand} (h : o.Literal) : o.ReadsBack := by
  induction h with
  | null => exact readsBack_null
  | nothing => exact readsBack_nothing
  | bool b => exact readsBack_bool b
  | int n => exact readsBack_int n
  | str s => exact readsBack_str s
  | list h ih => exact readsBack_list ih

end Operand

end DocPath
