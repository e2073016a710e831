import DocPath.Builtin
import DocPath.Proofs.Path.Anchored
import DocPath.Proofs.Path.Literals

/-!
# Paths that are read as they were written

The written form of a fragment is read back with whatever may follow it in a path. Only a bare
name depends on what follows: it needs a byte that belongs to no name.
-/

namespace DocPath

open Text.Utf8

/-- Fragments whose written form tells them from all others. A bracket writes nothing by itself,
and a union of one member is written like that member. -/
def Fragment.Unambiguous : Fragment → Prop
  | .bracket | .filter _ => False
  | .union keys => 2 ≤ keys.length
  | _ => True

variable {offset fuel : Nat} {rest : List UInt8}

/-- A byte of a class is no mark outside it. -/
theorem ne_mark {p : UInt8 → Bool} {b mark : UInt8} (h : p b) (hmark : p mark = false) :
    b ≠ mark := by
  rintro rfl
  rw [h] at hmark
  cases hmark

theorem Cursor.skipSpaces_cons {b : UInt8} (h : b ≠ 0x20) :
    (⟨offset, b :: rest⟩ : Cursor).skipSpaces = ⟨offset, b :: rest⟩ := by
  simp only [skipSpaces, takeWhile, List.takeWhile_cons_of_neg, List.dropWhile_cons_of_neg, h,
    decide_false, Bool.false_eq_true, not_false_eq_true, List.length_nil, Nat.add_zero]

theorem encode_writeInt_cons (i : Int64) :
    ∃ b bs, encode (Decimal.writeInt i.toInt) = b :: bs ∧ beginsInt b := by
  rw [Decimal.writeInt]
  split
  · exact ⟨byteOf '-', _, encode_cons _ _, rfl⟩
  · obtain ⟨d, ds, hds⟩ := List.exists_cons_of_ne_nil (natDigits_ne_nil i.toInt.natAbs)
    have hd := isDigitByte_of_mem_natDigits i.toInt.natAbs d (by simp [hds])
    exact ⟨d, ds, hds, by simp [beginsInt, hd]⟩

/-- The text of an integer is read back, and its first byte tells that it is one. -/
theorem readInt_cons (i : Int64) {ending : UInt8} (h : isDigitByte ending = false) (offset : Nat)
    (rest : List UInt8) :
    ∃ b bs offset', encode (Decimal.writeInt i.toInt) ++ ending :: rest = b :: bs ∧ beginsInt b ∧
      readInt ⟨offset, b :: bs⟩ = .ok (i, some ending, ⟨offset', rest⟩) := by
  obtain ⟨offset', hint⟩ := readInt_writeInt i h offset rest
  obtain ⟨b, bs, hbs, hb⟩ := encode_writeInt_cons i
  rw [hbs, List.cons_append] at hint
  exact ⟨b, bs ++ ending :: rest, offset', by rw [hbs, List.cons_append], hb, hint⟩

theorem not_isQuote_of_beginsInt {b : UInt8} (h : beginsInt b) : ¬ isQuote b := by
  intro hquote
  have quotes : b = byteOf '\'' ∨ b = byteOf '"' := by simpa [isQuote] using hquote
  rcases quotes with rfl | rfl
  · cases h
  · cases h

theorem readBracket_int [Libraries] (i : Int64) (ending : UInt8)
    (hdigit : isDigitByte ending = false)
    (hspace : ending ≠ 0x20) (offset : Nat) (rest : List UInt8) :
    ∃ offset', readBracket (fuel + 1)
      ⟨offset, encode (Decimal.writeInt i.toInt) ++ ending :: rest⟩ =
        if ending = byteOf ']' then .ok (.nth i, ⟨offset', rest⟩)
        else if ending = byteOf ',' then readUnion (.index i) ⟨offset', rest⟩
        else if ending = byteOf ':' then readSlice i ⟨offset', rest⟩
        else (⟨offset', rest⟩ : Cursor).fail .bracketForm := by
  obtain ⟨b, bs, offset', hbs, hb, hint⟩ := readInt_cons i hdigit offset rest
  refine ⟨offset', ?_⟩
  rw [hbs, readBracket, if_neg (by simp), Cursor.skipSpaces_cons (ne_mark hb rfl)]
  simp only [Cursor.peek?, List.head?_cons]
  rw [if_neg (ne_mark hb rfl), readPlainBracket, if_neg (ne_mark hb rfl),
    if_neg (not_isQuote_of_beginsInt hb), if_neg (ne_mark hb rfl), if_neg (ne_mark hb rfl),
    if_pos hb, bind_of_ok hint]
  simp only [pastSpaces, Option.some.injEq, hspace, if_false]

/-- A quoted name is read whichever way it is spelled. -/
theorem readBracket_quoted [Libraries] {quote : UInt8} (hquote : isQuote quote) {bs : List UInt8}
    {name : String} (h : Unquotes quote bs (encode name.toList)) (ending : UInt8)
    (hspace : ending ≠ 0x20) (offset : Nat) (rest : List UInt8) :
    ∃ offset', readBracket (fuel + 1) ⟨offset, quote :: (bs ++ quote :: ending :: rest)⟩ =
      if ending = byteOf ']' then .ok (.child name, ⟨offset', rest⟩)
      else if ending = byteOf ',' then readUnion (.key name) ⟨offset', rest⟩
      else (⟨offset', rest⟩ : Cursor).fail .bracketForm := by
  have hread := h.readQuoted (offset + 1) (ending :: rest)
  rw [decodeString_encode] at hread
  refine ⟨offset + 1 + bs.length + 1 + 1, ?_⟩
  rw [readBracket, if_neg (by simp), Cursor.skipSpaces_cons (ne_mark hquote rfl)]
  simp only [Cursor.peek?, List.head?_cons]
  rw [if_neg (ne_mark hquote rfl), readPlainBracket, if_neg (ne_mark hquote rfl), if_pos hquote]
  refine (bind_of_ok hread).trans ?_
  simp only [Cursor.nextSolid, Cursor.skipSpaces_cons hspace, Cursor.next, Option.some.injEq]

theorem readBracket_name [Libraries] (name : String) (ending : UInt8) (hspace : ending ≠ 0x20)
    (offset : Nat) (rest : List UInt8) :
    ∃ offset', readBracket (fuel + 1)
      ⟨offset, encode (Text.Quoted.write '\'' name.toList) ++ ending :: rest⟩ =
        if ending = byteOf ']' then .ok (.child name, ⟨offset', rest⟩)
        else if ending = byteOf ',' then readUnion (.key name) ⟨offset', rest⟩
        else (⟨offset', rest⟩ : Cursor).fail .bracketForm := by
  rw [encode_write (Or.inl rfl)]
  exact readBracket_quoted rfl (unquotes_name (Or.inl rfl) name.toList) ending hspace offset rest

theorem readSliceStep_write (start stop step : Int64) (offset : Nat) :
    ∃ offset', readSliceStep start stop
      ⟨offset, encode (Decimal.writeInt step.toInt) ++ byteOf ']' :: rest⟩ =
        .ok (.slice ⟨start, stop, step⟩, ⟨offset', rest⟩) := by
  obtain ⟨b, bs, offset', hbs, hb, hint⟩ :=
    readInt_cons step (show isDigitByte (byteOf ']') = false from rfl) offset rest
  refine ⟨offset', ?_⟩
  rw [hbs]
  simp only [readSliceStep, Cursor.peek?, List.head?_cons]
  rw [if_neg (ne_mark hb rfl), bind_of_ok hint]
  rfl

/-- The byte after the second bound of a slice tells whether a step follows. -/
theorem readSlice_bound (start stop : Int64) (ending : UInt8) (h : isDigitByte ending = false)
    (offset : Nat) (rest : List UInt8) :
    ∃ offset', readSlice start
      ⟨offset, encode (Decimal.writeInt stop.toInt) ++ ending :: rest⟩ =
        if ending = byteOf ':' then readSliceStep start stop ⟨offset', rest⟩
        else if ending = byteOf ']' then .ok (.slice ⟨start, stop, 1⟩, ⟨offset', rest⟩)
        else (⟨offset', rest⟩ : Cursor).fail .sliceForm := by
  obtain ⟨b, bs, offset', hbs, hb, hint⟩ := readInt_cons stop h offset rest
  refine ⟨offset', ?_⟩
  rw [hbs]
  simp only [readSlice, Cursor.peek?, List.head?_cons,
    Cursor.skipSpaces_cons (ne_mark hb (show beginsInt 0x20 = false from rfl))]
  rw [if_neg (ne_mark hb rfl), if_neg (ne_mark hb rfl), bind_of_ok hint]
  simp only [Option.some.injEq]

/-- What follows the first colon of a slice. A bound that is left out is read as what it is by
default. -/
theorem readSlice_write (s : Slice) (offset : Nat) :
    ∃ offset', readSlice s.start ⟨offset,
      encode ((if s.stop = Slice.openEnd then [] else Decimal.writeInt s.stop.toInt) ++
        if s.step = 1 then [] else ':' :: Decimal.writeInt s.step.toInt) ++
          byteOf ']' :: rest⟩ = .ok (.slice s, ⟨offset', rest⟩) := by
  obtain ⟨start, stop, step⟩ := s
  dsimp only
  rw [encode_append, List.append_assoc]
  by_cases hstop : stop = Slice.openEnd
  · subst hstop
    rw [if_pos rfl]
    by_cases hstep : step = 1
    · subst hstep
      exact ⟨_, rfl⟩
    · rw [if_neg hstep]
      exact readSliceStep_write start Slice.openEnd step (offset + 1)
  · rw [if_neg hstop]
    by_cases hstep : step = 1
    · subst hstep
      exact readSlice_bound start stop _ rfl offset rest
    · rw [if_neg hstep, encode_cons, List.append_assoc]
      obtain ⟨offset₁, hbound⟩ := readSlice_bound start stop (byteOf ':') rfl offset
        (encode (Decimal.writeInt step.toInt) ++ byteOf ']' :: rest)
      obtain ⟨offset₂, hstep⟩ := readSliceStep_write start stop step offset₁
      exact ⟨offset₂, hbound.trans hstep⟩

theorem readBracket_slice [Libraries] (s : Slice) (offset : Nat) :
    ∃ offset', readBracket (fuel + 1) ⟨offset, encode s.write ++ byteOf ']' :: rest⟩ =
      .ok (.slice s, ⟨offset', rest⟩) := by
  rw [Slice.write, encode_append, encode_cons, List.append_assoc, List.append_assoc]
  by_cases hstart : s.start = 0
  · obtain ⟨offset', hslice⟩ := readSlice_write s (offset + 1)
    rw [hstart] at hslice
    rw [if_pos hstart]
    exact ⟨offset', hslice⟩
  · rw [if_neg hstart]
    obtain ⟨offset₁, hint⟩ := readBracket_int s.start (byteOf ':') rfl (by decide) offset _
    obtain ⟨offset₂, hslice⟩ := readSlice_write s offset₁
    exact ⟨offset₂, hint.trans hslice⟩

theorem readUnionKey_write (k : UnionKey) (ending : UInt8) (hdigit : isDigitByte ending = false)
    (hspace : ending ≠ 0x20) (offset : Nat) (rest : List UInt8) :
    ∃ offset', readUnionKey ⟨offset, encode k.write ++ ending :: rest⟩ =
      .ok (k, some ending, ⟨offset', rest⟩) := by
  cases k with
  | key name =>
    obtain ⟨offset', hname⟩ := readQuoted_write (Or.inl rfl) name (offset + 1) (ending :: rest)
    refine ⟨offset' + 1, ?_⟩
    rw [UnionKey.write, encode_write (Or.inl rfl), readUnionKey, Cursor.skipSpaces_cons (by decide)]
    simp only [Cursor.peek?, List.head?_cons]
    rw [if_pos (by decide)]
    refine (bind_of_ok hname).trans ?_
    simp only [Cursor.nextSolid, Cursor.skipSpaces_cons hspace, Cursor.next]
  | index i =>
    obtain ⟨b, bs, offset', hbs, hb, hint⟩ := readInt_cons i hdigit offset rest
    refine ⟨offset', ?_⟩
    rw [UnionKey.write, hbs, readUnionKey, Cursor.skipSpaces_cons (ne_mark hb rfl)]
    simp only [Cursor.peek?, List.head?_cons]
    rw [if_neg (not_isQuote_of_beginsInt hb), if_pos hb, bind_of_ok hint]
    simp only [pastSpaces, Option.some.injEq, hspace, if_false]

theorem encode_writeKeys_cons (k k' : UnionKey) (ks : List UnionKey) :
    encode (writeKeys (k :: k' :: ks)) =
      encode k.write ++ byteOf ',' :: encode (writeKeys (k' :: ks)) :=
  encode_append k.write (',' :: writeKeys (k' :: ks))

theorem length_le_writeKeys (k : UnionKey) (ks : List UnionKey) :
    ks.length ≤ (encode (writeKeys (k :: ks))).length := by
  induction ks generalizing k with
  | nil => exact Nat.zero_le _
  | cons k' ks ih =>
    have := ih k'
    rw [encode_writeKeys_cons, List.length_append, List.length_cons, List.length_cons]
    omega

theorem readUnionKeys_write (k : UnionKey) (ks : List UnionKey) (offset : Nat)
    (h : ks.length < fuel) :
    ∃ offset', readUnionKeys fuel ⟨offset, encode (writeKeys (k :: ks)) ++ byteOf ']' :: rest⟩ =
      .ok (k :: ks, ⟨offset', rest⟩) := by
  induction ks generalizing k fuel offset with
  | nil =>
    cases fuel with
    | zero => cases h
    | succ fuel =>
      obtain ⟨offset', hkey⟩ := readUnionKey_write k (byteOf ']') rfl (by decide) offset
        rest
      refine ⟨offset', ?_⟩
      rw [writeKeys, readUnionKeys, bind_of_ok hkey]
      rfl
  | cons k' ks ih =>
    cases fuel with
    | zero => cases h
    | succ fuel =>
      obtain ⟨offset₁, hkey⟩ := readUnionKey_write k (byteOf ',') rfl (by decide) offset
        (encode (writeKeys (k' :: ks)) ++ byteOf ']' :: rest)
      obtain ⟨offset₂, hkeys⟩ := ih k' offset₁ (Nat.lt_of_succ_lt_succ h)
      refine ⟨offset₂, ?_⟩
      rw [encode_writeKeys_cons, List.append_assoc, List.cons_append, readUnionKeys,
        bind_of_ok hkey]
      dsimp only
      rw [if_pos rfl, bind_of_ok hkeys]

/-- A union after its first member and comma. -/
theorem readUnion_write (first k : UnionKey) (ks : List UnionKey) (offset : Nat) :
    ∃ offset', readUnion first ⟨offset, encode (writeKeys (k :: ks)) ++ byteOf ']' :: rest⟩ =
      .ok (.union (first :: k :: ks), ⟨offset', rest⟩) := by
  have enough : ks.length < (encode (writeKeys (k :: ks)) ++ byteOf ']' :: rest).length + 1 := by
    have := length_le_writeKeys k ks
    rw [List.length_append]
    omega
  obtain ⟨offset', hkeys⟩ := readUnionKeys_write k ks offset enough
  refine ⟨offset', ?_⟩
  rw [readUnion, if_neg (by simp), bind_of_ok hkeys]

theorem readBracket_union [Libraries] (first k : UnionKey) (ks : List UnionKey) (offset : Nat) :
    ∃ offset', readBracket (fuel + 1)
      ⟨offset, encode (writeKeys (first :: k :: ks)) ++ byteOf ']' :: rest⟩ =
        .ok (.union (first :: k :: ks), ⟨offset', rest⟩) := by
  rw [encode_writeKeys_cons, List.append_assoc, List.cons_append]
  cases first with
  | key name =>
    obtain ⟨offset₁, hname⟩ := readBracket_name name (byteOf ',') (by decide) offset _
    obtain ⟨offset₂, hunion⟩ := readUnion_write (.key name) k ks offset₁
    exact ⟨offset₂, hname.trans hunion⟩
  | index i =>
    obtain ⟨offset₁, hint⟩ := readBracket_int i (byteOf ',') rfl (by decide) offset _
    obtain ⟨offset₂, hunion⟩ := readUnion_write (.index i) k ks offset₁
    exact ⟨offset₂, hint.trans hunion⟩

def EndsName (rest : List UInt8) : Prop := ∀ b ∈ rest.head?, isNameByte b = false

theorem encode_bare {cs : List Char} (h : isBareName cs) :
    ∃ b bs, encode cs = b :: bs ∧ isNameByte b := by
  have hall := List.all_eq_true.mp (Bool.and_eq_true_iff.mp h).2
  have hne : cs ≠ [] := by
    rintro rfl
    cases h
  obtain ⟨b, bs, hbs⟩ := List.exists_cons_of_ne_nil (encode_ne_nil hne)
  exact ⟨b, bs, hbs, hall b (hbs ▸ List.mem_cons_self)⟩

theorem readName_bare {name : String} (h : isBareName name.toList)
    (hrest : EndsName rest) (offset : Nat) :
    readName ⟨offset, encode name.toList ++ rest⟩ =
      .ok (.child name, ⟨offset + (encode name.toList).length, rest⟩) := by
  have hall := List.all_eq_true.mp (Bool.and_eq_true_iff.mp h).2
  rw [readName, Cursor.takeWhile_append hall hrest]
  simp only [decodeString_encode]

theorem readAfterPoint_bare {name : String} (h : isBareName name.toList)
    (hrest : EndsName rest) (offset : Nat) :
    readAfterPoint ⟨offset, encode name.toList ++ rest⟩ =
      .ok (.child name, ⟨offset + (encode name.toList).length, rest⟩) := by
  have hname := readName_bare h hrest offset
  obtain ⟨b, bs, hbs, hb⟩ := encode_bare h
  rw [← hname, hbs, List.cons_append]
  simp only [readAfterPoint, Cursor.peek?, List.head?_cons]
  rw [if_neg (ne_mark hb rfl), if_neg (ne_mark hb rfl), if_pos hb]

section step

variable {first after : Bool} {bytes : List UInt8} {f : Fragment} {fs : Path} {c c' : Cursor}

theorem readFragments_point [Libraries] (h : readAfterPoint ⟨offset + 1, bytes⟩ = .ok (f, c))
    (hfs : readFragments fuel false f.isDescent c = .ok (fs, c')) :
    readFragments (fuel + 1) first after ⟨offset, byteOf '.' :: bytes⟩ = .ok (f :: fs, c') := by
  rw [readFragments]
  simp only [Cursor.peek?, List.head?_cons]
  rw [if_neg fun hb => absurd hb.1 (by decide), if_neg fun hb => absurd hb.1 (by decide),
    if_pos trivial]
  exact (bind_of_ok h).trans (bind_of_ok hfs)

theorem readFragments_bracket [Libraries] (h : readBracket fuel ⟨offset + 1, bytes⟩ = .ok (f, c))
    (hfs : readFragments fuel false f.isDescent c = .ok (fs, c')) :
    readFragments (fuel + 1) first after ⟨offset, byteOf '[' :: bytes⟩ = .ok (f :: fs, c') := by
  rw [readFragments]
  simp only [Cursor.peek?, List.head?_cons]
  rw [if_neg fun hb => absurd hb.1 (by decide), if_neg fun hb => absurd hb.1 (by decide),
    if_neg (by decide), if_neg (by decide), if_pos trivial]
  exact (bind_of_ok h).trans (bind_of_ok hfs)

/-- A name may stand without a point at the start of a path and after a descent. -/
theorem readFragments_name [Libraries] (hplace : first = true ∨ after = true) {b : UInt8}
    (hb : isNameByte b) (h : readName ⟨offset, b :: bytes⟩ = .ok (f, c))
    (hfs : readFragments fuel false f.isDescent c = .ok (fs, c')) :
    readFragments (fuel + 1) first after ⟨offset, b :: bytes⟩ = .ok (f :: fs, c') := by
  rw [readFragments]
  simp only [Cursor.peek?, List.head?_cons]
  rw [if_neg fun h => ne_mark hb rfl h.1, if_neg fun h => ne_mark hb rfl h.1,
    if_neg (ne_mark hb rfl), if_neg (ne_mark hb rfl), if_neg (ne_mark hb rfl),
    if_pos ⟨hb, hplace⟩]
  exact (bind_of_ok h).trans (bind_of_ok hfs)

end step

def Fragment.Rereads [Libraries] (fuel : Nat) (first after : Bool) (rest : List UInt8)
    (f : Fragment) : Prop :=
  ∀ offset, ∃ offset', ∀ fs c, readFragments fuel false f.isDescent ⟨offset', rest⟩ = .ok (fs, c) →
    readFragments (fuel + 1) first after
      ⟨offset, encode (f.write false (first || after)) ++ rest⟩ = .ok (f :: fs, c)

namespace Fragment

variable {first after : Bool} {f : Fragment}

theorem Rereads.of_brackets [Libraries] {text : List Char}
    (hwrite : f.write false (first || after) = '[' :: (text ++ [']']))
    (hread : ∀ offset, ∃ offset', readBracket fuel ⟨offset, encode text ++ byteOf ']' :: rest⟩ =
      .ok (f, ⟨offset', rest⟩)) : f.Rereads fuel first after rest := by
  intro offset
  obtain ⟨offset', h⟩ := hread (offset + 1)
  refine ⟨offset', fun fs c hfs => ?_⟩
  rw [hwrite, encode_cons, encode_append, List.append_assoc, List.append_assoc]
  exact readFragments_bracket h hfs

theorem rereads_child [Libraries] {name : String} (hrest : EndsName rest) :
    (child name).Rereads (fuel + 1) first after rest := by
  by_cases hbare : isBareName name.toList
  · intro offset
    cases hplace : first || after with
    | false =>
      refine ⟨offset + 1 + (encode name.toList).length, fun fs c hfs => ?_⟩
      rw [Fragment.write, if_neg (by simp [hbare]), if_neg (by decide), encode_cons]
      exact readFragments_point (readAfterPoint_bare hbare hrest (offset + 1)) hfs
    | true =>
      refine ⟨offset + (encode name.toList).length, fun fs c hfs => ?_⟩
      rw [Fragment.write, if_neg (by simp [hbare]), if_pos rfl]
      have hname := readName_bare hbare hrest offset
      obtain ⟨b, bs, hbs, hb⟩ := encode_bare hbare
      rw [hbs, List.cons_append] at hname ⊢
      rw [← hbs] at hname
      exact readFragments_name (by simpa using hplace) hb hname hfs
  · refine .of_brackets ?_ fun offset => readBracket_name name (byteOf ']') (by decide) offset rest
    rw [Fragment.write, if_pos (by simpa using hbare)]

/-- An unambiguous fragment is read back. A bare name needs to know what follows it. -/
theorem Unambiguous.rereads [Libraries] (hf : f.Unambiguous) (fuel : Nat) (after : Bool)
    (hfirst : first = true ∨ f.moves) (hrest : f.isDescent = false → EndsName rest) :
    f.Rereads (fuel + 1) first after rest := by
  cases f with
  | root =>
    obtain rfl : first = true := by simpa [Fragment.moves] using hfirst
    exact fun offset => ⟨offset + 1, fun fs c hfs => bind_of_ok hfs⟩
  | current =>
    obtain rfl : first = true := by simpa [Fragment.moves] using hfirst
    exact fun offset => ⟨offset + 1, fun fs c hfs => bind_of_ok hfs⟩
  | bracket => exact hf.elim
  | child name => exact rereads_child (hrest rfl)
  | nth i =>
    exact .of_brackets rfl fun offset => readBracket_int i (byteOf ']') rfl (by decide) offset rest
  | wildcard =>
    cases hplace : first || after with
    | false =>
      intro offset
      refine ⟨offset + 2, fun fs c hfs => ?_⟩
      rw [hplace]
      exact readFragments_point rfl hfs
    | true =>
      intro offset
      refine ⟨offset + 1, fun fs c hfs => ?_⟩
      rw [hplace]
      exact bind_of_ok hfs
  | descent => exact fun offset => ⟨offset + 2, fun fs c hfs => readFragments_point rfl hfs⟩
  | slice s => exact .of_brackets rfl fun offset => readBracket_slice s offset
  | union keys =>
    rcases keys with _ | ⟨k, _ | ⟨k', ks⟩⟩
    · exact absurd (show 2 ≤ 0 from hf) (by decide)
    · exact absurd (show 2 ≤ 1 from hf) (by decide)
    · exact .of_brackets rfl fun offset => readBracket_union k k' ks offset
  | filter template => exact hf.elim

theorem Unambiguous.write_ne_nil (hf : f.Unambiguous) (first : Bool) :
    f.write false first ≠ [] := by
  cases f with
  | bracket => exact hf.elim
  | filter template => exact hf.elim
  | child name =>
    rw [write]
    split_ifs with hquoted hfirst
    · exact List.cons_ne_nil _ _
    · intro hnil
      simp [hnil, isBareName] at hquoted
    · exact List.cons_ne_nil _ _
  | wildcard => cases first <;> exact List.cons_ne_nil _ _
  | _ => exact List.cons_ne_nil _ _

/-- No fragment begins with a byte of a name, except a name where it needs no point. -/
theorem Unambiguous.write_cons (hf : f.Unambiguous) :
    ∃ b bs, encode (f.write false false) = b :: bs ∧ isNameByte b = false := by
  cases f with
  | root => exact ⟨byteOf '$', _, rfl, rfl⟩
  | current => exact ⟨byteOf '@', _, rfl, rfl⟩
  | bracket => exact hf.elim
  | child name =>
    rw [write]
    split
    · exact ⟨byteOf '[', _, encode_cons _ _, rfl⟩
    · rw [if_neg Bool.false_ne_true]
      exact ⟨byteOf '.', _, encode_cons _ _, rfl⟩
  | wildcard => exact ⟨byteOf '.', _, rfl, rfl⟩
  | descent => exact ⟨byteOf '.', _, rfl, rfl⟩
  | filter template => exact hf.elim
  | _ => exact ⟨byteOf '[', _, encode_cons _ _, rfl⟩

end Fragment

/-- Fragments that are read back in every place of a path. A bare name needs to know what follows
it, and reading takes no more than two calls for each byte. -/
structure Fragment.ReadsBack [Libraries] (f : Fragment) : Prop where
  rereads {first after : Bool} {fuel : Nat} {rest : List UInt8} (hfirst : first = true ∨ f.moves)
    (hrest : f.isDescent = false → EndsName rest)
    (hfuel : 2 * (encode (f.write false (first || after))).length ≤ fuel + 1) :
    f.Rereads fuel first after rest
  ne_bracket : f ≠ .bracket
  write_ne_nil (first : Bool) : f.write false first ≠ []
  write_cons : ∃ b bs, encode (f.write false false) = b :: bs ∧ isNameByte b = false

theorem Fragment.ReadsBack.length_pos [Libraries] {f : Fragment} (hf : f.ReadsBack) (first : Bool) :
    0 < (encode (f.write false first)).length :=
  List.length_pos_iff.mpr (encode_ne_nil (hf.write_ne_nil first))

theorem Fragment.Unambiguous.readsBack [Libraries] {f : Fragment} (hf : f.Unambiguous) :
    f.ReadsBack where
  rereads {first after fuel rest} hfirst hrest hfuel := by
    have hpos := List.length_pos_iff.mpr (encode_ne_nil (hf.write_ne_nil (first || after)))
    obtain ⟨fuel, rfl⟩ : ∃ n, fuel = n + 1 := ⟨fuel - 1, by omega⟩
    exact hf.rereads fuel after hfirst hrest
  ne_bracket := by
    rintro rfl
    exact hf
  write_ne_nil := hf.write_ne_nil
  write_cons := hf.write_cons

/-- What may follow an operand of a script: nothing, a blank, or a mark that no operand goes on
with. -/
def EndsOperand (rest : List UInt8) : Prop :=
  ∀ b ∈ rest.head?, b = 0x20 ∨ b = byteOf ')' ∨ b = byteOf ',' ∨ b = byteOf ']'

theorem endsOperand_cons {b : UInt8}
    (h : b = 0x20 ∨ b = byteOf ')' ∨ b = byteOf ',' ∨ b = byteOf ']') :
    EndsOperand (b :: rest) := by
  rintro _ ⟨⟩
  exact h

theorem EndsOperand.endsName (h : EndsOperand rest) : EndsName rest := by
  intro b hb
  rcases h b hb with rfl | rfl | rfl | rfl <;> rfl

/-- A path ends where an operand does. -/
theorem readFragments_endsOperand [Libraries] (h : EndsOperand rest) (fuel offset : Nat)
    (first after : Bool) :
    readFragments (fuel + 1) first after ⟨offset, rest⟩ = .ok ([], ⟨offset, rest⟩) := by
  cases rest with
  | nil => rfl
  | cons b rest => rcases h b rfl with rfl | rfl | rfl | rfl <;> rfl

variable {p : Path}

theorem writeFragments_cons {f : Fragment} (hf : f ≠ .bracket) (first : Bool) (fs : Path) :
    writeFragments false first (f :: fs) =
      f.write false first ++ writeFragments false f.isDescent fs := by
  cases f with
  | bracket => exact absurd rfl hf
  | _ => rfl

theorem endsName_writeFragments [Libraries] (hp : ∀ f ∈ p, f.ReadsBack) (hrest : EndsName rest) :
    EndsName (encode (writeFragments false false p) ++ rest) := by
  cases p with
  | nil => exact hrest
  | cons f fs =>
    have hf := hp f List.mem_cons_self
    obtain ⟨b, bs, hbs, hb⟩ := hf.write_cons
    rw [writeFragments_cons hf.ne_bracket, encode_append, hbs]
    rintro _ ⟨⟩
    exact hb

/-- The text of a path is read back from any place of the path on. -/
theorem readFragments_write [Libraries] (hp : ∀ f ∈ p, f.ReadsBack) (hrest : EndsOperand rest)
    (first after : Bool) (hpos : 0 < fuel)
    (hfuel : 2 * (encode (writeFragments false (first || after) p)).length ≤ fuel)
    (hfirst : ∀ f ∈ p.head?, first = true ∨ f.moves) (htail : p.Anchored) (offset : Nat) :
    ∃ offset', readFragments fuel first after
      ⟨offset, encode (writeFragments false (first || after) p) ++ rest⟩ =
        .ok (p, ⟨offset', rest⟩) := by
  obtain ⟨fuel, rfl⟩ : ∃ n, fuel = n + 1 := ⟨fuel - 1, by omega⟩
  induction p generalizing fuel first after offset with
  | nil => exact ⟨offset, readFragments_endsOperand hrest fuel offset first after⟩
  | cons f fs ih =>
    obtain ⟨hf, hfs⟩ := List.forall_mem_cons.mp hp
    have hlen := hf.length_pos (first || after)
    rw [writeFragments_cons hf.ne_bracket, encode_append, List.length_append] at hfuel
    obtain ⟨fuel, rfl⟩ : ∃ n, fuel = n + 1 := ⟨fuel - 1, by omega⟩
    have hstepFuel : 2 * (encode (f.write false (first || after))).length ≤ fuel + 1 + 1 := by
      omega
    have hname : f.isDescent = false →
        EndsName (encode (writeFragments false f.isDescent fs) ++ rest) := by
      intro hd
      rw [hd]
      exact endsName_writeFragments hfs hrest.endsName
    obtain ⟨offset₁, hstep⟩ := hf.rereads (hfirst f rfl) hname hstepFuel offset
    obtain ⟨offset₂, hmore⟩ := ih hfs false f.isDescent
      (fun g hg => Or.inr (htail g (List.mem_of_mem_head? hg)))
      (fun g hg => htail g (List.mem_of_mem_tail hg)) offset₁ fuel (Nat.succ_pos fuel)
      (by rw [Bool.false_or]; omega)
    refine ⟨offset₂, ?_⟩
    rw [writeFragments_cons hf.ne_bracket, encode_append, List.append_assoc]
    exact hstep fs _ hmore

/-- A path is read from its own text if it goes back to the document or the value at hand at most at
its start and its fragments are read back. -/
theorem Path.parse_text_of_readsBack [Libraries] (hp : ∀ f ∈ p, f.ReadsBack)
    (hanchored : p.Anchored) :
    Path.parse p.text = .ok p := by
  have hdepth : 0 < readingDepth (encode (writeFragments false true p)).length ∧
      2 * (encode (writeFragments false true p)).length ≤
        readingDepth (encode (writeFragments false true p)).length := by
    rw [readingDepth]
    omega
  obtain ⟨offset, hread⟩ := readFragments_write hp (show EndsOperand [] from nofun) true false
    hdepth.1 hdepth.2 (fun _ _ => Or.inl rfl) hanchored 0
  rw [Bool.or_false, List.append_nil] at hread
  rw [parse, text, String.toList_ofList, parseBytes, readAll]
  dsimp only
  rw [Cursor.start, bind_of_ok hread]
  rfl

/-- A path without brackets and filters is read from its own text, if it goes back to the
document or the value at hand at most at its start and its unions have at least two members. -/
theorem Path.parse_text [Libraries] (hp : ∀ f ∈ p, f.Unambiguous) (hanchored : p.Anchored) :
    Path.parse p.text = .ok p :=
  parse_text_of_readsBack (fun f hf => (hp f hf).readsBack) hanchored

theorem Path.parse_text_of_mixed :
    let p : Path := [.root, .descent, .descent, .child "key", .child "it's", .descent,
      .union [.key "", .index (-1)], .slice ⟨0, -1, 2⟩, .wildcard]
    (∀ f ∈ p, f.Unambiguous) ∧ p.Anchored ∧ p.text = "$....key['it\\'s']..['',-1][:-1:2].*" ∧
      Path.parse "$....key['it\\'s']..['',-1][:-1:2].*" = .ok p := by
  intro p
  have hp : ∀ f ∈ p, f.Unambiguous := by simp [p, Fragment.Unambiguous]
  have hanchored : p.Anchored := by simp [p, Path.Anchored, Fragment.moves]
  have htext : p.text = "$....key['it\\'s']..['',-1][:-1:2].*" := by decide +kernel
  exact ⟨hp, hanchored, htext, htext ▸ parse_text hp hanchored⟩

end DocPath
