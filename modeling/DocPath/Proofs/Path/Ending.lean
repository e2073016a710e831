import DocPath.Proofs.Path.Lexemes

/-!
# Reading comes to an end inside the input

The readers of fragments and of scripts call each other, and some calls pass over nothing: a list
is read by its first operand, an operand by the path at the same place. A rank decides between the
readers that start at one place, and every other call has at least a byte less to read. So the
bound on calls is never used up. All readers, whether they succeed or fail, are then at a place of
the input: a number of bytes has been passed over, and the others are still to be read.
-/

namespace DocPath

namespace Cursor

variable {c c' c'' : Cursor}

/-- One place is further on in the same input than another, or the same. -/
structure Before (c c' : Cursor) : Prop where
  rest : c'.rest <:+ c.rest
  offset : c'.offset + c'.rest.length = c.offset + c.rest.length

namespace Before

theorem refl (c : Cursor) : c.Before c := ⟨List.suffix_rfl, rfl⟩

theorem trans (h : c.Before c') (h' : c'.Before c'') : c.Before c'' :=
  ⟨h'.rest.trans h.rest, h'.offset.trans h.offset⟩

theorem length_le (h : c.Before c') : c'.rest.length ≤ c.rest.length := h.rest.length_le

theorem of_append (text : List UInt8) {rest : List UInt8} (h : c.rest = text ++ rest) :
    c.Before ⟨c.offset + text.length, rest⟩ := by
  refine ⟨h ▸ List.suffix_append text rest, ?_⟩
  rw [h, List.length_append, Nat.add_assoc]

end Before

theorem before_skip (c : Cursor) (n : Nat) : c.Before (c.skip n) :=
  .of_append _ (List.take_append_drop n c.rest).symm

theorem before_takeWhile (c : Cursor) (p : UInt8 → Bool) : c.Before (c.takeWhile p).2 :=
  .of_append _ List.takeWhile_append_dropWhile.symm

theorem before_skipSpaces (c : Cursor) : c.Before c.skipSpaces := c.before_takeWhile _

theorem before_next (c : Cursor) : c.Before c.next.2 := by
  unfold next
  split
  · exact .refl c
  · exact .of_append [_] ‹_›

theorem before_of_next {b : Option UInt8} (h : c.next = (b, c')) : c.Before c' := by
  have hnext := c.before_next
  rwa [h] at hnext

theorem length_of_next {b : UInt8} (h : c.next = (some b, c')) :
    c'.rest.length < c.rest.length := by
  rw [rest_of_next h]
  exact Nat.lt_succ_self _

theorem before_nextSolid (c : Cursor) : c.Before c.nextSolid.2 :=
  c.before_skipSpaces.trans c.skipSpaces.before_next

theorem before_of_nextSolid {b : Option UInt8} (h : c.nextSolid = (b, c')) : c.Before c' :=
  c.before_skipSpaces.trans (before_of_next h)

theorem length_of_nextSolid {b : UInt8} (h : c.nextSolid = (some b, c')) :
    c'.rest.length < c.rest.length :=
  Nat.lt_of_lt_of_le (length_of_next h) c.before_skipSpaces.length_le

theorem length_skip_one {b : UInt8} (h : c.peek? = some b) :
    (c.skip 1).rest.length < c.rest.length := by
  rw [rest_of_peek? h]
  exact Nat.lt_succ_self _

/-- Wherever reading stops, it is at a place of the input that is not before the start, and not
because of the bound on calls. -/
def EndsAt {α : Type} (place : α → Cursor) (c : Cursor) : Except Failure α → Prop
  | .ok a => c.Before (place a)
  | .error f => f.fault ≠ .exhausted ∧ ∃ c', c.Before c' ∧ f.offset = c'.offset

/-- A reader that gives the place after what it has read. -/
abbrev Ends {α : Type} (c : Cursor) (x : Except Failure (α × Cursor)) : Prop :=
  c.EndsAt Prod.snd x

namespace EndsAt

variable {α β : Type} {place : α → Cursor} {place' : β → Cursor}

theorem ok {a : α} (h : c.Before (place a)) : c.EndsAt place (.ok a) := h

theorem fail {e : Fault} (h : c.Before c') (he : e ≠ .exhausted) :
    c.EndsAt place (c'.fail e) :=
  ⟨he, c', h, rfl⟩

theorem bind {x : Except Failure α} {k : α → Except Failure β} (hx : c.EndsAt place x)
    (hk : ∀ a, x = .ok a → c.Before (place a) → c.EndsAt place' (k a)) :
    c.EndsAt place' (x >>= k) := by
  cases x with
  | error f => exact hx
  | ok a => exact hk a rfl hx

theorem ite {p : Prop} [Decidable p] {x y : Except Failure α} (hx : c.EndsAt place x)
    (hy : c.EndsAt place y) : c.EndsAt place (if p then x else y) := by
  split
  · exact hx
  · exact hy

theorem before {x : Except Failure α} {a : α} (h : c.EndsAt place x) (hx : x = .ok a) :
    c.Before (place a) := by
  subst hx
  exact h

theorem after {x : Except Failure α} (h : c.Before c') (hx : c'.EndsAt place x) :
    c.EndsAt place x := by
  cases x with
  | error f =>
    obtain ⟨he, c'', hc, hoffset⟩ := hx
    exact ⟨he, c'', h.trans hc, hoffset⟩
  | ok a => exact h.trans hx

end EndsAt

end Cursor

open Cursor

section literals

variable {c : Cursor}

theorem appendDigits_error {negative : Bool} {n : Int} {count stop : Nat} {digits : List UInt8}
    (h : appendDigits negative n count digits = .error stop) : stop ≤ count + digits.length := by
  induction digits generalizing n count with
  | nil => cases h
  | cons b digits ih =>
    rw [appendDigits] at h
    generalize (if negative then _ else _ : Int) = m at h
    rw [List.length_cons]
    split at h
    · have hmore := ih h
      omega
    · cases h
      omega

theorem readInt_ends (c : Cursor) : c.EndsAt (fun r => r.2.2) (readInt c) := by
  unfold readInt
  dsimp only
  have hsign : c.Before (if c.peek? = some (byteOf '-') then c.skip 1 else c) := by
    split
    · exact c.before_skip 1
    · exact .refl c
  generalize (if c.peek? = some (byteOf '-') then c.skip 1 else c) = start at hsign
  refine .ite (.fail (hsign.trans start.before_next) nofun) ?_
  split
  · exact .ok (hsign.trans ((start.before_takeWhile _).trans (before_next _)))
  · rename_i count hcount
    have hle := appendDigits_error hcount
    have hdigits := (List.takeWhile_prefix (l := start.rest) isDigitByte).length_le
    refine ⟨nofun, start.skip count, hsign.trans (start.before_skip count), ?_⟩
    dsimp only [takeWhile] at hle
    dsimp only [skip]
    rw [List.length_take, Nat.min_eq_left (by omega)]

theorem readHex_ends (c : Cursor) : c.Ends (readHex c) := by
  unfold readHex
  split
  · exact .fail (before_of_next ‹_›) nofun
  · have hnext := before_of_next ‹_›
    exact .ite (.ok hnext) (.ite (.ok hnext) (.ite (.ok hnext) (.fail hnext nofun)))

theorem readHex4_ends (c : Cursor) : c.Ends (readHex4 c) :=
  .bind (readHex_ends c) fun _ _ h₃ => .after h₃ <| .bind (readHex_ends _) fun _ _ h₂ =>
    .after h₂ <| .bind (readHex_ends _) fun _ _ h₁ => .after h₁ <|
      .bind (readHex_ends _) fun _ _ h₀ => .ok h₀

/-- After a low surrogate that is none, reading goes on where it would have begun. -/
theorem readCodeEscape_ends (c : Cursor) : c.Ends (readCodeEscape c) := by
  refine .bind (readHex4_ends c) fun high _ hhigh => .after hhigh ?_
  refine .ite ?_ (.ok (.refl _))
  refine .bind (.after (before_skip _ 2) (readHex4_ends _)) fun low _ hlow => ?_
  exact .ite (.ok hlow) (.ok (.refl _))

theorem readEscape_ends (c : Cursor) : c.Ends (readEscape c) := by
  unfold readEscape
  split
  · exact .fail (before_of_next ‹_›) nofun
  · have hnext := before_of_next ‹_›
    split
    all_goals try exact .ok hnext
    · refine .after hnext (.bind (readHex_ends _) fun _ _ hhigh => .after hhigh ?_)
      exact .bind (readHex_ends _) fun _ _ hlow => .ok hlow
    · exact .after hnext (.bind (readCodeEscape_ends _) fun _ _ hcode => .ok hcode)
    · exact .after hnext (.bind (readCodeEscape_ends _) fun _ _ hcode => .ok hcode)
    · exact .fail hnext nofun

theorem readQuotedBytes_ends {fuel : Nat} (quote : UInt8) (c : Cursor)
    (enough : c.rest.length < fuel) : c.Ends (readQuotedBytes fuel quote c) := by
  induction fuel generalizing c with
  | zero => exact absurd enough (Nat.not_lt_zero _)
  | succ fuel ih =>
    rw [readQuotedBytes]
    split
    · exact .fail (before_of_next ‹_›) (by rintro ⟨⟩)
    · rename_i hnext
      have hless := length_of_next hnext
      refine .after (before_of_next hnext) (.ite (.ok (.refl _)) (.ite ?_ ?_))
      · refine .bind (readEscape_ends _) fun r _ hescape => .after hescape ?_
        have hle := hescape.length_le
        exact .bind (ih r.2 (by omega)) fun _ _ hmore => .ok hmore
      · exact .bind (ih _ (by omega)) fun _ _ hmore => .ok hmore

theorem readQuoted_ends (quote : UInt8) (c : Cursor) : c.Ends (readQuoted quote c) :=
  .bind (readQuotedBytes_ends quote c (Nat.lt_succ_self _)) fun _ _ h => .ok h

theorem readPatternBytes_ends (offset : Nat) (bytes : List UInt8) :
    Ends ⟨offset, bytes⟩ (readPatternBytes offset bytes) := by
  induction bytes using List.twoStepInduction generalizing offset with
  | nil => exact .fail (.refl _) nofun
  | singleton b =>
    have hbehind : Before ⟨offset, [b]⟩ ⟨offset + 1, []⟩ := .of_append [b] rfl
    exact .ite (.ok hbehind) (.fail hbehind nofun)
  | cons_cons b b' bytes ih ih' =>
    have hone : Before ⟨offset, b :: b' :: bytes⟩ ⟨offset + 1, b' :: bytes⟩ :=
      .of_append [b] rfl
    have htwo : Before ⟨offset, b :: b' :: bytes⟩ ⟨offset + 2, bytes⟩ :=
      .of_append [b, b'] rfl
    rw [readPatternBytes]
    refine .ite (.ok hone) (.ite (.after htwo ?_) (.after hone ?_))
    · exact .bind (ih _) fun _ _ h => .ok h
    · exact .bind (ih' b' _) fun _ _ h => .ok h

theorem readPattern_ends [Libraries] (c : Cursor) : c.Ends (readPattern c) := by
  refine .bind (readPatternBytes_ends c.offset c.rest) fun _ _ h => ?_
  dsimp only
  split
  · exact .ok h
  · exact .fail h nofun

theorem before_readFraction (c : Cursor) : c.Before (readFraction c).2 := by
  unfold readFraction
  split
  · split
    · exact (c.before_skip 1).trans (before_takeWhile _ _)
    · exact .refl c
  · exact .refl c

theorem before_readSign (c : Cursor) : c.Before (readSign c).2 := by
  unfold readSign
  split
  · split
    · exact c.before_skip 1
    · exact .refl c
  · exact .refl c

theorem readExponent_ends (c : Cursor) : c.Ends (readExponent c) := by
  unfold readExponent
  split
  · have hdigits := (c.before_skip 1).trans
      ((before_readSign _).trans (before_takeWhile _ isDigitByte))
    exact .ite (.ite (.fail hdigits nofun) (.ok hdigits)) (.ok (.refl c))
  · exact .ok (.refl c)

theorem readNumber_ends (c : Cursor) : c.Ends (readNumber c) := by
  have hfraction := (c.before_skip 1).trans
    ((before_takeWhile _ isDigitByte).trans (before_readFraction _))
  refine .after hfraction (.bind (readExponent_ends _) fun r _ hexponent => .ite ?_ ?_)
  · split
    · exact .ok hexponent
    · exact .fail hexponent nofun
    · exact .fail hexponent nofun
    · exact .fail hexponent nofun
  · split
    · exact .ok hexponent
    · exact .fail hexponent nofun

end literals

theorem readName_ends (c : Cursor) : c.Ends (readName c) := .ok (c.before_takeWhile isNameByte)

theorem readName_length {c c' : Cursor} {b : UInt8} {f : Fragment} (hpeek : c.peek? = some b)
    (hb : isNameByte b) (h : readName c = .ok (f, c')) : c'.rest.length < c.rest.length := by
  cases h
  rw [rest_of_peek? hpeek]
  dsimp only [takeWhile]
  rw [List.dropWhile_cons_of_pos hb]
  exact Nat.lt_succ_of_le (List.dropWhile_suffix _).length_le

theorem readAfterPoint_ends (c : Cursor) : c.Ends (readAfterPoint c) := by
  unfold readAfterPoint
  split
  · exact .fail (.refl c) nofun
  · exact .ite (.ok (c.before_skip 1)) (.ite (.ok (c.before_skip 1))
      (.ite (readName_ends c) (.fail (c.before_skip 1) nofun)))

theorem readSliceStep_ends (start stop : Int64) (c : Cursor) :
    c.Ends (readSliceStep start stop c) := by
  unfold readSliceStep
  split
  · exact .fail (.refl c) nofun
  · exact .ite (.ok (c.before_skip 1))
      (.bind (readInt_ends c) fun _ _ h => .ite (.ok h) (.fail h nofun))

theorem readSlice_ends (start : Int64) (c : Cursor) : c.Ends (readSlice start c) := by
  unfold readSlice
  split
  · exact .fail (.refl c) nofun
  · refine .ite (.ok (c.before_skip 1)) (.after c.before_skipSpaces ?_)
    dsimp only
    split
    · exact .fail (.refl _) nofun
    · refine .ite (.after (before_skip _ 1) (readSliceStep_ends _ _ _)) ?_
      refine .bind (readInt_ends _) fun _ _ h => .after h ?_
      exact .ite (readSliceStep_ends _ _ _) (.ite (.ok (.refl _)) (.fail (.refl _) nofun))

theorem before_pastSpaces (ending : Option UInt8) (c : Cursor) :
    c.Before (pastSpaces ending c).2 := by
  unfold pastSpaces
  split
  · exact c.before_nextSolid
  · exact .refl c

theorem readUnionKey_ends (c : Cursor) : c.EndsAt (fun r => r.2.2) (readUnionKey c) := by
  refine .after c.before_skipSpaces ?_
  unfold readUnionKey
  dsimp only
  split
  · exact .fail (.refl _) nofun
  · refine .ite (.after (before_skip _ 1) ?_) (.ite ?_ (.fail (before_skip _ 1) nofun))
    · exact .bind (readQuoted_ends _ _) fun _ _ h => .ok (h.trans (before_nextSolid _))
    · exact .bind (readInt_ends _) fun _ _ h => .ok (h.trans (before_pastSpaces _ _))

theorem Passes.length_le {bytes rest : List UInt8} (h : Passes bytes rest) :
    rest.length ≤ bytes.length := by
  obtain ⟨text, rfl, -⟩ := h
  rw [List.length_append]
  exact Nat.le_add_left _ _

/-- A member of a union with a byte after it is not empty. -/
theorem readUnionKey_length {c c' : Cursor} {key : UnionKey} {b : UInt8}
    (h : readUnionKey c = .ok (key, some b, c')) : c'.rest.length < c.rest.length := by
  have hle := c.before_skipSpaces.length_le
  unfold readUnionKey at h
  dsimp only at h
  split at h
  · cases h
  · rename_i hpeek
    split at h
    · obtain ⟨⟨name, c₁⟩, hname, h⟩ := exists_of_bind h
      have hnext := length_of_nextSolid (Prod.mk.inj (Except.ok.inj h)).2
      have hquoted := ((readQuoted_ends _ _).before hname).length_le
      have hskip := length_skip_one hpeek
      dsimp only at hquoted hnext
      omega
    · split at h
      · obtain ⟨⟨i, ending, c₁⟩, hint, h⟩ := exists_of_bind h
        have hnext := (Prod.mk.inj (Except.ok.inj h)).2
        have hpasses := (readInt_passes hint).trans (pastSpaces_passes hnext)
        exact Nat.lt_of_lt_of_le (Nat.lt_succ_self _) (hpasses.length_le.trans hle)
      · cases h

theorem readUnionKeys_ends {fuel : Nat} (c : Cursor) (enough : c.rest.length < fuel) :
    c.Ends (readUnionKeys fuel c) := by
  induction fuel generalizing c with
  | zero => exact absurd enough (Nat.not_lt_zero _)
  | succ fuel ih =>
    refine .bind (readUnionKey_ends c) fun r hr hkey => .after hkey ?_
    obtain ⟨key, ending, c₁⟩ := r
    dsimp only
    split
    · rename_i hending
      have hless := readUnionKey_length (hending ▸ hr)
      exact .bind (ih c₁ (by omega)) fun _ _ h => .ok h
    · exact .ite (.ok (.refl _)) (.fail (.refl _) nofun)

theorem readUnion_ends (first : UnionKey) (c : Cursor) : c.Ends (readUnion first c) :=
  .ite (.fail (.refl c) nofun)
    (.bind (readUnionKeys_ends c (Nat.lt_succ_self _)) fun _ _ h => .ok h)

theorem readPlainBracket_ends (b : UInt8) (c : Cursor) : c.Ends (readPlainBracket b c) := by
  have hskip := c.before_skip 1
  have hstar := hskip.trans (before_nextSolid _)
  unfold readPlainBracket
  refine .ite (.ite (.ok hstar) (.fail hstar nofun)) (.ite ?_ (.ite ?_ (.ite ?_ (.ite ?_ ?_))))
  · refine .after hskip (.bind (readQuoted_ends _ _) fun r _ h => .after h ?_)
    refine .after (before_nextSolid _) ?_
    exact .ite (.ok (.refl _)) (.ite (readUnion_ends _ _) (.fail (.refl _) nofun))
  · exact .after hskip (readSlice_ends _ _)
  · exact .fail hskip nofun
  · refine .bind (readInt_ends c) fun r _ h => .after h ?_
    refine .after (before_pastSpaces r.2.1 _) ?_
    exact .ite (.ok (.refl _)) (.ite (readUnion_ends _ _)
      (.ite (readSlice_ends _ _) (.fail (.refl _) nofun)))
  · exact .fail hskip nofun

theorem readWord_ends (word : String) (v : Operand) (c : Cursor) :
    c.Ends (readWord word v c) :=
  .ite (.ok (c.before_skip _)) (.fail (c.before_skip _) nofun)

theorem readOperatorToken_ends (token : List Char) (offset : Nat) (bytes : List UInt8) :
    Ends ⟨offset, bytes⟩ (readOperatorToken token offset bytes) := by
  induction bytes generalizing token offset with
  | nil => exact .fail (.refl ⟨offset, []⟩) nofun
  | cons b bytes ih =>
    refine .ite (.after (.of_append [b] rfl) (ih _ _)) (.ok (.refl _))

theorem readOperation_ends (c : Cursor) : c.Ends (readOperation c) := by
  refine .after c.before_skipSpaces ?_
  unfold readOperation
  dsimp only
  split
  · exact .ok (.refl _)
  · refine .ite (.ok (.refl _)) ?_
    refine .bind (readOperatorToken_ends _ _ _) fun r _ h => .after h ?_
    refine .ite (.ok (.refl _)) ?_
    split
    · exact .ite (.ok (.refl _)) (.fail (.refl _) nofun)
    · exact .fail (.refl _) nofun

theorem readOperation_length {c c' : Cursor} {op : Operator}
    (h : readOperation c = .ok (some op, c')) : c'.rest.length < c.rest.length := by
  obtain ⟨name, hname, -, hrest⟩ := readOperation_some h
  have hle : (trim c.rest).length ≤ c.rest.length := c.before_skipSpaces.length_le
  have hpos : 0 < name.toList.length := by
    refine List.length_pos_iff.mpr fun hnil => ?_
    have hnone : Operator.ofName? "" = none := by decide
    rw [String.toList_eq_nil_iff.mp hnil, hnone] at hname
    cases hname
  rw [hrest, List.length_append, List.length_map] at hle
  omega

/-- With so much fuel, readers end that have little enough to read: a reader of the same place
ranks below the one that calls it. -/
structure ReadersEnd [Libraries] (fuel : Nat) : Prop where
  fragments (first after : Bool) (c : Cursor) (enough : 4 * c.rest.length + 1 ≤ fuel) :
    c.Ends (readFragments fuel first after c)
  bracket (c : Cursor) (enough : 4 * c.rest.length + 1 ≤ fuel) : c.Ends (readBracket fuel c)
  filter (c : Cursor) (enough : 4 * c.rest.length + 4 ≤ fuel) : c.Ends (readFilter fuel c)
  equation (c : Cursor) (enough : 4 * c.rest.length + 3 ≤ fuel) : c.Ends (readEquation fuel c)
  run (c : Cursor) (enough : 4 * c.rest.length + 1 ≤ fuel) : c.Ends (readRun fuel c)
  value (c : Cursor) (enough : 4 * c.rest.length + 2 ≤ fuel) : c.Ends (readValue fuel c)
  list (c : Cursor) (enough : 4 * c.rest.length + 3 ≤ fuel) : c.Ends (readList fuel c)
  call (op : Operator) (c : Cursor) (enough : 4 * c.rest.length + 1 ≤ fuel) :
    c.Ends (readFunction fuel op c)

namespace ReadersEnd

variable {fuel : Nat} {c : Cursor}
variable [Libraries]

theorem fragments_step (ih : ReadersEnd fuel) (first after : Bool) (c : Cursor)
    (enough : 4 * c.rest.length + 1 ≤ fuel + 1) :
    c.Ends (readFragments (fuel + 1) first after c) := by
  have next : ∀ {f : Fragment} {descent : Bool} {c₁ : Cursor} {k},
      c₁.rest.length < c.rest.length → Prepends f k →
        c₁.Ends (readFragments fuel false descent c₁ >>= k) := by
    intro f descent c₁ k hless hk
    refine .bind (ih.fragments _ _ c₁ (by omega)) fun r _ hr => ?_
    rw [hk]
    exact .ok hr
  unfold readFragments
  split
  · exact .ok (.refl c)
  · rename_i b hpeek
    have hskip := c.before_skip 1
    have hless := length_skip_one hpeek
    refine .ite (.after hskip (next hless fun _ _ => rfl)) (.ite
      (.after hskip (next hless fun _ _ => rfl)) (.ite (.after hskip ?_) (.ite
        (.after hskip (next hless fun _ _ => rfl)) (.ite (.after hskip ?_) ?_))))
    · refine .bind (readAfterPoint_ends _) fun r _ hr => .after hr ?_
      exact next (hr.length_le.trans_lt hless) fun _ _ => rfl
    · refine .bind (ih.bracket _ (by omega)) fun r _ hr => .after hr ?_
      exact next (hr.length_le.trans_lt hless) fun _ _ => rfl
    · split
      · rename_i hname
        refine .bind (readName_ends c) fun r hr hbehind => .after hbehind ?_
        exact next (readName_length hpeek hname.1 hr) fun _ _ => rfl
      · exact .ok (.refl c)

theorem bracket_step (ih : ReadersEnd fuel) (c : Cursor)
    (enough : 4 * c.rest.length + 1 ≤ fuel + 1) : c.Ends (readBracket (fuel + 1) c) := by
  have hle := c.before_skipSpaces.length_le
  unfold readBracket
  refine .ite (.fail (.refl c) (by rintro ⟨⟩)) (.after c.before_skipSpaces ?_)
  dsimp only
  split
  · exact .fail (.refl _) (by rintro ⟨⟩)
  · rename_i b hpeek
    have hless := length_skip_one hpeek
    exact .ite (.after (before_skip _ 1) (ih.filter _ (by omega))) (readPlainBracket_ends _ _)

theorem filter_step (ih : ReadersEnd fuel) (c : Cursor)
    (enough : 4 * c.rest.length + 4 ≤ fuel + 1) : c.Ends (readFilter (fuel + 1) c) := by
  unfold readFilter
  split
  · exact .fail (.refl c) nofun
  · rename_i b hpeek
    have hopen : c.Before (if b = byteOf '(' then c.skip 1 else c) := by
      split
      · exact c.before_skip 1
      · exact .refl c
    have hle := hopen.length_le
    refine .after hopen (.bind (ih.equation _ (by omega)) fun r _ h => .after h ?_)
    exact .ite (.ok (before_skip _ 1)) (.fail (.refl _) nofun)

/-- An operator has been read; its operand and the rest of the run follow. -/
theorem after_operator (ih : ReadersEnd fuel) {op : Operator} {c₁ : Cursor}
    (enough : 4 * c.rest.length ≤ fuel) (hop : readOperation c = .ok (some op, c₁))
    {α : Type} {k : Equation → List (Operator × Equation) → α} :
    c₁.Ends (readValue fuel c₁ >>= fun right => readRun fuel right.2 >>= fun run =>
      .ok (k right.1 run.1, run.2)) := by
  have hless := readOperation_length hop
  refine .bind (ih.value c₁ (by omega)) fun r _ hvalue => .after hvalue ?_
  have hle := hvalue.length_le
  exact .bind (ih.run r.2 (by omega)) fun _ _ hrun => .ok hrun

theorem equation_step (ih : ReadersEnd fuel) (c : Cursor)
    (enough : 4 * c.rest.length + 3 ≤ fuel + 1) : c.Ends (readEquation (fuel + 1) c) := by
  have hle := c.before_skipSpaces.length_le
  refine .after c.before_skipSpaces ?_
  unfold readEquation
  dsimp only
  split
  · exact .fail (.refl _) nofun
  · refine .bind (ih.value _ (by omega)) fun left _ hleft => .after hleft ?_
    replace hleft := hleft.length_le
    split
    · refine .bind (readOperation_ends _) fun op hop hafter => .after hafter ?_
      obtain ⟨op?, c₁⟩ := op
      replace hafter : c₁.rest.length ≤ left.2.rest.length := hafter.length_le
      cases op? with
      | some op =>
        exact ih.after_operator (k := fun e run => foldOperations left.1 ((op, e) :: run))
          (by omega) hop
      | none => exact .bind (ih.run c₁ (by omega)) fun _ _ hrun => .ok hrun
    · exact .bind (ih.run _ (by omega)) fun _ _ hrun => .ok hrun

theorem run_step (ih : ReadersEnd fuel) (c : Cursor)
    (enough : 4 * c.rest.length + 1 ≤ fuel + 1) : c.Ends (readRun (fuel + 1) c) := by
  have hle := c.before_skipSpaces.length_le
  refine .after c.before_skipSpaces ?_
  unfold readRun
  dsimp only
  split
  · exact .ok (.refl _)
  · refine .ite (.ok (before_skip _ 1)) (.ite (.ok (.refl _)) ?_)
    refine .bind (readOperation_ends _) fun op hop hafter => .after hafter ?_
    obtain ⟨op?, c₁⟩ := op
    cases op? with
    | none => exact .fail (.refl _) nofun
    | some op => exact ih.after_operator (k := fun e run => (op, e) :: run) (by omega) hop

theorem value_step (ih : ReadersEnd fuel) (c : Cursor)
    (enough : 4 * c.rest.length + 2 ≤ fuel + 1) : c.Ends (readValue (fuel + 1) c) := by
  have hle := c.before_skipSpaces.length_le
  refine .after c.before_skipSpaces ?_
  unfold readValue
  dsimp only
  split
  · exact .fail (.refl _) nofun
  · rename_i b hpeek
    have hless := length_skip_one hpeek
    have hskip := before_skip c.skipSpaces 1
    refine .ite (.bind (readNumber_ends _) fun _ _ h => .ok h) (.ite
      (.after hskip (.bind (readQuoted_ends _ _) fun _ _ h => .ok h)) ?_)
    split
    · exact readWord_ends _ _ _
    · exact readWord_ends _ _ _
    · exact readWord_ends _ _ _
    · exact readWord_ends _ _ _
    · exact .bind (ih.fragments _ _ _ (by omega)) fun _ _ h => .ok h
    · exact .bind (ih.fragments _ _ _ (by omega)) fun _ _ h => .ok h
    · exact .after hskip (ih.equation _ (by omega))
    · have hinner := hskip.trans (before_skipSpaces _)
      have hinside := (before_skipSpaces (c.skipSpaces.skip 1)).length_le
      refine .after hinner (.ite (.ok (before_skip _ 1)) ?_)
      exact .bind (ih.list _ (by omega)) fun _ _ h => .ok h
    · exact .after hskip (.bind (readPattern_ends _) fun _ _ h => .ok h)
    · exact .after hskip (.bind (ih.value _ (by omega)) fun _ _ h => .ok h)
    · exact ih.call _ _ (by omega)
    · exact ih.call _ _ (by omega)
    · exact ih.call _ _ (by omega)
    · exact ih.call _ _ (by omega)
    · exact .fail (.refl _) nofun

theorem list_step (ih : ReadersEnd fuel) (c : Cursor)
    (enough : 4 * c.rest.length + 3 ≤ fuel + 1) : c.Ends (readList (fuel + 1) c) := by
  rw [readList]
  refine .bind (ih.value c (by omega)) fun e _ hvalue => .after hvalue ?_
  have hle := hvalue.length_le
  dsimp only
  split
  · split
    · exact .fail (before_of_nextSolid ‹_›) nofun
    · rename_i hnext
      have hless := length_of_nextSolid hnext
      refine .after (before_of_nextSolid hnext) (.ite ?_ (.ite (.ok (.refl _)) ?_))
      · exact .bind (ih.list _ (by omega)) fun _ _ h => .ok h
      · exact .fail (.refl _) nofun
  · exact .fail (.refl _) nofun

theorem call_step (ih : ReadersEnd fuel) (op : Operator) (c : Cursor)
    (enough : 4 * c.rest.length + 1 ≤ fuel + 1) : c.Ends (readFunction (fuel + 1) op c) := by
  rw [readFunction, ← callOpening]
  dsimp only
  split
  · rename_i hopening
    have hless : (c.skip (callOpening op).length).rest.length < c.rest.length := by
      rw [rest_of_callOpening hopening, List.length_append]
      simp [callOpening]
    refine .after (before_skip _ _) (.bind (ih.value _ (by omega)) fun left _ hleft => ?_)
    have hle := (hleft.trans (before_skipSpaces _)).length_le
    refine .after (hleft.trans (before_skipSpaces _)) ?_
    have closed : ∀ {e : Equation} {c : Cursor}, c.Ends
        (if c.peek? = some (byteOf ')') then .ok (e, c.skip 1) else c.fail .notTerminated) :=
      .ite (.ok (before_skip _ 1)) (.fail (.refl _) nofun)
    split
    · rename_i hcomma
      have hmore := length_skip_one hcomma
      refine .after (before_skip _ 1) (.bind (ih.value _ (by omega)) fun right _ hright => ?_)
      exact .after (hright.trans (before_skipSpaces _)) closed
    · exact closed
  · exact .fail (.refl c) nofun

end ReadersEnd

theorem readersEnd [Libraries] (fuel : Nat) : ReadersEnd fuel := by
  induction fuel with
  | zero =>
    refine ⟨?_, ?_, ?_, ?_, ?_, ?_, ?_, ?_⟩
    all_goals
      intros
      omega
  | succ fuel ih =>
    exact {
      fragments := ih.fragments_step
      bracket := ih.bracket_step
      filter := ih.filter_step
      equation := ih.equation_step
      run := ih.run_step
      value := ih.value_step
      list := ih.list_step
      call := ih.call_step }

/-- Errors at a byte of the input or right behind the last, that do not come from the bound on
calls. -/
def ParseError.Within (e : ParseError) (bytes : List UInt8) : Prop :=
  e.fault ≠ .exhausted ∧ 1 ≤ e.offset ∧ e.offset ≤ bytes.length + 1

theorem Cursor.offset_le_of_before {bytes : List UInt8} {c : Cursor}
    (h : (Cursor.start bytes).Before c) : c.offset ≤ bytes.length := by
  have hoffset : c.offset + c.rest.length = 0 + bytes.length := h.offset
  omega

theorem readAll_error {α : Type} {bytes : List UInt8} {e : ParseError}
    {read : Nat → Cursor → Except Failure (α × Cursor)}
    (hends : (Cursor.start bytes).Ends (read (readingDepth bytes.length) (.start bytes)))
    (h : readAll bytes read = .error e) : e.Within bytes := by
  have outcome : (Cursor.start bytes).EndsAt (fun _ => .start bytes)
      (read (readingDepth bytes.length) (.start bytes) >>= fun r =>
        if r.2.rest.isEmpty then .ok r.1 else r.2.fail .unexpected) :=
    .bind hends fun _ _ hr => .ite (.ok (.refl _)) (.fail hr nofun)
  unfold readAll at h
  cases hread : (read (readingDepth bytes.length) (.start bytes) >>= fun r =>
      if r.2.rest.isEmpty then Except.ok r.1 else r.2.fail .unexpected) with
  | ok a =>
    rw [hread] at h
    cases h
  | error f =>
    rw [hread] at h outcome
    obtain ⟨hfault, c, hc, hoffset⟩ := outcome
    cases h
    have hle := Cursor.offset_le_of_before hc
    exact ⟨hfault, Nat.le_add_left 1 _, Nat.succ_le_succ (hoffset ▸ hle)⟩

theorem readFragments_start [Libraries] (bytes : List UInt8) :
    (Cursor.start bytes).Ends
      (readFragments (readingDepth bytes.length) true false (.start bytes)) :=
  (readersEnd _).fragments _ _ _ (Nat.add_le_add_left (by decide) (4 * bytes.length))

theorem readEquation_start [Libraries] (bytes : List UInt8) :
    (Cursor.start bytes).Ends (readEquation (readingDepth bytes.length) (.start bytes)) :=
  (readersEnd _).equation _ (Nat.add_le_add_left (by decide) (4 * bytes.length))

theorem Path.parseBytes_consumes [Libraries] {bytes : List UInt8} {p : Path}
    (h : Path.parseBytes bytes = .ok p) :
    readFragments (readingDepth bytes.length) true false (.start bytes) =
      .ok (p, ⟨bytes.length, []⟩) := by
  obtain ⟨⟨offset, rest⟩, hread, rfl : rest = []⟩ := exists_of_parseBytes h
  have hoffset : offset + 0 = 0 + bytes.length := ((readFragments_start bytes).before hread).offset
  obtain rfl : offset = bytes.length := by omega
  exact hread

/-- Reading a path or a script ends at a place of the input, within its bound on calls. A path that
is read has been read to the last byte, and every error names a byte of the input or the place
behind the last. -/
theorem parsing_ends [Libraries] (bytes : List UInt8) (text : String) :
    (∀ fuel, ReadersEnd fuel) ∧
      (∀ p, Path.parseBytes bytes = .ok p →
        readFragments (readingDepth bytes.length) true false (.start bytes) =
          .ok (p, ⟨bytes.length, []⟩)) ∧
      (∀ e, Path.parseBytes bytes = .error e → e.Within bytes) ∧
      ∀ e, Script.parse text = .error e → e.Within (Text.Utf8.encode text.toList) := by
  refine ⟨readersEnd, fun _ h => Path.parseBytes_consumes h, fun e h => ?_, fun e h => ?_⟩
  · exact readAll_error (readFragments_start bytes) h
  · refine readAll_error (.bind (readEquation_start _) fun _ _ hscript => ?_) h
    exact .ok (hscript.trans (before_skipSpaces _))

end DocPath
