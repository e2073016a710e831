import DocPath.Proofs.Path.Grammar
import DocPath.Proofs.Path.RoundTrip
import Mathlib.Data.List.DropRight
import Mathlib.Data.List.Induction

/-!
# What the readers of literals pass over

Every reader that succeeds has passed over a text of the form that the grammar gives it. Plain
bytes need no more than that they are plain; of quoted names and patterns it counts where they end.
-/

namespace DocPath

/-- What a reader does after another one has succeeded. -/
theorem exists_of_bind {α β : Type} {x : Except Failure α} {k : α → Except Failure β} {r : β}
    (h : (x >>= k) = .ok r) : ∃ a, x = .ok a ∧ k a = .ok r := by
  cases x with
  | error e => cases h
  | ok a => exact ⟨a, rfl, h⟩

namespace Cursor

variable {c : Cursor}

theorem rest_of_peek? {b : UInt8} (h : c.peek? = some b) : c.rest = b :: (c.skip 1).rest := by
  obtain ⟨bytes, hrest⟩ := List.head?_eq_some_iff.mp h
  simp only [skip, hrest, List.drop_one, List.tail_cons]

theorem rest_of_next {b : Option UInt8} {c' : Cursor} (h : c.next = (b, c')) :
    c.rest = b.toList ++ c'.rest := by
  unfold next at h
  split at h
  · cases h
    rfl
  · rename_i hrest
    cases h
    exact hrest

theorem trim_rest_of_nextSolid {b : Option UInt8} {c' : Cursor} (h : c.nextSolid = (b, c')) :
    trim c.rest = b.toList ++ c'.rest :=
  rest_of_next h

end Cursor

theorem trim_trim (bytes : List UInt8) : trim (trim bytes) = trim bytes :=
  List.dropWhile_idempotent _ bytes

theorem trim_of_head? {bytes : List UInt8} (h : ∀ b ∈ bytes.head?, b ≠ 0x20) :
    trim bytes = bytes := by
  cases bytes with
  | nil => rfl
  | cons b bytes => exact List.dropWhile_cons_of_neg (by simpa using h b rfl)

/-- Bytes with a property that no mark has are plain. -/
theorem isPlain_of {p : UInt8 → Bool} {b : UInt8} (h : p b)
    (hmarks : groupMarks.all fun mark => !p mark) : isPlain b := by
  have hb : b ∉ groupMarks := fun hmem => by
    have hmark := List.all_eq_true.mp hmarks b hmem
    simp [h] at hmark
  simpa [isPlain] using hb

structure Takes (text bytes rest : List UInt8) : Prop where
  split : bytes = text ++ rest
  plain : ∀ b ∈ text, isPlain b

namespace Takes

variable {text text' bytes behind rest : List UInt8}

theorem nil (bytes : List UInt8) : Takes [] bytes bytes := ⟨rfl, nofun⟩

theorem cons {b : UInt8} (hb : isPlain b) (h : Takes text bytes rest) :
    Takes (b :: text) (b :: bytes) rest :=
  ⟨congrArg (b :: ·) h.split, List.forall_mem_cons.mpr ⟨hb, h.plain⟩⟩

theorem append (h : Takes text bytes behind) (h' : Takes text' behind rest) :
    Takes (text ++ text') bytes rest := by
  refine ⟨by rw [h.split, h'.split, List.append_assoc], fun b hb => ?_⟩
  exact (List.mem_append.mp hb).elim (h.plain b) (h'.plain b)

theorem takeWhile {p : UInt8 → Bool} (hp : groupMarks.all fun mark => !p mark)
    (bytes : List UInt8) : Takes (bytes.takeWhile p) bytes (bytes.dropWhile p) :=
  ⟨List.takeWhile_append_dropWhile.symm, fun _ hb => isPlain_of (List.mem_takeWhile_imp hb) hp⟩

end Takes

def Passes (bytes rest : List UInt8) : Prop := ∃ text, Takes text bytes rest

namespace Passes

variable {bytes behind rest : List UInt8}

theorem refl (bytes : List UInt8) : Passes bytes bytes := ⟨[], .nil bytes⟩

theorem trans (h : Passes bytes behind) (h' : Passes behind rest) : Passes bytes rest := by
  obtain ⟨text, htext⟩ := h
  obtain ⟨text', htext'⟩ := h'
  exact ⟨text ++ text', htext.append htext'⟩

theorem cons {b : UInt8} (hb : isPlain b) (h : Passes bytes rest) : Passes (b :: bytes) rest := by
  obtain ⟨text, htext⟩ := h
  exact ⟨b :: text, htext.cons hb⟩

theorem dropWhile {p : UInt8 → Bool} (hp : groupMarks.all fun mark => !p mark)
    (bytes : List UInt8) : Passes bytes (bytes.dropWhile p) :=
  ⟨bytes.takeWhile p, .takeWhile hp bytes⟩

theorem trim (bytes : List UInt8) : Passes bytes (trim bytes) := dropWhile (by decide) bytes

theorem selector (h : Passes bytes behind) (more : SelectorText behind rest) :
    SelectorText bytes rest := by
  obtain ⟨text, rfl, hplain⟩ := h
  induction text with
  | nil => exact more
  | cons b text ih =>
    obtain ⟨hb, hplain⟩ := List.forall_mem_cons.mp hplain
    exact .byte hb (ih hplain)

end Passes

section quoted

variable {quote : UInt8} {c c' : Cursor} {rest : List UInt8}

/-- A byte with a property that no quote and no backslash has is part of a quoted text. -/
theorem Delimited.of_byte {p : UInt8 → Bool} {b : UInt8} {bytes : List UInt8}
    (hquote : isQuote quote) (hb : p b)
    (hmarks : ['\'', '"', '\\'].all fun mark => !p (byteOf mark))
    (more : Delimited quote bytes rest) : Delimited quote (b :: bytes) rest := by
  simp only [List.all_cons, List.all_nil, Bool.and_true, Bool.and_eq_true,
    Bool.not_eq_true'] at hmarks
  refine .byte ?_ (ne_mark hb hmarks.2.2) more
  rcases (Bool.or_eq_true _ _).mp hquote with hquote | hquote
  · exact of_decide_eq_true hquote ▸ ne_mark hb hmarks.1
  · exact of_decide_eq_true hquote ▸ ne_mark hb hmarks.2.1

theorem readHex_delimited {n : Nat} (hquote : isQuote quote) (h : readHex c = .ok (n, c'))
    (more : Delimited quote c'.rest rest) : Delimited quote c.rest rest := by
  unfold readHex at h
  split at h
  · cases h
  · rename_i b after hnext
    rw [Cursor.rest_of_next hnext]
    split at h
    · rename_i hb
      cases h
      exact .of_byte hquote hb (by decide) more
    · split at h
      · rename_i hb
        cases h
        exact .of_byte (p := fun b => 0x61 ≤ b ∧ b ≤ 0x66) hquote (decide_eq_true hb) (by decide)
          more
      · split at h
        · rename_i hb
          cases h
          exact .of_byte (p := fun b => 0x41 ≤ b ∧ b ≤ 0x46) hquote (decide_eq_true hb) (by decide)
            more
        · cases h

theorem readHex4_delimited {n : Nat} (hquote : isQuote quote) (h : readHex4 c = .ok (n, c'))
    (more : Delimited quote c'.rest rest) : Delimited quote c.rest rest := by
  obtain ⟨⟨_, c₁⟩, h₃, h⟩ := exists_of_bind h
  obtain ⟨⟨_, c₂⟩, h₂, h⟩ := exists_of_bind h
  obtain ⟨⟨_, c₃⟩, h₁, h⟩ := exists_of_bind h
  obtain ⟨⟨_, c₄⟩, h₀, h⟩ := exists_of_bind h
  cases h
  exact readHex_delimited hquote h₃ (readHex_delimited hquote h₂
    (readHex_delimited hquote h₁ (readHex_delimited hquote h₀ more)))

theorem readCodeEscape_delimited {ch : Char} (hquote : isQuote quote)
    (h : readCodeEscape c = .ok (ch, c')) (more : Delimited quote c'.rest rest) :
    Delimited quote c.rest rest := by
  obtain ⟨⟨n, c₁⟩, hcode, h⟩ := exists_of_bind h
  refine readHex4_delimited hquote hcode ?_
  dsimp only at h
  split at h
  · rename_i hpair
    obtain ⟨⟨low, after⟩, hlow, h⟩ := exists_of_bind h
    dsimp only at h
    split at h
    · obtain rfl : after = c' := (Prod.mk.inj (Except.ok.inj h)).2
      have hrest : c₁.rest = byteOf '\\' :: byteOf 'u' :: (c₁.skip 2).rest := by
        rw [← List.take_append_drop 2 c₁.rest, hpair.2.2]
        rfl
      rw [hrest]
      exact .escape _ (readHex4_delimited hquote hlow more)
    · obtain rfl : c₁ = c' := (Prod.mk.inj (Except.ok.inj h)).2
      exact more
  · obtain rfl : c₁ = c' := (Prod.mk.inj (Except.ok.inj h)).2
    exact more

/-- Whatever an escape stands for, the quoted text goes on after it. -/
theorem readEscape_delimited {bytes : List UInt8} (hquote : isQuote quote)
    (h : readEscape c = .ok (bytes, c')) (more : Delimited quote c'.rest rest) :
    Delimited quote (byteOf '\\' :: c.rest) rest := by
  unfold readEscape at h
  split at h
  · cases h
  · rename_i b after hnext
    rw [Cursor.rest_of_next hnext]
    refine .escape b ?_
    split at h
    all_goals try (cases h; exact more)
    · obtain ⟨⟨_, c₁⟩, hhigh, h⟩ := exists_of_bind h
      obtain ⟨⟨_, c₂⟩, hlow, h⟩ := exists_of_bind h
      cases h
      exact readHex_delimited hquote hhigh (readHex_delimited hquote hlow more)
    · obtain ⟨⟨_, c₁⟩, hcode, h⟩ := exists_of_bind h
      cases h
      exact readCodeEscape_delimited hquote hcode more
    · obtain ⟨⟨_, c₁⟩, hcode, h⟩ := exists_of_bind h
      cases h
      exact readCodeEscape_delimited hquote hcode more
    · cases h

theorem readQuotedBytes_delimited {fuel : Nat} {bytes : List UInt8} (hquote : isQuote quote)
    (h : readQuotedBytes fuel quote c = .ok (bytes, c')) : Delimited quote c.rest c'.rest := by
  induction fuel generalizing c bytes with
  | zero => cases h
  | succ fuel ih =>
    rw [readQuotedBytes] at h
    split at h
    · cases h
    · rename_i b after hnext
      rw [Cursor.rest_of_next hnext]
      split at h
      · rename_i hb
        cases h
        exact hb ▸ .ends _
      · rename_i hending
        split at h
        · rename_i hb
          obtain ⟨⟨_, c₁⟩, hescape, h⟩ := exists_of_bind h
          obtain ⟨⟨_, c₂⟩, hmore, h⟩ := exists_of_bind h
          cases h
          exact hb ▸ readEscape_delimited hquote hescape (ih hmore)
        · rename_i hb
          obtain ⟨⟨_, c₁⟩, hmore, h⟩ := exists_of_bind h
          cases h
          exact .byte hending hb (ih hmore)

theorem readQuoted_delimited {s : String} (hquote : isQuote quote)
    (h : readQuoted quote c = .ok (s, c')) : Delimited quote c.rest c'.rest := by
  obtain ⟨⟨bytes, c₁⟩, hbytes, h⟩ := exists_of_bind h
  cases h
  exact readQuotedBytes_delimited hquote hbytes

end quoted

theorem readPatternBytes_delimited {offset : Nat} {bytes source : List UInt8} {c : Cursor}
    (h : readPatternBytes offset bytes = .ok (source, c)) :
    Delimited (byteOf '/') bytes c.rest := by
  induction bytes using List.twoStepInduction generalizing offset source with
  | nil => cases h
  | singleton b =>
    rw [readPatternBytes] at h
    split at h
    · rename_i hb
      cases h
      exact hb ▸ .ends []
    · cases h
  | cons_cons b b' bytes ih ih' =>
    rw [readPatternBytes] at h
    split at h
    · rename_i hb
      cases h
      exact hb ▸ .ends _
    · rename_i hending
      split at h
      · rename_i hb
        obtain ⟨⟨_, c₁⟩, hmore, h⟩ := exists_of_bind h
        cases h
        exact hb ▸ .escape b' (ih hmore)
      · rename_i hb
        obtain ⟨⟨_, c₁⟩, hmore, h⟩ := exists_of_bind h
        cases h
        exact .byte hending hb (ih' b' hmore)

theorem readPattern_delimited [Libraries] {c c' : Cursor} {r : Regex}
    (h : readPattern c = .ok (r, c')) :
    Delimited (byteOf '/') c.rest c'.rest := by
  obtain ⟨⟨source, c₁⟩, hbytes, h⟩ := exists_of_bind h
  dsimp only at h
  split at h
  · cases h
    exact readPatternBytes_delimited hbytes
  · cases h

section selectors

variable {c c' : Cursor} {ending : Option UInt8} {rest : List UInt8}

theorem SelectorText.of_ending {bytes : List UInt8} (hending : ending = some (byteOf ']'))
    (h : Passes bytes (ending.toList ++ rest)) : SelectorText bytes rest := by
  subst hending
  exact h.selector (.close rest)

theorem readInt_passes {i : Int64} (h : readInt c = .ok (i, ending, c')) :
    Passes c.rest (ending.toList ++ c'.rest) := by
  unfold readInt at h
  dsimp only at h
  have hsign : Passes c.rest (if c.peek? = some (byteOf '-') then c.skip 1 else c).rest := by
    split
    · rename_i hpeek
      rw [Cursor.rest_of_peek? hpeek]
      exact .cons (by decide) (.refl _)
    · exact .refl _
  generalize (if c.peek? = some (byteOf '-') then c.skip 1 else c) = start at h hsign
  split at h
  · cases h
  · split at h
    · have hnext := (Prod.mk.inj (Except.ok.inj h)).2
      rw [← Cursor.rest_of_next hnext]
      exact hsign.trans (.dropWhile (by decide) start.rest)
    · cases h

theorem pastSpaces_passes {b : Option UInt8} (h : pastSpaces ending c = (b, c')) :
    Passes (ending.toList ++ c.rest) (b.toList ++ c'.rest) := by
  unfold pastSpaces at h
  split at h
  · rename_i hending
    subst hending
    exact .cons (by decide) (Cursor.trim_rest_of_nextSolid h ▸ .trim c.rest)
  · cases h
    exact .refl _

theorem readSliceStep_selector {start stop : Int64} {f : Fragment}
    (h : readSliceStep start stop c = .ok (f, c')) : SelectorText c.rest c'.rest := by
  unfold readSliceStep at h
  split at h
  · cases h
  · rename_i b hpeek
    split at h
    · rename_i hb
      cases h
      rw [Cursor.rest_of_peek? hpeek, hb]
      exact .close _
    · obtain ⟨⟨step, ending, c₁⟩, hint, h⟩ := exists_of_bind h
      dsimp only at h
      split at h
      · rename_i hending
        cases h
        exact .of_ending hending (readInt_passes hint)
      · cases h

theorem readSlice_selector {start : Int64} {f : Fragment} (h : readSlice start c = .ok (f, c')) :
    SelectorText c.rest c'.rest := by
  unfold readSlice at h
  split at h
  · cases h
  · rename_i b hpeek
    split at h
    · rename_i hb
      cases h
      rw [Cursor.rest_of_peek? hpeek, hb]
      exact .close _
    · refine (Passes.trim c.rest).selector ?_
      dsimp only at h
      split at h
      · cases h
      · rename_i b' hpeek'
        change SelectorText c.skipSpaces.rest c'.rest
        split at h
        · rename_i hb'
          rw [Cursor.rest_of_peek? hpeek', hb']
          exact .byte (by decide) (readSliceStep_selector h)
        · obtain ⟨⟨stop, ending, c₁⟩, hint, h⟩ := exists_of_bind h
          refine (readInt_passes hint).selector ?_
          dsimp only at h
          split at h
          · rename_i hending
            exact hending ▸ .byte (by decide) (readSliceStep_selector h)
          · split at h
            · rename_i hending
              cases h
              exact hending ▸ .close _
            · cases h

theorem readUnionKey_selector {key : UnionKey} (h : readUnionKey c = .ok (key, ending, c'))
    (more : SelectorText (ending.toList ++ c'.rest) rest) : SelectorText c.rest rest := by
  unfold readUnionKey at h
  dsimp only at h
  refine (Passes.trim c.rest).selector ?_
  change SelectorText c.skipSpaces.rest rest
  split at h
  · cases h
  · rename_i b hpeek
    split at h
    · rename_i hquote
      obtain ⟨⟨name, c₁⟩, hname, h⟩ := exists_of_bind h
      have hnext := (Prod.mk.inj (Except.ok.inj h)).2
      rw [Cursor.rest_of_peek? hpeek]
      refine .quoted hquote (readQuoted_delimited hquote hname) ((Passes.trim _).selector ?_)
      rwa [Cursor.trim_rest_of_nextSolid hnext]
    · split at h
      · obtain ⟨⟨i, ending', c₁⟩, hint, h⟩ := exists_of_bind h
        have hnext := (Prod.mk.inj (Except.ok.inj h)).2
        exact (readInt_passes hint).selector ((pastSpaces_passes hnext).selector more)
      · cases h

theorem readUnionKeys_selector {fuel : Nat} {keys : List UnionKey}
    (h : readUnionKeys fuel c = .ok (keys, c')) : SelectorText c.rest c'.rest := by
  induction fuel generalizing c keys with
  | zero => cases h
  | succ fuel ih =>
    obtain ⟨⟨key, ending, c₁⟩, hkey, h⟩ := exists_of_bind h
    refine readUnionKey_selector hkey ?_
    dsimp only at h
    split at h
    · rename_i hending
      obtain ⟨⟨keys', c₂⟩, hkeys, h⟩ := exists_of_bind h
      cases h
      exact hending ▸ .byte (by decide) (ih hkeys)
    · split at h
      · rename_i hending
        cases h
        exact hending ▸ .close _
      · cases h

theorem readUnion_selector {first : UnionKey} {f : Fragment}
    (h : readUnion first c = .ok (f, c')) : SelectorText c.rest c'.rest := by
  unfold readUnion at h
  split at h
  · cases h
  · obtain ⟨⟨keys, c₁⟩, hkeys, h⟩ := exists_of_bind h
    cases h
    exact readUnionKeys_selector hkeys

/-- A bracket without a script is read up to its closing byte. -/
theorem readPlainBracket_selector {b : UInt8} {f : Fragment} (hpeek : c.peek? = some b)
    (h : readPlainBracket b c = .ok (f, c')) : SelectorText c.rest c'.rest := by
  have hrest := Cursor.rest_of_peek? hpeek
  unfold readPlainBracket at h
  split at h
  · rename_i hb
    dsimp only at h
    split at h
    · rename_i hending
      cases h
      rw [hrest, hb]
      refine .byte (by decide) (.of_ending hending ?_)
      have hnext : trim (c.skip 1).rest =
        (c.skip 1).nextSolid.1.toList ++ (c.skip 1).nextSolid.2.rest :=
          Cursor.trim_rest_of_nextSolid rfl
      exact hnext ▸ .trim _
    · cases h
  · split at h
    · rename_i hquote
      obtain ⟨⟨name, c₁⟩, hname, h⟩ := exists_of_bind h
      rw [hrest]
      refine .quoted hquote (readQuoted_delimited hquote hname) ((Passes.trim _).selector ?_)
      dsimp only at h
      rw [Cursor.trim_rest_of_nextSolid rfl]
      split at h
      · rename_i hending
        cases h
        exact hending ▸ .close _
      · split at h
        · rename_i hending
          exact hending ▸ .byte (by decide) (readUnion_selector h)
        · cases h
    · split at h
      · rename_i hb
        rw [hrest, hb]
        exact .byte (by decide) (readSlice_selector h)
      · split at h
        · cases h
        · split at h
          · obtain ⟨⟨i, ending, c₁⟩, hint, h⟩ := exists_of_bind h
            refine (readInt_passes hint).selector ((pastSpaces_passes rfl).selector ?_)
            dsimp only at h
            split at h
            · rename_i hending
              cases h
              exact hending ▸ .close _
            · split at h
              · rename_i hending
                exact hending ▸ .byte (by decide) (readUnion_selector h)
              · split at h
                · rename_i hending
                  exact hending ▸ .byte (by decide) (readSlice_selector h)
                · cases h
          · cases h

end selectors

section numbers

variable {c c' : Cursor}

theorem readFraction_takes (c : Cursor) :
    Takes (readFraction c).1 c.rest (readFraction c).2.rest := by
  unfold readFraction
  split
  · rename_i b hpeek
    split
    · rename_i hb
      rw [Cursor.rest_of_peek? hpeek, hb]
      exact .cons (by decide) (.takeWhile (by decide) _)
    · exact .nil _
  · exact .nil _

theorem readSign_takes (c : Cursor) : Takes (readSign c).1 c.rest (readSign c).2.rest := by
  unfold readSign
  split
  · rename_i s hpeek
    split
    · rename_i hs
      have plain : isPlain s := by rcases hs with rfl | rfl <;> decide
      rw [Cursor.rest_of_peek? hpeek]
      exact .cons plain (.nil _)
    · exact .nil _
  · exact .nil _

theorem readExponent_takes {text : List UInt8} (h : readExponent c = .ok (text, c')) :
    Takes text c.rest c'.rest := by
  unfold readExponent at h
  split at h
  · rename_i e hpeek
    split at h
    · rename_i he
      have plain : isPlain e := by rcases he with rfl | rfl <;> decide
      rw [Cursor.rest_of_peek? hpeek]
      dsimp only at h
      split at h
      · cases h
      · cases h
        exact .cons plain ((readSign_takes (c.skip 1)).append (.takeWhile (by decide) _))
    · cases h
      exact .nil _
  · cases h
    exact .nil _

/-- A number is read up to what ends it. -/
theorem readNumber_numeral {v : Operand} {b : UInt8} (hpeek : c.peek? = some b)
    (hb : beginsInt b) (h : readNumber c = .ok (v, c')) :
    ∃ text, c.rest = text ++ c'.rest ∧ IsNumeral text := by
  unfold readNumber at h
  dsimp only at h
  obtain ⟨⟨exponent, after⟩, hexponent, h⟩ := exists_of_bind h
  have plain : isPlain b := isPlain_of hb (by decide)
  have hsign : Takes (c.rest.take 1) c.rest (c.skip 1).rest := by
    rw [Cursor.rest_of_peek? hpeek]
    exact .cons plain (.nil _)
  have hwhole : Takes ((c.skip 1).takeWhile isDigitByte).1 (c.skip 1).rest
    ((c.skip 1).takeWhile isDigitByte).2.rest := .takeWhile (by decide) _
  have takes := ((hsign.append hwhole).append (readFraction_takes _)).append
    (readExponent_takes hexponent)
  dsimp only at h
  split at h
  · split at h
    · rename_i n hread
      cases h
      exact ⟨_, takes.split, takes.plain, Or.inl (hread ▸ rfl)⟩
    all_goals cases h
  · split at h
    · rename_i x hread
      cases h
      exact ⟨_, takes.split, takes.plain, Or.inr (hread ▸ rfl)⟩
    · cases h

end numbers

theorem byteOf_charOf (b : UInt8) : byteOf (charOf b) = b := by
  have hb : b.toNat.isValidChar := Or.inl (Nat.lt_trans b.toNat_lt (by decide))
  rw [byteOf, charOf, Char.ofNat, dif_pos hb]
  exact UInt8.ofNat_toNat

section words

variable {c c' : Cursor}

theorem eq_append_of_matched {word : List Char} {bytes : List UInt8}
    (h : ((word.zip bytes).takeWhile fun p => byteOf p.1 = p.2).length = word.length) :
    bytes = word.map byteOf ++ bytes.drop word.length := by
  induction word generalizing bytes with
  | nil => rfl
  | cons w word ih =>
    cases bytes with
    | nil => cases h
    | cons b bytes =>
      rw [List.zip_cons_cons, List.takeWhile_cons] at h
      split at h
      · rename_i hb
        have hmore := ih (Nat.succ.inj h)
        rw [List.map_cons, List.cons_append, List.length_cons, List.drop_succ_cons, ← hmore,
          of_decide_eq_true hb]
      · cases h

theorem readWord_eq {word : String} {v : Operand} {e : Equation}
    (h : readWord word v c = .ok (e, c')) :
    e = .value v ∧ c.rest = word.toList.map byteOf ++ c'.rest := by
  unfold readWord at h
  dsimp only at h
  split at h
  · rename_i hlength
    rw [← String.length_toList] at hlength
    cases h
    refine ⟨rfl, ?_⟩
    rw [Cursor.skip, hlength]
    exact eq_append_of_matched hlength
  · cases h

theorem readOperatorToken_split {token token' : List Char} {offset : Nat} {bytes : List UInt8}
    (h : readOperatorToken token offset bytes = .ok (token', c)) :
    ∃ text, token' = token ++ text.map charOf ∧ bytes = text ++ c.rest := by
  induction bytes generalizing token offset with
  | nil => cases h
  | cons b bytes ih =>
    rw [readOperatorToken] at h
    split at h
    · obtain ⟨text, htoken, hbytes⟩ := ih h
      exact ⟨b :: text, by simp [htoken], congrArg (b :: ·) hbytes⟩
    · cases h
      exact ⟨[], (List.append_nil _).symm, rfl⟩

/-- An operator that has been read stood there by one of its names. -/
theorem readOperation_some {op : Operator} (h : readOperation c = .ok (some op, c')) :
    ∃ name, Operator.ofName? name = some op ∧ (op.isBinary ∧ !op.isFunction) ∧
      trim c.rest = name.toList.map byteOf ++ c'.rest := by
  unfold readOperation at h
  dsimp only at h
  split at h
  · cases h
  · split at h
    · cases h
    · obtain ⟨⟨token, c₁⟩, htoken, h⟩ := exists_of_bind h
      obtain ⟨text, htext, hbytes⟩ := readOperatorToken_split htoken
      dsimp only at h
      split at h
      · cases h
      · split at h
        · rename_i op' hname
          split at h
          · rename_i hop
            cases h
            refine ⟨_, hname, hop, ?_⟩
            have hmap : token.map byteOf = text := by
              rw [htext, List.nil_append, List.map_map]
              exact (List.map_congr_left fun b _ => byteOf_charOf b).trans (List.map_id _)
            rw [String.toList_ofList, hmap]
            exact hbytes
          · cases h
        · cases h

/-- Where there is no operator, only blanks are passed over. -/
theorem readOperation_none (h : readOperation c = .ok (none, c')) : c'.rest = trim c.rest := by
  unfold readOperation at h
  dsimp only at h
  split at h
  · cases h
    rfl
  · split at h
    · cases h
      rfl
    · obtain ⟨⟨token, c₁⟩, htoken, h⟩ := exists_of_bind h
      obtain ⟨text, htext, hbytes⟩ := readOperatorToken_split htoken
      dsimp only at h
      split at h
      · rename_i hempty
        cases h
        rw [List.isEmpty_iff.mp hempty, List.nil_append] at htext
        rw [List.map_eq_nil_iff.mp htext.symm, List.nil_append] at hbytes
        exact hbytes.symm
      · split at h
        · split at h <;> cases h
        · cases h

theorem rest_of_callOpening {op : Operator} (h : (callOpening op).isPrefixOf c.rest) :
    c.rest = callOpening op ++ (c.skip (callOpening op).length).rest := by
  obtain ⟨more, hmore⟩ := List.isPrefixOf_iff_prefix.mp h
  rw [Cursor.skip, ← hmore, List.drop_left]

end words

end DocPath
