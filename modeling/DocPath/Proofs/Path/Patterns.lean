import DocPath.Proofs.Path.Lexemes
import DocPath.Proofs.Text.Lossy

/-!
# Patterns that are read as they were written

Between slashes a backslash keeps the character after it, and a slash is escaped. So a source is
read back from its written form unless a backslash stands in it before a slash or at the end. No
source that has been read is of that kind, not even one whose bytes are no text.
-/

namespace DocPath

open Text.Utf8

/-- Texts in which every mark comes with one more, which is not the excluded one. -/
inductive Escaped {α : Type} (mark excluded : α) : List α → Prop where
  | nil : Escaped mark excluded []
  | escape {a : α} {as : List α} (ha : a ≠ excluded) (more : Escaped mark excluded as) :
    Escaped mark excluded (mark :: a :: as)
  | plain {a : α} {as : List α} (ha : a ≠ mark) (more : Escaped mark excluded as) :
    Escaped mark excluded (a :: as)

namespace Escaped

variable {α : Type} {mark excluded a : α} {as : List α}

theorem of_cons (h : Escaped mark excluded (a :: as)) (ha : a ≠ mark) :
    Escaped mark excluded as := by
  cases h with
  | escape _ more => exact absurd rfl ha
  | plain _ more => exact more

theorem of_mark (h : Escaped mark excluded (mark :: a :: as)) :
    a ≠ excluded ∧ Escaped mark excluded as := by
  cases h with
  | escape ha more => exact ⟨ha, more⟩
  | plain hmark more => exact absurd rfl hmark

theorem not_mark : ¬Escaped mark excluded [mark] := by
  intro h
  cases h with
  | plain hmark more => exact hmark rfl

end Escaped

/-- Sources of patterns that can be written between slashes. -/
def IsPatternSource (cs : List Char) : Prop := Escaped '\\' '/' cs

abbrev EscapedBytes (bytes : List UInt8) : Prop := Escaped (byteOf '\\') (byteOf '/') bytes

theorem readPatternBytes_escaped {offset : Nat} {bytes source : List UInt8} {c : Cursor}
    (h : readPatternBytes offset bytes = .ok (source, c)) : EscapedBytes source := by
  induction bytes using List.twoStepInduction generalizing offset source with
  | nil => cases h
  | singleton b =>
    rw [readPatternBytes] at h
    split at h
    · cases h
      exact .nil
    · cases h
  | cons_cons b b' bytes ih ih' =>
    rw [readPatternBytes] at h
    split at h
    · cases h
      exact .nil
    · split at h
      · rename_i hb
        obtain ⟨⟨more, c₁⟩, hmore, h⟩ := exists_of_bind h
        cases h
        split
        · rename_i hb'
          exact .plain (hb' ▸ by decide) (ih hmore)
        · exact hb ▸ .escape ‹_› (ih hmore)
      · rename_i hb
        obtain ⟨⟨more, c₁⟩, hmore, h⟩ := exists_of_bind h
        cases h
        exact .plain hb (ih' b' hmore)

/-- Bytes beyond ASCII, which are neither marks nor excluded. -/
def Wide (chunk : List UInt8) : Prop := ∀ b ∈ chunk, 128 ≤ b.toNat

theorem ne_byteOf_of_wide {b : UInt8} (h : 128 ≤ b.toNat) {c : Char} (hc : c.toNat ≤ 127) :
    b ≠ byteOf c := by
  rintro rfl
  have hbyte : (byteOf c).toNat = c.toNat :=
    UInt8.toNat_ofNat_of_lt' (Nat.lt_of_le_of_lt hc (by decide))
  omega

/-- A chunk that is no character lies beyond ASCII. -/
theorem wide_of_broken {chunk rest : List UInt8} (h : Broken chunk rest) : Wide chunk := by
  have begun : ∀ c, chunk <+: encodeChar c → Wide chunk := by
    intro c hc b hb
    by_cases hascii : c.toNat ≤ 127
    · -- a character of one byte has no proper beginning
      rw [encodeChar_of_one hascii] at hc
      have heq := hc.eq_of_length_le (List.length_pos_iff.mpr h.ne_nil)
      exact absurd ((encodeChar_of_one hascii).trans heq.symm) (h.incomplete c)
    · exact le_of_mem_encodeChar (Nat.not_le.mp hascii) (hc.mem hb)
  rcases h.begins with ⟨c, hc⟩ | hone
  · exact begun c hc
  · obtain ⟨b, rfl⟩ := List.length_eq_one_iff.mp hone
    rintro _ (_ | ⟨_, ⟨⟩⟩)
    by_contra hb
    have hchar := toNat_ofNat_of_valid (n := b.toNat) (.inl (by omega))
    have hone := encodeChar_of_one (c := Char.ofNat b.toNat) (by omega)
    rw [hchar, UInt8.ofNat_toNat] at hone
    exact h.incomplete _ hone

namespace Escaped

variable {bytes chunk : List UInt8}

theorem of_wide (hchunk : Wide chunk) (h : EscapedBytes (chunk ++ bytes)) : EscapedBytes bytes := by
  induction chunk with
  | nil => exact h
  | cons b chunk ih =>
    obtain ⟨hb, hchunk⟩ := List.forall_mem_cons.mp hchunk
    exact ih hchunk (h.of_cons (ne_byteOf_of_wide hb (by decide)))

theorem of_mark_wide (hne : chunk ≠ []) (hchunk : Wide chunk)
    (h : EscapedBytes (byteOf '\\' :: (chunk ++ bytes))) : EscapedBytes bytes := by
  obtain ⟨b, chunk, rfl⟩ := List.exists_cons_of_ne_nil hne
  exact of_wide (List.forall_mem_cons.mp hchunk).2 h.of_mark.2

end Escaped

/-- What bytes are read as is a source if they are one, also right after a backslash. -/
structure KeepsMarks (bytes : List UInt8) (cs : List Char) : Prop where
  source : EscapedBytes bytes → IsPatternSource cs
  afterMark : EscapedBytes (byteOf '\\' :: bytes) → IsPatternSource ('\\' :: cs)

namespace KeepsMarks

variable {bytes chunk : List UInt8} {cs : List Char} {c : Char}

theorem nil : KeepsMarks [] [] := ⟨fun _ => .nil, fun h => absurd h Escaped.not_mark⟩

/-- A chunk beyond ASCII is read as a character that is neither a mark nor excluded. -/
theorem wide (hne : chunk ≠ []) (hchunk : Wide chunk) (hc : 127 < c.toNat)
    (h : KeepsMarks bytes cs) : KeepsMarks (chunk ++ bytes) (c :: cs) := by
  have marks : c ≠ '\\' ∧ c ≠ '/' := by
    constructor <;>
      · rintro rfl
        revert hc
        decide
  exact ⟨fun hbytes => .plain marks.1 (h.source (.of_wide hchunk hbytes)),
    fun hbytes => .escape marks.2 (h.source (.of_mark_wide hne hchunk hbytes))⟩

theorem ascii (hc : c.toNat ≤ 127) (h : KeepsMarks bytes cs) :
    KeepsMarks (byteOf c :: bytes) (c :: cs) := by
  have same : ∀ {d : Char}, d.toNat ≤ 127 → byteOf c = byteOf d → c = d := by
    intro d hd heq
    refine eq_of_byteOf_mem hd ?_
    rw [encodeChar_of_one hc, ← heq]
    exact List.mem_singleton_self _
  constructor
  · intro hbytes
    by_cases hmark : c = '\\'
    · subst hmark
      exact h.afterMark hbytes
    · exact .plain hmark (h.source (hbytes.of_cons fun heq => hmark (same (by decide) heq)))
  · intro hbytes
    refine .escape ?_ (h.source hbytes.of_mark.2)
    rintro rfl
    exact hbytes.of_mark.1 rfl

theorem of_lossy (h : Lossy bytes cs) : KeepsMarks bytes cs := by
  induction h with
  | nil => exact .nil
  | @char bytes cs c more ih =>
    by_cases hc : c.toNat ≤ 127
    · rw [encodeChar_of_one hc]
      exact .ascii hc ih
    · exact .wide (encodeChar_ne_nil c)
        (fun b hb => le_of_mem_encodeChar (Nat.not_le.mp hc) hb) (Nat.not_le.mp hc) ih
  | broken noChar more ih => exact .wide noChar.ne_nil (wide_of_broken noChar) (by decide) ih

end KeepsMarks

/-- Patterns that can be read from their text: it compiles and can stand between slashes. -/
def Regex.Readable [Libraries] (r : Regex) : Prop :=
  Libraries.patterns.compiles r.source ∧ IsPatternSource r.source.toList

theorem readPattern_readable [Libraries] {c c' : Cursor} {r : Regex}
    (h : readPattern c = .ok (r, c')) : r.Readable := by
  obtain ⟨⟨source, c₁⟩, hbytes, h⟩ := exists_of_bind h
  dsimp only at h
  split at h
  · rename_i hcompile
    cases h
    obtain ⟨hcompiles, hsource⟩ := Regex.compile?_eq_some_iff.mp hcompile
    refine ⟨hsource ▸ hcompiles, ?_⟩
    rw [hsource, decodeString, String.toList_ofList]
    exact (KeepsMarks.of_lossy (lossy_iff.mpr rfl)).source (readPatternBytes_escaped hbytes)
  · cases h

/-- Bytes between slashes that stand for a part of a source, whatever comes after them. -/
def UnquotesPattern (bytes source : List UInt8) : Prop :=
  ∀ offset rest more c, readPatternBytes (offset + bytes.length) rest = .ok (more, c) →
    readPatternBytes offset (bytes ++ rest) = .ok (source ++ more, c)

namespace UnquotesPattern

variable {bytes bytes' source source' : List UInt8}

theorem nil : UnquotesPattern [] [] := fun _ _ _ _ h => h

theorem append (h : UnquotesPattern bytes source) (h' : UnquotesPattern bytes' source') :
    UnquotesPattern (bytes ++ bytes') (source ++ source') := by
  intro offset rest more c hc
  rw [List.append_assoc, List.append_assoc]
  apply h
  apply h'
  rwa [Nat.add_assoc, ← List.length_append]

theorem byte {b : UInt8} (hslash : b ≠ byteOf '/') (hb : b ≠ byteOf '\\') :
    UnquotesPattern [b] [b] := by
  intro offset rest more c hc
  cases rest with
  | nil => cases hc
  | cons b' rest =>
    rw [List.singleton_append, readPatternBytes, if_neg hslash, if_neg hb]
    exact bind_of_ok hc

theorem unmarked (h : ∀ b ∈ bytes, b ≠ byteOf '/' ∧ b ≠ byteOf '\\') :
    UnquotesPattern bytes bytes := by
  induction bytes with
  | nil => exact nil
  | cons b bytes ih =>
    obtain ⟨hb, hbytes⟩ := List.forall_mem_cons.mp h
    exact append (byte hb.1 hb.2) (ih hbytes)

/-- A byte after a backslash is kept together with it. -/
theorem escape {b : UInt8} (hb : b ≠ byteOf '/') :
    UnquotesPattern [byteOf '\\', b] [byteOf '\\', b] := by
  intro offset rest more c hc
  rw [List.cons_append, List.singleton_append, readPatternBytes, if_neg (by decide), if_pos rfl]
  refine (bind_of_ok hc).trans ?_
  dsimp only
  rw [if_neg hb]
  rfl

/-- An escaped slash stands for a slash. -/
theorem slash : UnquotesPattern [byteOf '\\', byteOf '/'] [byteOf '/'] := by
  intro offset rest more c hc
  rw [List.cons_append, List.singleton_append, readPatternBytes, if_neg (by decide), if_pos rfl]
  exact bind_of_ok hc

theorem plain {c : Char} (hslash : c ≠ '/') (hc : c ≠ '\\') :
    UnquotesPattern (encodeChar c) (encodeChar c) := by
  refine .unmarked fun b hb => ⟨?_, ?_⟩
  · rintro rfl
    exact hslash (eq_of_byteOf_mem (by decide) hb)
  · rintro rfl
    exact hc (eq_of_byteOf_mem (by decide) hb)

/-- A character after a backslash is kept together with it. -/
theorem escapedChar {c : Char} (hc : c ≠ '/') :
    UnquotesPattern (byteOf '\\' :: encodeChar c) (byteOf '\\' :: encodeChar c) := by
  obtain ⟨b, bytes, hbytes⟩ := List.exists_cons_of_ne_nil (encodeChar_ne_nil c)
  have hb : b ≠ byteOf '/' := by
    rintro rfl
    exact hc (eq_of_byteOf_mem (by decide) (hbytes ▸ List.mem_cons_self))
  rw [hbytes]
  refine append (escape hb) (.unmarked fun b' hb' => ?_)
  -- only a character beyond ASCII has more bytes than one
  by_cases hascii : c.toNat ≤ 127
  · rw [encodeChar_of_one hascii] at hbytes
    cases hbytes
    cases hb'
  · have hwide := le_of_mem_encodeChar (Nat.not_le.mp hascii) (hbytes ▸ List.mem_cons_of_mem b hb')
    exact ⟨ne_byteOf_of_wide hwide (by decide), ne_byteOf_of_wide hwide (by decide)⟩

end UnquotesPattern

theorem unquotesPattern_write {cs : List Char} (h : IsPatternSource cs) :
    ∃ bytes, encode (writePattern cs) = bytes ++ [byteOf '/'] ∧
      UnquotesPattern bytes (encode cs) := by
  induction h with
  | nil => exact ⟨[], rfl, .nil⟩
  | @escape c cs hc more ih =>
    obtain ⟨bytes, htext, hread⟩ := ih
    refine ⟨byteOf '\\' :: (encodeChar c ++ bytes), ?_, ?_⟩
    · rw [writePattern, encode_cons_ascii (by decide), encode_cons, htext]
      simp
    · rw [encode_cons_ascii (by decide), encode_cons]
      exact (UnquotesPattern.escapedChar hc).append hread
  | @plain c cs hc more ih =>
    obtain ⟨bytes, htext, hread⟩ := ih
    by_cases hslash : c = '/'
    · subst hslash
      refine ⟨byteOf '\\' :: byteOf '/' :: bytes, ?_, ?_⟩
      · rw [writePattern, encode_cons_ascii (by decide), encode_cons_ascii (by decide), htext]
        rfl
      · rw [encode_cons_ascii (by decide)]
        exact UnquotesPattern.slash.append hread
    · refine ⟨encodeChar c ++ bytes, ?_, ?_⟩
      · rw [writePattern, encode_cons, htext, List.append_assoc]
        · exact fun heq _ => hc heq
        · exact fun _ _ heq _ => hc heq
        · exact hslash
      · rw [encode_cons]
        exact (UnquotesPattern.plain hslash hc).append hread

/-- A pattern is read back from its text, up to the slash that ends it. -/
theorem readPattern_write [Libraries] {r : Regex} (h : r.Readable) (offset : Nat)
    (rest : List UInt8) :
    ∃ offset', readPattern ⟨offset, encode (writePattern r.source.toList) ++ rest⟩ =
      .ok (r, ⟨offset', rest⟩) := by
  obtain ⟨bytes, htext, hread⟩ := unquotesPattern_write h.2
  have hend : readPatternBytes (offset + bytes.length) (byteOf '/' :: rest) =
      .ok ([], ⟨offset + bytes.length + 1, rest⟩) := by
    cases rest <;> rfl
  refine ⟨offset + bytes.length + 1, ?_⟩
  rw [htext, List.append_assoc, List.singleton_append, readPattern]
  refine (bind_of_ok (hread _ _ _ _ hend)).trans ?_
  dsimp only
  rw [List.append_nil, decodeString_encode, Regex.compile?_eq_some_iff.mpr ⟨h.1, rfl⟩]

end DocPath
