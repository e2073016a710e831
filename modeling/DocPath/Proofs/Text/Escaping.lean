import DocPath.Proofs.Text.Lossy
import DocPath.Text.Quoted

/-!
# Escapes character by character

The escaper goes through the bytes of a text with two positions, one up to which it has written
and one up to which it has looked, and copies the stretch between them when it comes to an escape.
Both positions are between characters after every round. So each character has a written form of
its own, and a text is written as the forms of its characters. The chunks of bytes that are no text
are cut where the decoder gives a U+FFFD.
-/

namespace DocPath.Text.Quoted

open Utf8

variable {quote c : Char} {cs done copied todo : List Char} {bs : List UInt8} {b : UInt8}
  {e : Escaper}

/-- The written form of one character between two `quote` characters. -/
def escape (quote c : Char) : List Char :=
  if c = '\x08' then ['\\', 'b']
  else if c = '\t' then ['\\', 't']
  else if c = '\n' then ['\\', 'n']
  else if c = '\x0c' then ['\\', 'f']
  else if c = '\r' then ['\\', 'r']
  else if c = '\\' then ['\\', '\\']
  else if c = '"' ∨ c = '\'' ∨ c = '/' then if c = quote then ['\\', c] else [c]
  else if c.toNat < 32 ∨ c = '\u2028' ∨ c = '\u2029' then codeEscape c.toNat
  else [c]

/-- A byte of ASCII is treated as its character is. -/
theorem byteClass_ascii (hc : c.toNat ≤ 127) :
    byteClass (UInt8.ofNat c.toNat) =
      if c = '\x08' then .letter 'b'
      else if c = '\t' then .letter 't'
      else if c = '\n' then .letter 'n'
      else if c = '\x0c' then .letter 'f'
      else if c = '\r' then .letter 'r'
      else if c = '"' ∨ c = '\'' ∨ c = '/' ∨ c = '\\' then .letter c
      else if c.toNat < 32 then .code
      else .plain := by
  have hnat : (UInt8.ofNat c.toNat).toNat = c.toNat :=
    UInt8.toNat_ofNat_of_lt' (show c.toNat < 256 by omega)
  have low : UInt8.ofNat c.toNat < 0x20 ↔ c.toNat < 32 := by
    rw [UInt8.lt_iff_toNat_lt, hnat]
    rfl
  have ascii : UInt8.ofNat c.toNat < 0x80 := by
    rw [UInt8.lt_iff_toNat_lt, hnat]
    exact Nat.lt_succ_of_le hc
  have same (x : UInt8) (d : Char) (h : x.toNat = d.toNat) :
      UInt8.ofNat c.toNat = x ↔ c = d := by
    rw [← UInt8.toNat_inj, hnat, h, Char.toNat_inj]
  simp only [byteClass, same 8 '\x08' rfl, same 9 '\t' rfl, same 10 '\n' rfl,
    same 12 '\x0c' rfl, same 13 '\r' rfl, same 34 '"' rfl, same 39 '\'' rfl, same 47 '/' rfl,
    same 92 '\\' rfl, low, if_pos ascii, hnat, Char.ofNat_toNat]

theorem byteClass_wide (hb : 128 ≤ b.toNat) : byteClass b = .wide := by
  have ne (x : UInt8) (hx : x.toNat < 128) : b ≠ x := by
    rintro rfl
    omega
  have low : ¬b < 0x20 := by
    simp only [UInt8.lt_iff_toNat_lt, UInt8.reduceToNat]
    omega
  have ascii : ¬b < 0x80 := by
    simp only [UInt8.lt_iff_toNat_lt, UInt8.reduceToNat]
    omega
  simp [byteClass, ne, low, ascii]

/-- Between two positions is the text whose bytes they enclose. -/
theorem slice_encode (done copied todo : List Char) :
    slice (encode (done ++ (copied ++ todo))) (encode done).length
      (encode (done ++ copied)).length = copied := by
  rw [slice, ← List.append_assoc, encode_append (done ++ copied), List.take_left,
    encode_append done, List.drop_left, decode_encode]

namespace Escaper

/-- The escaper between the characters of a text: the written form of the first ones has been
written, the next ones are to be copied and have no other form, and the last ones are ahead. -/
structure Between (quote : Char) (done copied todo : List Char) (e : Escaper) : Prop where
  start : e.start = (encode done).length
  i : e.i = (encode (done ++ copied)).length
  written : e.written = done.flatMap (escape quote)
  same : copied.flatMap (escape quote) = copied

theorem Between.pass (h : Between quote done copied (c :: todo) e) (hc : escape quote c = [c]) :
    Between quote done (copied ++ [c]) todo (e.pass (encodeChar c).length) where
  start := h.start
  i := by
    rw [Escaper.pass, h.i, ← List.append_assoc, encode_append _ [c], List.length_append]
    simp [encode]
  written := h.written
  same := by rw [List.flatMap_append, h.same, List.flatMap_singleton, hc]

theorem Between.emit (h : Between quote done copied (c :: todo) e)
    (hbs : bs = encode (done ++ (copied ++ c :: todo))) :
    Between quote (done ++ copied ++ [c]) [] todo
      (e.emit bs (escape quote c) (encodeChar c).length) := by
  have hi : e.i + (encodeChar c).length = (encode (done ++ copied ++ [c])).length := by
    rw [h.i, encode_append _ [c], List.length_append]
    simp [encode]
  refine ⟨hi, by rw [List.append_nil]; exact hi, ?_, rfl⟩
  have hslice : slice bs e.start e.i = copied := by
    rw [hbs, h.start, h.i, slice_encode]
  simp [Escaper.emit, hslice, h.written, h.same]

/-- What a round does with a character: it passes one that is written as it is and writes the
form of any other. -/
def past (e : Escaper) (quote : Char) (bs : List UInt8) (c : Char) : Escaper :=
  if escape quote c = [c] then e.pass (encodeChar c).length
  else e.emit bs (escape quote c) (encodeChar c).length

theorem step_ascii (hc : c.toNat ≤ 127) (e : Escaper) (quote : Char) (bs : List UInt8) :
    e.step quote bs (UInt8.ofNat c.toNat) = e.past quote bs c := by
  have hnat : (UInt8.ofNat c.toNat).toNat = c.toNat :=
    UInt8.toNat_ofNat_of_lt' (show c.toNat < 256 by omega)
  have quotes : UInt8.ofNat c.toNat = 0x22 ∨ UInt8.ofNat c.toNat = 0x27 ∨
      UInt8.ofNat c.toNat = 0x2F ↔ c = '"' ∨ c = '\'' ∨ c = '/' := by
    simp only [← UInt8.toNat_inj, hnat, ← Char.toNat_inj]
    rfl
  have width : (encodeChar c).length = 1 := by rw [encodeChar_of_one hc, List.length_singleton]
  have separators : c ≠ '\u2028' ∧ c ≠ '\u2029' := by
    constructor <;> rintro rfl <;> exact absurd hc (by decide)
  simp only [step, byteClass_ascii hc, quotes, hnat, Char.ofNat_toNat, past, width]
  by_cases hletter : c = '\x08' ∨ c = '\t' ∨ c = '\n' ∨ c = '\x0c' ∨ c = '\r' ∨ c = '\\'
  · rcases hletter with rfl | rfl | rfl | rfl | rfl | rfl <;> rfl
  · simp only [not_or] at hletter
    obtain ⟨hb, ht, hn, hf, hr, hbackslash⟩ := hletter
    simp only [escape, hb, ht, hn, hf, hr, hbackslash, separators, or_false, if_false]
    by_cases hmark : c = '"' ∨ c = '\'' ∨ c = '/'
    · by_cases hquote : c = quote
      · have hescaped : ¬((c = '"' ∨ c = '\'' ∨ c = '/') ∧ c ≠ quote) := fun h => h.2 hquote
        simp only [if_pos hmark, if_pos hquote, if_neg hescaped]
        simp
      · simp [hmark, hquote]
    · by_cases hcode : c.toNat < 32 <;> simp [hmark, hcode, codeEscape]

theorem step_wide (hc : 127 < c.toNat) (hb : 128 ≤ b.toNat)
    (hdecode : decode (bs.drop e.i) = c :: todo) : e.step quote bs b = e.past quote bs c := by
  have ne (d : Char) (hd : d.toNat ≤ 127) : c ≠ d := by
    rintro rfl
    omega
  have escaped : escape quote c =
      if c = '\u2028' ∨ c = '\u2029' then codeEscape c.toNat else [c] := by
    have low : ¬c.toNat < 32 := by omega
    simp [escape, ne, low]
  simp only [step, byteClass_wide hb, hdecode, List.head?_cons, past, escaped]
  by_cases hseparator : c = '\u2028' ∨ c = '\u2029' <;> simp [hseparator, codeEscape]

/-- One round takes the escaper over one character. -/
theorem Between.step (h : Between quote done copied (c :: todo) e)
    (hbs : bs = encode (done ++ (copied ++ c :: todo))) :
    ∃ b done' copied', bs[e.i]? = some b ∧ done' ++ copied' = done ++ copied ++ [c] ∧
      Between quote done' copied' todo (e.step quote bs b) := by
  have hpast : ∃ done' copied', done' ++ copied' = done ++ copied ++ [c] ∧
      Between quote done' copied' todo (e.past quote bs c) := by
    unfold past
    split
    · exact ⟨done, copied ++ [c], (List.append_assoc _ _ _).symm, h.pass ‹_›⟩
    · exact ⟨done ++ copied ++ [c], [], List.append_nil _, h.emit hbs⟩
  obtain ⟨done', copied', hjoin, hbetween⟩ := hpast
  have hsplit : bs = encode (done ++ copied) ++ (encodeChar c ++ encode todo) := by
    rw [hbs, ← List.append_assoc, encode_append (done ++ copied), encode_cons]
  by_cases hc : c.toNat ≤ 127
  · refine ⟨UInt8.ofNat c.toNat, done', copied', ?_, hjoin, step_ascii hc e quote bs ▸ hbetween⟩
    rw [hsplit, h.i, encodeChar_of_one hc]
    simp
  · obtain ⟨b, bytes, hbytes⟩ := List.exists_cons_of_ne_nil (encodeChar_ne_nil c)
    have hb : 128 ≤ b.toNat :=
      le_of_mem_encodeChar (Nat.not_le.mp hc) (hbytes ▸ List.mem_cons_self)
    have hdecode : decode (bs.drop e.i) = c :: todo := by
      rw [hsplit, h.i, List.drop_left, ← encode_cons, decode_encode]
    refine ⟨b, done', copied', ?_, hjoin, step_wide (Nat.not_le.mp hc) hb hdecode ▸ hbetween⟩
    rw [hsplit, h.i, hbytes]
    simp

theorem Between.run (h : Between quote done copied todo e)
    (hbs : bs = encode (done ++ (copied ++ todo))) {n : Nat} (enough : todo.length ≤ n) :
    ∃ done' copied', done' ++ copied' = done ++ copied ++ todo ∧
      Between quote done' copied' [] (Escaper.run quote bs n e) := by
  induction todo generalizing done copied e n with
  | nil =>
    have hend : bs[e.i]? = none := by
      rw [hbs, h.i, List.append_nil]
      exact List.getElem?_length _
    refine ⟨done, copied, (List.append_nil _).symm, ?_⟩
    cases n with
    | zero => exact h
    | succ n => simpa only [Escaper.run, hend] using h
  | cons c todo ih =>
    cases n with
    | zero => exact absurd enough (Nat.not_succ_le_zero _)
    | succ n =>
      obtain ⟨b, done', copied', hb, hjoin, hnext⟩ := h.step hbs
      have hbs' : bs = encode (done' ++ (copied' ++ todo)) := by
        rw [hbs, ← List.append_assoc, ← List.append_assoc, hjoin]
        simp
      obtain ⟨done'', copied'', hjoin', hrun⟩ := ih hnext hbs' (Nat.le_of_succ_le_succ enough)
      refine ⟨done'', copied'', by rw [hjoin', hjoin]; simp, ?_⟩
      simpa only [Escaper.run, hb] using hrun

end Escaper

theorem length_le_encode (cs : List Char) : cs.length ≤ (encode cs).length := by
  induction cs with
  | nil => exact Nat.le_refl _
  | cons c cs ih =>
    have hne := List.length_pos_iff.mpr (encodeChar_ne_nil c)
    rw [encode_cons, List.length_append, List.length_cons]
    omega

/-- A text is written as the forms of its characters. -/
theorem escapeBytes_encode (quote : Char) (cs : List Char) :
    escapeBytes quote (encode cs) = cs.flatMap (escape quote) := by
  have hstart : Escaper.Between quote [] [] cs ⟨0, 0, []⟩ := ⟨rfl, rfl, rfl, rfl⟩
  have henc : encode cs = encode ([] ++ cs) := rfl
  obtain ⟨done, copied, hjoin, hend⟩ := hstart.run henc (length_le_encode cs)
  obtain rfl : cs = done ++ copied := hjoin.symm
  have hslice := slice_encode done copied []
  rw [List.append_nil] at hslice
  simp only [escapeBytes, hend.written, hend.start, hslice, List.flatMap_append, hend.same]

theorem write_eq (quote : Char) (cs : List Char) :
    write quote cs = quote :: (cs.flatMap (escape quote) ++ [quote]) := by
  rw [write, escapeBytes_encode]

end DocPath.Text.Quoted

namespace DocPath.Text.Utf8

variable {b : UInt8} {pre : List UInt8} {p : Partial}

/-- A byte that does not go on with a character ends its chunk. -/
theorem chunksFrom_anew (h : ¬(p.low ≤ b ∧ b ≤ p.high)) (valid pre bs : List UInt8) :
    chunksFrom valid (some (p, pre)) (b :: bs) = ⟨valid, pre⟩ :: chunksFrom [] none (b :: bs) := by
  conv_lhs => rw [chunksFrom, if_neg h]
  rfl

/-- What is written of the chunks of bytes after a text, if texts are written character by
character and each run that is no UTF-8 as one more character. -/
theorem flatMap_chunksFrom {α : Type} {form : List UInt8 → List α} {f : Char → List α}
    (hform : ∀ cs, form (encode cs) = cs.flatMap f) (bs : List UInt8) :
    let write (k : Chunk) := form k.valid ++ if k.invalid.isEmpty then [] else f replacement
    (∀ cs, (chunksFrom (encode cs) none bs).flatMap write =
        (cs ++ decodeFrom none bs).flatMap f) ∧
      ∀ cs pre p, Pending pre p → (chunksFrom (encode cs) (some (p, pre)) bs).flatMap write =
        (cs ++ decodeFrom (some p) bs).flatMap f := by
  intro write
  have broken (cs : List Char) {pre : List UInt8} (hpre : pre ≠ []) (ks : List Chunk) :
      (⟨encode cs, pre⟩ :: ks).flatMap write =
        cs.flatMap f ++ (f replacement ++ ks.flatMap write) := by
    simp [write, hform, hpre]
  induction bs with
  | nil =>
    constructor
    · intro cs
      cases cs with
      | nil => rfl
      | cons c cs =>
        have hne : (encode (c :: cs)).isEmpty = false := by
          simpa using encode_ne_nil (List.cons_ne_nil c cs)
        simp [chunksFrom, decodeFrom, hne, write, hform]
    · intro cs pre p hpre
      rw [chunksFrom, broken cs hpre.ne_nil, decodeFrom]
      simp
  | cons b bs ih =>
    have start : ∀ cs, (chunksFrom (encode cs) none (b :: bs)).flatMap write =
        (cs ++ decodeFrom none (b :: bs)).flatMap f := by
      intro cs
      rw [chunksFrom, decodeFrom]
      cases hlead : lead b with
      | char c =>
        have hcs := ih.1 (cs ++ [c])
        rw [encode_append, encode_singleton, encodeChar_of_lead hlead] at hcs
        simpa using hcs
      | more p => exact ih.2 cs [b] p (.first hlead)
      | invalid =>
        have hrest := ih.1 []
        rw [encode, List.flatMap_nil, List.nil_append] at hrest
        dsimp only
        rw [broken cs (List.cons_ne_nil b []), hrest]
        simp
    refine ⟨start, fun cs pre p h => ?_⟩
    by_cases hb : p.low ≤ b ∧ b ≤ p.high
    · obtain ⟨_ | _ | n, low, high, bits⟩ := p
      · exact absurd h.missing (Nat.lt_irrefl 0)
      · rw [chunksFrom, if_pos hb, decodeFrom, if_pos hb]
        have hcs := ih.1 (cs ++ [Char.ofNat (bits * 64 + b.toNat % 64)])
        rw [encode_append, encode_singleton, h.last hb] at hcs
        simpa using hcs
      · rw [chunksFrom, if_pos hb, decodeFrom, if_pos hb]
        exact ih.2 cs _ _ (h.further hb)
    · rw [chunksFrom_anew hb, decodeFrom_anew hb, broken cs h.ne_nil]
      have hrest := start []
      rw [encode, List.flatMap_nil, List.nil_append] at hrest
      rw [hrest]
      simp

/-- The chunks of bytes make up the bytes. -/
theorem append_chunksFrom (bs : List UInt8) :
    let bytes (k : Chunk) := k.valid ++ k.invalid
    (∀ valid, (chunksFrom valid none bs).flatMap bytes = valid ++ bs) ∧
      ∀ valid pre p, (chunksFrom valid (some (p, pre)) bs).flatMap bytes =
        valid ++ (pre ++ bs) := by
  intro bytes
  induction bs with
  | nil =>
    constructor
    · intro valid
      cases valid <;> simp [chunksFrom, bytes]
    · intro valid pre p
      simp [chunksFrom, bytes]
  | cons b bs ih =>
    have start : ∀ valid, (chunksFrom valid none (b :: bs)).flatMap bytes = valid ++ b :: bs := by
      intro valid
      rw [chunksFrom]
      cases lead b with
      | char c => simp [ih.1]
      | more p => simp [ih.2]
      | invalid => simp [bytes, ih.1]
    refine ⟨start, fun valid pre p => ?_⟩
    by_cases hb : p.low ≤ b ∧ b ≤ p.high
    · rw [chunksFrom, if_pos hb]
      split <;> simp [ih.1, ih.2]
    · rw [chunksFrom_anew hb, List.flatMap_cons, start]
      simp [bytes]

theorem append_chunks (bs : List UInt8) :
    (chunks bs).flatMap (fun k => k.valid ++ k.invalid) = bs := (append_chunksFrom bs).1 []

end DocPath.Text.Utf8

namespace DocPath.Text.Quoted

open Utf8

/-- Bytes are written as the text that they are read as. -/
theorem writeBytes_eq (quote : Char) (bs : List UInt8) :
    writeBytes quote bs = write quote (decode bs) := by
  have hreplacement : escape quote replacement = [replacement] := rfl
  have hchunks := (flatMap_chunksFrom (escapeBytes_encode quote) bs).1 []
  rw [hreplacement] at hchunks
  rw [write_eq, writeBytes]
  exact congrArg (fun body => quote :: (body ++ [quote])) hchunks

end DocPath.Text.Quoted
