import DocPath.Proofs.Text.Utf8
import Mathlib.Data.List.Basic
import Mathlib.Data.List.Induction

/-!
# Bytes that are not all text

What the decoder makes of any bytes is told without its states: it takes characters where they
stand, and elsewhere the longest chunk of bytes that begins a character, or one byte where none
begins. There is one way only to cut bytes up like this, for no character's bytes begin those of
another.
-/

namespace DocPath.Text.Utf8

def Begins (bs : List UInt8) : Prop := ∃ c, bs <+: encodeChar c

/-- A chunk that is no character, in front of other bytes: it begins one that does not go on with
the next byte, or it is one byte that begins none. -/
structure Broken (chunk rest : List UInt8) : Prop where
  ne_nil : chunk ≠ []
  begins : Begins chunk ∨ chunk.length = 1
  incomplete : ∀ c, encodeChar c ≠ chunk
  stops : ∀ b ∈ rest.head?, ¬Begins (chunk ++ [b])

/-- The lossy reading of bytes. Every broken chunk is read as one U+FFFD. -/
inductive Lossy : List UInt8 → List Char → Prop where
  | nil : Lossy [] []
  | char {bs : List UInt8} {cs : List Char} (c : Char) (more : Lossy bs cs) :
    Lossy (encodeChar c ++ bs) (c :: cs)
  | broken {chunk bs : List UInt8} {cs : List Char} (noChar : Broken chunk bs)
    (more : Lossy bs cs) : Lossy (chunk ++ bs) (replacement :: cs)

variable {b x y z w : UInt8} {bs chunk pre rest : List UInt8} {p : Partial} {cs : List Char}

theorem decodeFrom_some_ne_nil (p : Partial) (bs : List UInt8) : decodeFrom (some p) bs ≠ [] := by
  induction bs generalizing p with
  | nil => exact List.cons_ne_nil _ _
  | cons b bs ih =>
    rw [decodeFrom]
    split
    · split
      · exact List.cons_ne_nil _ _
      · exact List.cons_ne_nil _ _
      · exact ih _
    · exact List.cons_ne_nil _ _

theorem decodeFrom_none_ne_nil (b : UInt8) (bs : List UInt8) : decodeFrom none (b :: bs) ≠ [] := by
  rw [decodeFrom]
  split
  · exact List.cons_ne_nil _ _
  · exact decodeFrom_some_ne_nil _ _
  · exact List.cons_ne_nil _ _

/-- A byte that does not go on with a character is read anew. -/
theorem decodeFrom_anew (h : ¬(p.low ≤ b ∧ b ≤ p.high)) (bs : List UInt8) :
    decodeFrom (some p) (b :: bs) = replacement :: decodeFrom none (b :: bs) := by
  simp only [decodeFrom, if_neg h]

theorem decodeFrom_char (c : Char) : decodeFrom none (encodeChar c) = [c] := by
  have h := decodeFrom_encodeChar c []
  rwa [List.append_nil] at h

/-- The bytes of no character begin with those of another. -/
theorem eq_of_encodeChar_append {c d : Char} (h : encodeChar c ++ rest = encodeChar d) :
    c = d ∧ rest = [] := by
  have hdecode := decodeFrom_encodeChar c rest
  rw [h, decodeFrom_char] at hdecode
  obtain ⟨hc, hrest⟩ := List.cons.inj hdecode
  refine ⟨hc.symm, ?_⟩
  cases rest with
  | nil => rfl
  | cons b rest => exact absurd hrest.symm (decodeFrom_none_ne_nil b rest)

theorem toNat_ofNat_of_valid {n : Nat} (h : n.isValidChar) : (Char.ofNat n).toNat = n := by
  rw [Char.ofNat, dif_pos h]
  rfl

theorem ofNat_eq {n : Nat} (h : n = b.toNat) : UInt8.ofNat n = b := by
  rw [h, UInt8.ofNat_toNat]

def Tail (b : UInt8) : Prop := 0x80 ≤ b ∧ b ≤ 0xBF

theorem tail_iff : Tail b ↔ 128 ≤ b.toNat ∧ b.toNat ≤ 191 := by
  rw [Tail, UInt8.le_iff_toNat_le, UInt8.le_iff_toNat_le]
  rfl

theorem encodeChar_two (hx : 194 ≤ x.toNat) (hx' : x.toNat < 224) (hy : Tail y) :
    encodeChar (Char.ofNat (x.toNat % 32 * 64 + y.toNat % 64)) = [x, y] := by
  rw [tail_iff] at hy
  have hn := toNat_ofNat_of_valid (n := x.toNat % 32 * 64 + y.toNat % 64) (Or.inl (by omega))
  rw [encodeChar_of_two (by omega) (by omega), hn, ofNat_eq (b := x) (by omega),
    ofNat_eq (b := y) (by omega)]

theorem encodeChar_three (hx : 224 ≤ x.toNat) (hx' : x.toNat < 240) (hy : Tail y) (hz : Tail z)
    (hlow : 32 ≤ x.toNat % 16 * 64 + y.toNat % 64)
    (hvalid : x.toNat % 16 * 64 + y.toNat % 64 < 864 ∨ 896 ≤ x.toNat % 16 * 64 + y.toNat % 64) :
    encodeChar (Char.ofNat ((x.toNat % 16 * 64 + y.toNat % 64) * 64 + z.toNat % 64)) =
      [x, y, z] := by
  rw [tail_iff] at hy hz
  have hn := toNat_ofNat_of_valid
    (n := (x.toNat % 16 * 64 + y.toNat % 64) * 64 + z.toNat % 64) (by omega)
  rw [encodeChar_of_three (by omega) (by omega), hn, ofNat_eq (b := x) (by omega),
    ofNat_eq (b := y) (by omega), ofNat_eq (b := z) (by omega)]

theorem encodeChar_four (hx : 240 ≤ x.toNat) (hx' : x.toNat < 248) (hy : Tail y) (hz : Tail z)
    (hw : Tail w) (hlow : 16 ≤ x.toNat % 8 * 64 + y.toNat % 64)
    (hhigh : x.toNat % 8 * 64 + y.toNat % 64 < 272) :
    encodeChar (Char.ofNat
      (((x.toNat % 8 * 64 + y.toNat % 64) * 64 + z.toNat % 64) * 64 + w.toNat % 64)) =
      [x, y, z, w] := by
  rw [tail_iff] at hy hz hw
  have hn := toNat_ofNat_of_valid
    (n := ((x.toNat % 8 * 64 + y.toNat % 64) * 64 + z.toNat % 64) * 64 + w.toNat % 64)
    (Or.inr (by omega))
  rw [encodeChar_of_four (by omega), hn, ofNat_eq (b := x) (by omega),
    ofNat_eq (b := y) (by omega), ofNat_eq (b := z) (by omega), ofNat_eq (b := w) (by omega)]

/-- The value of a character of which bytes are still missing, once they have been read. -/
def Partial.value (p : Partial) (bs : List UInt8) : Nat :=
  bs.foldl (fun bits b => bits * 64 + b.toNat % 64) p.bits

/-- The bytes that are missing from a character: the next one in the range for it, and then any
that go on with a character. -/
structure Partial.Missing (p : Partial) (bs : List UInt8) : Prop where
  length : bs.length = p.missing
  next : ∀ b ∈ bs.head?, p.low ≤ b ∧ b ≤ p.high
  further : ∀ b ∈ bs.tail, Tail b

/-- Bytes that have left the decoder within a character. Whatever is missing completes one. -/
structure Pending (pre : List UInt8) (p : Partial) : Prop where
  ne_nil : pre ≠ []
  missing : 0 < p.missing
  room : p.low ≤ p.high
  reads : ∀ bs, decodeFrom none (pre ++ bs) = decodeFrom (some p) bs
  completes : ∀ bs, p.Missing bs → encodeChar (Char.ofNat (p.value bs)) = pre ++ bs

/-- What a first byte begins. The range of the second byte is narrower after four of them. -/
theorem lead_more (h : lead b = .more p) :
    (128 ≤ p.low.toNat ∧ p.low.toNat ≤ p.high.toNat ∧ p.high.toNat ≤ 191) ∧
      ((p.missing = 1 ∧ p.bits = b.toNat % 32 ∧ 194 ≤ b.toNat ∧ b.toNat < 224) ∨
        (p.missing = 2 ∧ p.bits = b.toNat % 16 ∧ 224 ≤ b.toNat ∧ b.toNat < 240 ∧
          (b.toNat = 224 → 160 ≤ p.low.toNat) ∧ (b.toNat = 237 → p.high.toNat ≤ 159)) ∨
        (p.missing = 3 ∧ p.bits = b.toNat % 8 ∧ 240 ≤ b.toNat ∧ b.toNat < 245 ∧
          (b.toNat = 240 → 144 ≤ p.low.toNat) ∧ (b.toNat = 244 → p.high.toNat ≤ 143))) := by
  simp only [lead, UInt8.lt_iff_toNat_lt, ← UInt8.toNat_inj, UInt8.reduceToNat] at h
  repeat' split at h
  all_goals cases h
  all_goals
    simp only [UInt8.reduceToNat]
    grind

/-- The bytes that a first byte leaves missing make a character with it. -/
theorem completes_of_lead (h : lead b = .more p) (hbs : p.Missing bs) :
    encodeChar (Char.ofNat (p.value bs)) = b :: bs := by
  obtain ⟨hlength, hnext, hfurther⟩ := hbs
  simp only [UInt8.le_iff_toNat_le] at hnext
  obtain ⟨⟨hlow, -, hhigh⟩, hone | htwo | hthree⟩ := lead_more h
  · obtain ⟨hmissing, hbits, hb, hb'⟩ := hone
    obtain ⟨x, rfl⟩ := List.length_eq_one_iff.mp (hlength.trans hmissing)
    have hx := hnext x rfl
    rw [Partial.value, hbits]
    exact encodeChar_two hb hb' (tail_iff.mpr (by omega))
  · obtain ⟨hmissing, hbits, hb, hb', hfirst, hlast⟩ := htwo
    obtain ⟨x, y, rfl⟩ := List.length_eq_two.mp (hlength.trans hmissing)
    have hx := hnext x rfl
    have hy := hfurther y (List.mem_singleton_self y)
    rw [Partial.value, hbits]
    exact encodeChar_three hb hb' (tail_iff.mpr (by omega)) hy (by omega) (by omega)
  · obtain ⟨hmissing, hbits, hb, hb', hfirst, hlast⟩ := hthree
    obtain ⟨x, y, z, rfl⟩ := List.length_eq_three.mp (hlength.trans hmissing)
    have hx := hnext x rfl
    have hy := hfurther y List.mem_cons_self
    have hz := hfurther z (List.mem_cons_of_mem y (List.mem_singleton_self z))
    rw [Partial.value, hbits]
    exact encodeChar_four hb (by omega) (tail_iff.mpr (by omega)) hy hz (by omega) (by omega)

namespace Pending

theorem first (h : lead b = .more p) : Pending [b] p where
  ne_nil := List.cons_ne_nil _ _
  missing := by have := (lead_more h).2; omega
  room := UInt8.le_iff_toNat_le.mpr (lead_more h).1.2.1
  reads := fun bs => by rw [List.singleton_append, decodeFrom, h]
  completes := fun bs hbs => completes_of_lead h hbs

/-- One byte of several that are missing. -/
theorem further {n bits : Nat} {low high : UInt8} (h : Pending pre ⟨n + 2, low, high, bits⟩)
    (hb : low ≤ b ∧ b ≤ high) :
    Pending (pre ++ [b]) ⟨n + 1, 0x80, 0xBF, bits * 64 + b.toNat % 64⟩ where
  ne_nil := List.append_ne_nil_of_left_ne_nil h.ne_nil [b]
  missing := Nat.succ_pos n
  room := show (0x80 : UInt8) ≤ 0xBF by decide
  reads := fun bs => by
    rw [List.append_assoc, List.singleton_append, h.reads, decodeFrom, if_pos hb]
  completes := fun bs hbs => by
    rw [List.append_assoc, List.singleton_append]
    refine h.completes (b :: bs) ⟨congrArg (· + 1) hbs.length, ?_, ?_⟩
    · rintro _ ⟨⟩
      exact hb
    · intro x hx
      cases bs with
      | nil => cases hx
      | cons y bs =>
        rcases List.mem_cons.mp hx with rfl | hx
        · exact hbs.next x rfl
        · exact hbs.further x hx

/-- The last byte that is missing. -/
theorem last {bits : Nat} {low high : UInt8} (h : Pending pre ⟨1, low, high, bits⟩)
    (hb : low ≤ b ∧ b ≤ high) :
    encodeChar (Char.ofNat (bits * 64 + b.toNat % 64)) = pre ++ [b] := by
  refine h.completes [b] ⟨rfl, ?_, nofun⟩
  rintro _ ⟨⟩
  exact hb

/-- Something is missing, and there are bytes that complete it. -/
theorem exists_char (h : Pending pre p) : ∃ c b bs, encodeChar c = pre ++ b :: bs := by
  refine ⟨_, p.low, List.replicate (p.missing - 1) 0x80, h.completes _ ⟨?_, ?_, ?_⟩⟩
  · have := h.missing
    rw [List.length_cons, List.length_replicate]
    omega
  · rintro _ ⟨⟩
    exact ⟨UInt8.le_refl _, h.room⟩
  · intro x hx
    rw [(List.mem_replicate.mp hx).2]
    exact ⟨by decide, by decide⟩

theorem broken (h : Pending pre p) (hrest : ∀ b ∈ rest.head?, ¬(p.low ≤ b ∧ b ≤ p.high)) :
    Broken pre rest where
  ne_nil := h.ne_nil
  begins := by
    obtain ⟨c, b, bs, hc⟩ := h.exists_char
    exact Or.inl ⟨c, hc ▸ List.prefix_append _ _⟩
  incomplete := by
    intro d hd
    obtain ⟨c, b, bs, hc⟩ := h.exists_char
    rw [← hd] at hc
    cases (eq_of_encodeChar_append hc.symm).2
  stops := by
    rintro b hb ⟨c, bs, hc⟩
    -- the decoder would give a character for the byte after what it could not complete
    have hreads := h.reads (b :: bs)
    rw [List.append_assoc, List.singleton_append] at hc
    rw [hc, decodeFrom_char, decodeFrom_anew (hrest b hb)] at hreads
    exact decodeFrom_none_ne_nil b bs (List.cons.inj hreads).2.symm

end Pending

theorem Begins.of_append {cs : List UInt8} (h : Begins (bs ++ cs)) : Begins bs :=
  h.imp fun _ hc => (List.prefix_append bs cs).trans hc

theorem not_begins_of_invalid (h : lead b = .invalid) : ¬Begins [b] := by
  rintro ⟨c, bs, hc⟩
  have hdecode := decodeFrom_char c
  rw [← hc, List.singleton_append, decodeFrom, h] at hdecode
  obtain ⟨hchar, hbs⟩ := List.cons.inj hdecode
  -- only U+FFFD itself could be decoded like this, but its first byte is valid
  cases bs with
  | nil =>
    rw [← hchar] at hc
    cases hc
  | cons b bs => exact decodeFrom_none_ne_nil b bs hbs

theorem broken_of_invalid (h : lead b = .invalid) (rest : List UInt8) : Broken [b] rest where
  ne_nil := List.cons_ne_nil b []
  begins := Or.inr rfl
  incomplete := fun c hc => not_begins_of_invalid h ⟨c, hc ▸ List.prefix_rfl⟩
  stops := fun _ _ hx => not_begins_of_invalid h hx.of_append

theorem encodeChar_of_lead {c : Char} (h : lead b = .char c) : encodeChar c = [b] := by
  have hlt : b.toNat < 128 := by
    by_contra hle
    simp only [lead, UInt8.lt_iff_toNat_lt, UInt8.reduceToNat, if_neg hle] at h
    repeat' split at h
    all_goals cases h
  have hchar : c = Char.ofNat b.toNat := by
    rw [← ofNat_eq (b := b) rfl, lead_of_one hlt] at h
    exact (Lead.char.inj h).symm
  have hn : c.toNat = b.toNat := by
    rw [hchar]
    exact toNat_ofNat_of_valid (Or.inl (by omega))
  rw [encodeChar_of_one (by omega), ofNat_eq hn]

/-- The decoder reads bytes lossily, at the start of a character and within one. -/
theorem lossy_decodeFrom (bs : List UInt8) :
    Lossy bs (decodeFrom none bs) ∧
      ∀ pre p, Pending pre p → Lossy (pre ++ bs) (decodeFrom (some p) bs) := by
  induction bs with
  | nil => exact ⟨.nil, fun pre p h => .broken (h.broken nofun) .nil⟩
  | cons b bs ih =>
    have start : Lossy (b :: bs) (decodeFrom none (b :: bs)) := by
      rw [decodeFrom]
      cases hlead : lead b with
      | char c =>
        have hchar := Lossy.char c ih.1
        rwa [encodeChar_of_lead hlead] at hchar
      | more p => exact ih.2 [b] p (.first hlead)
      | invalid => exact Lossy.broken (broken_of_invalid hlead bs) ih.1
    refine ⟨start, fun pre p h => ?_⟩
    by_cases hb : p.low ≤ b ∧ b ≤ p.high
    · have hcons : pre ++ b :: bs = pre ++ [b] ++ bs := by simp
      obtain ⟨_ | _ | n, low, high, bits⟩ := p
      · exact absurd h.missing (Nat.lt_irrefl 0)
      · rw [decodeFrom, if_pos hb, hcons]
        exact h.last hb ▸ Lossy.char _ ih.1
      · rw [decodeFrom, if_pos hb, hcons]
        exact ih.2 _ _ (h.further hb)
    · rw [decodeFrom_anew hb]
      refine .broken (h.broken ?_) start
      rintro _ ⟨⟩
      exact hb

/-- A byte in the range for it takes the decoder on, or to the end of a character. -/
theorem Pending.begins (h : Pending pre p) (hb : p.low ≤ b ∧ b ≤ p.high) :
    (∃ c, encodeChar c = pre ++ [b]) ∨ ∃ q, Pending (pre ++ [b]) q := by
  obtain ⟨_ | _ | n, low, high, bits⟩ := p
  · exact absurd h.missing (Nat.lt_irrefl 0)
  · exact Or.inl ⟨_, h.last hb⟩
  · exact Or.inr ⟨_, h.further hb⟩

/-- Where bytes begin a character and are none, the decoder is within one. -/
theorem exists_pending (hne : pre ≠ []) (hbegins : Begins pre)
    (hincomplete : ∀ c, encodeChar c ≠ pre) : ∃ p, Pending pre p := by
  induction pre using List.reverseRecOn with
  | nil => exact absurd rfl hne
  | append_singleton pre b ih =>
    cases pre with
    | nil =>
      cases hlead : lead b with
      | char c => exact absurd (encodeChar_of_lead hlead) (hincomplete c)
      | more p => exact ⟨p, .first hlead⟩
      | invalid => exact absurd hbegins (not_begins_of_invalid hlead)
    | cons x pre =>
      obtain ⟨c, bs, hc⟩ := hbegins
      have hincomplete' : ∀ d, encodeChar d ≠ x :: pre := by
        intro d hd
        rw [← hd, List.append_assoc] at hc
        exact List.cons_ne_nil _ _ (eq_of_encodeChar_append hc).2
      obtain ⟨p, hp⟩ := ih (List.cons_ne_nil x pre) (Begins.of_append ⟨c, bs, hc⟩) hincomplete'
      have hb : p.low ≤ b ∧ b ≤ p.high := by
        by_contra hb
        have hbroken : Broken (x :: pre) [b] := by
          refine hp.broken ?_
          rintro _ ⟨⟩
          exact hb
        exact hbroken.stops b rfl ⟨c, bs, hc⟩
      exact (hp.begins hb).resolve_left fun ⟨d, hd⟩ => hincomplete d hd

/-- A broken chunk is decoded as one U+FFFD. -/
theorem Broken.decoded (h : Broken chunk bs) :
    decodeFrom none (chunk ++ bs) = replacement :: decodeFrom none bs := by
  by_cases hbegins : Begins chunk
  · obtain ⟨p, hp⟩ := exists_pending h.ne_nil hbegins h.incomplete
    rw [hp.reads]
    cases bs with
    | nil => rfl
    | cons b bs =>
      have hb : ¬(p.low ≤ b ∧ b ≤ p.high) := by
        intro hb
        refine h.stops b rfl ?_
        rcases hp.begins hb with ⟨c, hc⟩ | ⟨q, hq⟩
        · exact ⟨c, hc ▸ List.prefix_rfl⟩
        · obtain ⟨c, x, rest, hc⟩ := hq.exists_char
          exact ⟨c, hc ▸ List.prefix_append _ _⟩
      exact decodeFrom_anew hb bs
  · obtain ⟨b, rfl⟩ := List.length_eq_one_iff.mp (h.begins.resolve_left hbegins)
    rw [List.singleton_append, decodeFrom]
    cases hlead : lead b with
    | char c => exact absurd (encodeChar_of_lead hlead) (h.incomplete c)
    | more p =>
      obtain ⟨c, x, rest, hc⟩ := (Pending.first hlead).exists_char
      exact absurd ⟨c, hc ▸ List.prefix_append _ _⟩ hbegins
    | invalid => rfl

/-- Bytes have one lossy reading, which is what the decoder gives. -/
theorem lossy_iff : Lossy bs cs ↔ cs = decode bs := by
  constructor
  · intro h
    induction h with
    | nil => rfl
    | char c _ ih => rw [ih, decode, decode, decodeFrom_encodeChar]
    | broken hchunk _ ih => rw [ih, decode, decode, hchunk.decoded]
  · rintro rfl
    exact (lossy_decodeFrom bs).1

end DocPath.Text.Utf8
