import DocPath.Builtin
import DocPath.Proofs.Json.Strings
import DocPath.Proofs.Path.RoundTrip
import DocPath.Proofs.Query.Results

/-!
# Strings of paths and of documents

The reader of quoted strings takes back what is written between quotes, be it bytes that are no
text. It also takes every string of a document, with the meaning that the string has there. Both
are told of the bytes between the quotes alone, by what they stand for (`Unquotes`), so that one
lemma for each kind of escape is enough.
-/

namespace DocPath

open Text.Utf8

variable {quote : Char}

/-- Bytes written between quotes are read back up to the closing quote as the text that they
are, with one replacement for each broken chunk. Bytes of a text are written as that text. -/
theorem Text.Quoted.readQuoted_writeBytes (hq : quote = '\'' ∨ quote = '"') (bs : List UInt8) :
    ∃ body, encode (writeBytes quote bs) = byteOf quote :: body ∧
      (∀ offset rest, readQuoted (byteOf quote) ⟨offset, body ++ rest⟩ =
        .ok (decodeString bs, ⟨offset + body.length, rest⟩)) ∧
      (∀ cs, Lossy bs cs ↔ cs = (decodeString bs).toList) ∧
      ∀ s : String, bs = encode s.toList →
        decodeString bs = s ∧ writeBytes quote bs = write quote s.toList := by
  refine ⟨encode ((decode bs).flatMap (escape quote)) ++ [byteOf quote], ?_, fun offset rest => ?_,
    fun cs => ?_, fun s hs => ?_⟩
  · have htext := encode_write hq (decode bs) []
    rwa [List.append_nil, ← writeBytes_eq] at htext
  · have hread := (unquotes_name hq (decode bs)).readQuoted offset rest
    rw [decodeString, decode_encode] at hread
    rw [List.append_assoc, List.length_append]
    exact hread
  · rw [lossy_iff, decodeString, String.toList_ofList]
  · rw [hs]
    exact ⟨decodeString_encode s, by rw [writeBytes_eq, decode_encode]⟩

theorem Text.Quoted.readQuoted_writeBytes_of_broken_chunks :
    let bytes : List UInt8 := [0xF0, 0x9F, 0x41, 0xE2, 0x80, 0xA8, 0x27, 0x22, 0xFF, 0x01]
    let read := "\uFFFDA\u2028'\"\uFFFD\x01"
    String.ofList (writeBytes '"' bytes) = "\"\uFFFDA\\u2028'\\\"\uFFFD\\u0001\"" ∧
      (∃ body, encode (writeBytes '"' bytes) = byteOf '"' :: body ∧ ∀ offset rest,
        readQuoted (byteOf '"') ⟨offset, body ++ rest⟩ =
          .ok (read, ⟨offset + body.length, rest⟩)) ∧
      Lossy bytes read.toList := by
  intro bytes read
  have hread : decodeString bytes = read := by decide +kernel
  obtain ⟨body, hbody, hreads, hlossy, -⟩ := readQuoted_writeBytes (Or.inr rfl) bytes
  rw [hread] at hreads hlossy
  exact ⟨by decide +kernel, ⟨body, hbody, hreads⟩, (hlossy _).mpr rfl⟩

/-- A hexadecimal digit of either case has the same value for both readers. -/
theorem readsHex_of_hexValue? {d : Char} {v : Nat} (h : Json.hexValue? d = some v) :
    ReadsHex d v := by
  have hcode : (48 ≤ d.toNat ∧ d.toNat ≤ 57) ∨ (97 ≤ d.toNat ∧ d.toNat ≤ 102) ∨
      (65 ≤ d.toNat ∧ d.toNat ≤ 70) := by
    unfold Json.hexValue? at h
    split_ifs at h with hdigit hlower hupper
    · exact Or.inl hdigit
    · exact Or.inr (Or.inl hlower)
    · exact Or.inr (Or.inr hupper)
  have hd := Char.ofNat_toNat d
  generalize d.toNat = n at hd hcode
  subst hd
  rcases hcode with ⟨hlow, hhigh⟩ | ⟨hlow, hhigh⟩ | ⟨hlow, hhigh⟩
  all_goals
    interval_cases n
    all_goals
      cases h
      exact ⟨by decide, rfl, fun _ _ => rfl⟩

theorem readsCode_of_hexValue4? {d₃ d₂ d₁ d₀ : Char} {n : Nat}
    (h : Json.hexValue4? d₃ d₂ d₁ d₀ = some n) :
    ReadsCode [d₃, d₂, d₁, d₀] n := by
  obtain ⟨v₃, h₃, h⟩ := Option.bind_eq_some_iff.mp h
  obtain ⟨v₂, h₂, h⟩ := Option.bind_eq_some_iff.mp h
  obtain ⟨v₁, h₁, h⟩ := Option.bind_eq_some_iff.mp h
  obtain ⟨v₀, h₀, h⟩ := Option.bind_eq_some_iff.mp h
  rw [← Option.some.inj h]
  exact (readsHex_of_hexValue? h₃).code (readsHex_of_hexValue? h₂) (readsHex_of_hexValue? h₁)
    (readsHex_of_hexValue? h₀)

/-- A high surrogate is joined with the low one that is escaped after it. -/
theorem ReadsCode.readCodeEscape_pair {ds es : List Char} {high low : Nat}
    (h : ReadsCode ds high) (h' : ReadsCode es low) (hhigh : 0xD800 ≤ high ∧ high < 0xDC00)
    (hlow : 0xDC00 ≤ low ∧ low < 0xE000) (offset : Nat) (rest : List UInt8) :
    DocPath.readCodeEscape ⟨offset,
        encode ds ++ byteOf '\\' :: byteOf 'u' :: (encode es ++ rest)⟩ =
      .ok (Char.ofNat (0x10000 + (high - 0xD800) * 0x400 + (low - 0xDC00)),
        ⟨offset + 10, rest⟩) := by
  rw [DocPath.readCodeEscape, bind_of_ok (h.reads offset _)]
  dsimp only
  rw [if_pos ⟨hhigh.1, hhigh.2, rfl⟩, Cursor.skip]
  refine (bind_of_ok (h'.reads (offset + 4 + 2) rest)).trans ?_
  dsimp only
  rw [if_pos hlow, charOrReplacement, if_pos (by omega)]

/-- A short escape stands for the same character in a path as in a document. -/
theorem unquotes_short {mark c : Char} (h : Json.shortEscape? mark = some c) :
    Unquotes (byteOf '"') (encode ['\\', mark]) (encodeChar c) := by
  unfold Json.shortEscape? at h
  split at h
  all_goals cases h
  all_goals exact .escape (by decide) fun _ _ => rfl

/-- What a character of a string is written in stands for that character in a path, too. -/
theorem Json.CharText.unquotes {text : List Char} {c : Char} (h : CharText text c) :
    Unquotes (byteOf '"') (encode text) (encodeChar c) := by
  have hquote : byteOf '\\' ≠ byteOf '"' := by decide
  cases h with
  | raw _ not_quote not_backslash => exact unquotes_plain (by decide) not_quote not_backslash
  | short means => exact unquotes_short means
  | code digits not_surrogate =>
    exact (readsCode_of_hexValue4? digits).unquotes hquote not_surrogate
  | @pair d₃ d₂ d₁ d₀ e₃ e₂ e₁ e₀ high low digits digits' is_high is_low =>
    have hcode := readsCode_of_hexValue4? digits
    have hcode' := readsCode_of_hexValue4? digits'
    have hbytes : encode ['\\', 'u', d₃, d₂, d₁, d₀, '\\', 'u', e₃, e₂, e₁, e₀] =
        byteOf '\\' :: byteOf 'u' :: (encode [d₃, d₂, d₁, d₀] ++
          byteOf '\\' :: byteOf 'u' :: encode [e₃, e₂, e₁, e₀]) :=
      encode_append ['\\', 'u', d₃, d₂, d₁, d₀] ['\\', 'u', e₃, e₂, e₁, e₀]
    rw [hbytes]
    refine .escape hquote fun offset rest => ?_
    simp only [List.length_cons, List.length_append, hcode.length, hcode'.length,
      List.cons_append, List.append_assoc]
    exact bind_of_ok (hcode.readCodeEscape_pair hcode' is_high is_low (offset + 1) rest)

/-- The bytes of a string stand for the characters that the string has in a document. -/
theorem Json.StringText.unquotes {text cs : List Char} (h : StringText text cs) :
    Unquotes (byteOf '"') (encode text) (encode cs) := by
  induction h with
  | nil => exact .nil
  | cons head _ ih =>
    rw [encode_append, encode_cons]
    exact head.unquotes.append ih

/-- A path of one name in quotes, whichever way it is spelled. -/
theorem Path.parseBytes_quoted [Libraries] {quote : UInt8} (hquote : isQuote quote)
    {bs : List UInt8} {name : String} (h : Unquotes quote bs (encode name.toList)) :
    Path.parseBytes (byteOf '$' :: byteOf '[' :: quote :: (bs ++ [quote, byteOf ']'])) =
      .ok [.root, .child name] := by
  obtain ⟨fuel, hfuel⟩ : ∃ n, readingDepth (byteOf '$' :: byteOf '[' :: quote ::
      (bs ++ [quote, byteOf ']'])).length = n + 1 + 1 + 1 := ⟨_, rfl⟩
  obtain ⟨offset, hname⟩ : ∃ offset, readBracket (fuel + 1)
      ⟨2, quote :: (bs ++ quote :: byteOf ']' :: [])⟩ = .ok (.child name, ⟨offset, []⟩) :=
    readBracket_quoted hquote h (byteOf ']') (by decide) 2 []
  have hend : readFragments (fuel + 1) false (Fragment.child name).isDescent ⟨offset, []⟩ =
      .ok ([], ⟨offset, []⟩) := rfl
  have hread : readFragments (fuel + 1 + 1 + 1) true false (.start (byteOf '$' :: byteOf '[' ::
      quote :: (bs ++ [quote, byteOf ']']))) = .ok ([.root, .child name], ⟨offset, []⟩) :=
    bind_of_ok (readFragments_bracket hname hend)
  rw [parseBytes, readAll, hfuel]
  dsimp only
  rw [bind_of_ok hread]
  rfl

/-- A string of a document, in brackets as it stands there, addresses the member that it names. -/
theorem Path.parse_key [Libraries] {text : List Char} {key : String}
    (h : Json.StringText text key.toList) :
    Path.parse (String.ofList ('$' :: '[' :: '"' :: (text ++ ['"', ']']))) =
        .ok [.root, .child key] ∧
      (∀ rest, Json.readString? (text ++ '"' :: rest) = some (key.toList, rest)) ∧
      ∀ doc : Value, Path.get [.root, .child key] doc = (doc.getKey? key).toList := by
  refine ⟨?_, h.readString?, fun doc => ?_⟩
  · have hbytes : encode ('$' :: '[' :: '"' :: (text ++ ['"', ']'])) =
        byteOf '$' :: byteOf '[' :: byteOf '"' :: (encode text ++ [byteOf '"', byteOf ']']) := by
      simp only [encode_cons, encode_append]
      rfl
    rw [parse, String.toList_ofList, hbytes]
    exact parseBytes_quoted rfl h.unquotes
  · rw [get, Search.get_eq_reached, reached_selectors, results_root, results, Fragment.found]

theorem Path.parse_key_of_escapes :
    let key := "é/\n😀é\""
    Json.StringText "é\\/\\n\\uD83d\\uDe00\\u00E9\\\"".toList key.toList ∧
      Path.parse "$[\"é\\/\\n\\uD83d\\uDe00\\u00E9\\\"\"]" = .ok [.root, .child key] ∧
      Path.get [.root, .child key] (.object [("é", .null), (key, .int 1)]) = [.int 1] := by
  intro key
  have accented : Json.CharText ['\\', 'u', '0', '0', 'E', '9'] 'é' :=
    @Json.CharText.code '0' '0' 'E' '9' 0xE9 rfl (by decide)
  have paired : Json.CharText ['\\', 'u', 'D', '8', '3', 'd', '\\', 'u', 'D', 'e', '0', '0'] '😀' :=
    @Json.CharText.pair 'D' '8' '3' 'd' 'D' 'e' '0' '0' 0xD83D 0xDE00 rfl rfl (by decide)
      (by decide)
  have hchars := Json.StringText.cons (.raw (c := 'é') (by decide) (by decide) (by decide)) <|
    .cons (@Json.CharText.short '/' '/' rfl) <| .cons (@Json.CharText.short 'n' '\n' rfl) <|
      .cons paired <| .cons accented <| .cons (@Json.CharText.short '"' '"' rfl) .nil
  have htext : Json.StringText "é\\/\\n\\uD83d\\uDe00\\u00E9\\\"".toList key.toList := by
    convert hchars using 1 <;> decide +kernel
  obtain ⟨hparse, -, hget⟩ := parse_key htext
  refine ⟨htext, ?_, hget _⟩
  convert hparse using 2
  decide +kernel

end DocPath
