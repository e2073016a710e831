import DocPath.Json.Printer
import DocPath.Proofs.Json.Reading
import DocPath.Proofs.Text.Escaping

/-!
# The text of a document is read as the document

A document without floats denotes itself in either of its texts, down to the order of its members:
the texts of containers follow from those of their children by induction on the document. So any
reader of the grammar reads it back.
-/

namespace DocPath.Json

variable {style : Style} {level : Nat} {v : Value}

/-- Every character is written as a text that stands for it. -/
theorem charText_escape (c : Char) : CharText (Text.Quoted.escape '"' c) c := by
  rw [Text.Quoted.escape]
  split_ifs with hb ht hn hf hr hbackslash hmark hquote hcode
  · exact hb ▸ .short rfl
  · exact ht ▸ .short rfl
  · exact hn ▸ .short rfl
  · exact hf ▸ .short rfl
  · exact hr ▸ .short rfl
  · cases hbackslash
    exact .short rfl
  · exact hquote ▸ .short rfl
  · refine .raw ?_ hquote hbackslash
    rcases hmark with rfl | rfl | rfl <;> decide
  · have below : '\u2028'.toNat = 8232 ∧ '\u2029'.toNat = 8233 := ⟨rfl, rfl⟩
    have hlow : c.toNat < 0xD800 := by
      rcases hcode with h | rfl | rfl <;> omega
    have hcode := CharText.code (hexValue4?_codeEscape (Nat.lt_trans hlow (by decide))) (.inl hlow)
    rwa [Char.ofNat_toNat] at hcode
  · exact .raw (Nat.le_of_not_lt fun h => hcode (.inl h)) (fun h => hmark (.inl h)) hbackslash

theorem stringText_escaped (cs : List Char) :
    StringText (cs.flatMap (Text.Quoted.escape '"')) cs := by
  induction cs with
  | nil => exact .nil
  | cons c cs ih => exact .cons (charText_escape c) ih

theorem writeString_eq (s : String) :
    writeString s = '"' :: (s.toList.flatMap (Text.Quoted.escape '"') ++ ['"']) :=
  Text.Quoted.write_eq _ _

theorem blank_lineBreak (style : Style) (level : Nat) : Blank (style.lineBreak level) := by
  intro c hc
  cases style with
  | compact => cases hc
  | pretty =>
    rcases List.mem_cons.mp hc with rfl | hc
    · rfl
    · rw [(List.mem_replicate.mp hc).2]
      rfl

/-- Blanks before a text. -/
theorem Denotes.after {blanks text : List Char} (h : Denotes text v) (blank : Blank blanks) :
    Denotes (blanks ++ text) v := by
  have hspaced := h.spaced blank (List.forall_mem_nil _)
  rwa [List.append_nil] at hspaced

theorem enclose_eq (style : Style) (level : Nat) (opening closing : Char) (items : List Char) :
    ∃ blanks, Blank blanks ∧
      style.enclose level opening closing items = opening :: (items ++ (blanks ++ [closing])) := by
  rw [Style.enclose]
  split
  · rename_i hempty
    rw [List.isEmpty_iff.mp hempty]
    exact ⟨[], List.forall_mem_nil _, rfl⟩
  · exact ⟨_, blank_lineBreak style level, by rw [List.append_assoc]⟩

def itemText (style : Style) (level : Nat) (v : Value) : List Char :=
  style.lineBreak level ++ write style level v

theorem writeItems_eq (style : Style) (level : Nat) (vs : List Value) :
    writeItems style level true vs = separated (vs.map (itemText style level)) := by
  induction vs with
  | nil => rfl
  | cons v vs ih =>
    cases vs with
    | nil => simp [writeItems, separated, itemText]
    | cons w ws =>
      have hcomma : writeItems style level false (w :: ws) =
        ',' :: writeItems style level true (w :: ws) := rfl
      rw [writeItems, hcomma, ih]
      rfl

theorem denotes_array {vs : List Value} (h : ∀ v ∈ vs, ∀ level, Denotes (write style level v) v)
    (level : Nat) : Denotes (write style level (.array vs)) (.array vs) := by
  obtain ⟨blanks, blank, henclose⟩ :=
    enclose_eq style level '[' ']' (separated (vs.map (itemText style (level + 1))))
  have items : ∀ item ∈ vs.map fun v => (itemText style (level + 1) v, v),
      Denotes item.1 item.2 := by
    simp only [List.forall_mem_map]
    exact fun v hv => (h v hv (level + 1)).after (blank_lineBreak style (level + 1))
  have harray := Denotes.array items blank
  simp only [List.map_map, Function.comp_def, List.map_id'] at harray
  rwa [write, writeItems_eq, henclose]

def Style.gap : Style → List Char
  | .compact => []
  | .pretty => [' ']

theorem Style.colon_eq (style : Style) : style.colon = ':' :: style.gap := by
  cases style <;> rfl

theorem blank_gap (style : Style) : Blank style.gap := by
  cases style with
  | compact => exact List.forall_mem_nil _
  | pretty => exact List.forall_mem_singleton.mpr rfl

def nameText (style : Style) (level : Nat) (name : String) : List Char :=
  style.lineBreak level ++ writeString name

theorem denotesName_nameText (style : Style) (level : Nat) (name : String) :
    DenotesName (nameText style level name) name := by
  rw [nameText, writeString_eq]
  exact .mk (blank_lineBreak style level) (stringText_escaped _) (List.forall_mem_nil _)

theorem writeMembers_eq (style : Style) (level : Nat) (ms : Members) :
    writeMembers style level true ms = separated (ms.map fun m =>
      nameText style level m.1 ++ ':' :: (style.gap ++ write style level m.2)) := by
  induction ms with
  | nil => rfl
  | cons m ms ih =>
    obtain ⟨k, v⟩ := m
    cases ms with
    | nil => simp [writeMembers, separated, nameText, Style.colon_eq]
    | cons m' ms =>
      obtain ⟨k', w⟩ := m'
      have hcomma : writeMembers style level false ((k', w) :: ms) =
        ',' :: writeMembers style level true ((k', w) :: ms) := rfl
      rw [writeMembers, hcomma, ih]
      simp [separated, nameText, Style.colon_eq]

theorem denotes_object {ms : Members} (names : (ms.map (·.1)).Nodup)
    (h : ∀ v ∈ ms.map (·.2), ∀ level, Denotes (write style level v) v) (level : Nat) :
    Denotes (write style level (.object ms)) (.object ms) := by
  let member (m : String × Value) := ((nameText style (level + 1) m.1,
    style.gap ++ write style (level + 1) m.2), m)
  obtain ⟨blanks, blank, henclose⟩ := enclose_eq style level '\x7b' '\x7d' (separated
    (ms.map fun m => nameText style (level + 1) m.1 ++ ':' :: (style.gap ++
      write style (level + 1) m.2)))
  have hnames : ∀ m ∈ ms.map member, DenotesName m.1.1 m.2.1 := by
    simp only [List.forall_mem_map]
    exact fun m _ => denotesName_nameText style (level + 1) m.1
  have hvalues : ∀ m ∈ ms.map member, Denotes m.1.2 m.2.2 := by
    simp only [List.forall_mem_map]
    exact fun m hm =>
      (h m.2 (List.mem_map_of_mem hm) (level + 1)).after (blank_gap style)
  have hobject := Denotes.object hnames hvalues blank
    (by simpa only [List.map_map, Function.comp_def] using names)
  simp only [List.map_map, Function.comp_def, member, List.map_id'] at hobject
  rwa [write, writeMembers_eq, henclose]

/-- A document without floats denotes itself in its text at any level. -/
theorem denotes_write (style : Style) (hv : v.Plain) (hfloat : v.Floatless) (level : Nat) :
    Denotes (write style level v) v := by
  induction v using Value.childrenInduction generalizing level with
  | step v ih =>
    obtain ⟨hkind, hnames, hplain⟩ := Value.formed_iff.mp hv
    obtain ⟨hnot, hfloats⟩ := Value.floatless_iff.mp hfloat
    have children : ∀ c ∈ v.children, ∀ level, Denotes (write style level c) c :=
      fun c hc level => ih c hc (hplain c hc) (hfloats c hc) level
    cases v with
    | null => exact .null
    | bool b =>
      cases b with
      | false => exact .bool false
      | true => exact .bool true
    | int n =>
      rw [write, ← Decimal.toList_toString_int]
      exact .int n
    | float x => cases hnot
    | str s =>
      rw [write, writeString_eq]
      exact .str (stringText_escaped _)
    | array vs => exact denotes_array children level
    | object ms => exact denotes_object hnames children level
    | keyed kind ms | slots refused vs => cases hkind

/-- A document without floats that is not nested too deep is read back from its text by any reader
of the grammar. -/
theorem ReadsGrammar.render {read? : String → Option Value} (h : ReadsGrammar read?)
    (style : Style) (hv : v.Plain) (hfloat : v.Floatless) (hdepth : v.height ≤ maxDepth) :
    read? (render style v) = some v := h (denotes_write style hv hfloat 0) hdepth

theorem read?_render (style : Style) (hv : v.Plain) (hfloat : v.Floatless)
    (hdepth : v.height ≤ maxDepth) : read? (render style v) = some v :=
  readsGrammar.render style hv hfloat hdepth

end DocPath.Json

namespace DocPath.Value

/-- A document without floats, nested no deeper than documents may be, is what either of its
texts is read as. -/
theorem read?_texts {v : Value} (hv : v.Plain) (hfloat : v.Floatless)
    (hdepth : v.height ≤ Json.maxDepth) :
    Json.read? v.compact = some v ∧ Json.read? v.pretty = some v :=
  ⟨Json.read?_render .compact hv hfloat hdepth, Json.read?_render .pretty hv hfloat hdepth⟩

/-- Escaped names, the least integer and empty containers. -/
theorem read?_texts_of_escapes :
    let v := Value.object
      [("\n\"é", .array [.int Int64.minValue, .object [], .array [], .str "\u2028/'\\"]),
        ("", .null), ("b", .bool true)]
    v.Plain ∧ v.Floatless ∧ v.height ≤ Json.maxDepth ∧
      Json.read? v.compact = some v ∧ Json.read? v.pretty = some v :=
  ⟨by decide, by decide, by decide, read?_texts (by decide) (by decide) (by decide)⟩

end DocPath.Value
