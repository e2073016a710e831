import DocPath.Builtin
import DocPath.Command.Basic
import DocPath.Proofs.Json.RoundTrip
import DocPath.Proofs.Query.Walk

/-!
# The text of a walk

Every node that is shown takes one line, and the line is cut at its first tab. For that neither
half may bring in a tab or a line feed of its own: names without quotes have no control
characters, and strings are written with escapes for them. Then each half is read back by its own
reader.
-/

namespace DocPath

namespace Text

/-- The lines of a text, without the line feeds that end them. What stands after the last line
feed is a line, too. -/
def lines : List Char → List (List Char)
  | [] => []
  | c :: cs =>
    if c = '\n' then [] :: lines cs
    else
      match lines cs with
      | [] => [[c]]
      | l :: ls => (c :: l) :: ls

theorem lines_append {l : List Char} (h : '\n' ∉ l) (rest : List Char) :
    lines (l ++ '\n' :: rest) = l :: lines rest := by
  induction l with
  | nil => rfl
  | cons c l ih =>
    have hc : c ≠ '\n' := fun heq => h (heq ▸ List.mem_cons_self)
    rw [List.cons_append, lines, if_neg hc, ih fun hl => h (List.mem_cons_of_mem c hl)]

theorem lines_flatMap {ls : List (List Char)} (h : ∀ l ∈ ls, '\n' ∉ l) :
    lines (ls.flatMap (· ++ ['\n'])) = ls := by
  induction ls with
  | nil => rfl
  | cons l ls ih =>
    obtain ⟨hl, hls⟩ := List.forall_mem_cons.mp h
    rw [List.flatMap_cons, List.append_assoc, List.singleton_append, lines_append hl, ih hls]

def Printed (cs : List Char) : Prop := ∀ c ∈ cs, 0x20 ≤ c.toNat

instance (cs : List Char) : Decidable (Printed cs) :=
  List.decidableBAll (fun c : Char => 0x20 ≤ c.toNat) cs

variable {c : Char} {cs ds : List Char}

theorem Printed.nil : Printed [] := nofun

theorem Printed.cons (hc : 0x20 ≤ c.toNat) (hcs : Printed cs) : Printed (c :: cs) :=
  List.forall_mem_cons.mpr ⟨hc, hcs⟩

theorem Printed.append (hcs : Printed cs) (hds : Printed ds) : Printed (cs ++ ds) :=
  fun c hc => (List.mem_append.mp hc).elim (hcs c) (hds c)

theorem Printed.flatMap {α : Type} {xs : List α} {f : α → List Char}
    (h : ∀ x ∈ xs, Printed (f x)) : Printed (xs.flatMap f) := by
  intro c hc
  obtain ⟨x, hx, hc⟩ := List.mem_flatMap.mp hc
  exact h x hx c hc

theorem Printed.not_mem (h : Printed cs) (hc : c.toNat < 0x20) : c ∉ cs :=
  fun hmem => Nat.not_lt.mpr (h c hmem) hc

theorem printed_hexDigit (n : Nat) : 0x20 ≤ (Quoted.hexDigit n).toNat := by
  rw [Quoted.hexDigit]
  have hn : n % 16 < 16 := Nat.mod_lt n (by decide)
  generalize n % 16 = d at hn
  interval_cases d <;> decide

/-- Between quotes every control character is written as an escape. -/
theorem printed_escape (quote c : Char) : Printed (Quoted.escape quote c) := by
  rw [Quoted.escape]
  split_ifs with hb ht hn hf hr hbackslash hmark hquote hcode
  · decide
  · decide
  · decide
  · decide
  · decide
  · decide
  · rcases hmark with rfl | rfl | rfl <;> decide
  · rcases hmark with rfl | rfl | rfl <;> decide
  · have hbackslash : 0x20 ≤ '\\'.toNat := by decide
    exact .cons hbackslash <| .cons (by decide) <| .cons (printed_hexDigit _) <|
      .cons (printed_hexDigit _) <| .cons (printed_hexDigit _) <| .cons (printed_hexDigit _) .nil
  · exact .cons (Nat.le_of_not_lt fun hc => hcode (Or.inl hc)) .nil

theorem printed_write {quote : Char} (hquote : 0x20 ≤ quote.toNat) (cs : List Char) :
    Printed (Quoted.write quote cs) := by
  rw [Quoted.write_eq]
  exact .cons hquote <| .append (.flatMap fun c _ => printed_escape quote c) (.cons hquote .nil)

theorem printed_natDigits (n : Nat) : Printed (Decimal.natDigits n) := by
  intro c hc
  have hdigit := Decimal.isDigit_of_mem_natDigits n c hc
  have hzero : '0' ≤ c := of_decide_eq_true (Bool.and_eq_true_iff.mp hdigit).1
  exact Nat.le_trans (by decide) hzero

theorem printed_writeInt (i : Int) : Printed (Decimal.writeInt i) := by
  rw [Decimal.writeInt]
  split
  · exact .cons (by decide) (printed_natDigits _)
  · exact printed_natDigits _

end Text

open Text

/-- No control character belongs to a name without quotes. The separators U+2028 and U+2029 may,
but they end no line. -/
theorem printed_bare {cs : List Char} (h : isBareName cs) : Printed cs := by
  intro c hc
  by_contra hcontrol
  have hall := List.all_eq_true.mp (Bool.and_eq_true_iff.mp h).2
  have hone := Utf8.encodeChar_of_one (c := c) (by omega)
  have hbyte := hall (UInt8.ofNat c.toNat)
    (List.mem_flatMap.mpr ⟨c, hc, hone ▸ List.mem_singleton_self _⟩)
  have hlow : c.toNat < 0x20 := Nat.not_le.mp hcontrol
  generalize c.toNat = n at hbyte hlow
  interval_cases n <;> cases hbyte

theorem Step.printed_fragment (s : Step) (first : Bool) :
    Printed (s.fragment.write false first) := by
  cases s with
  | key name =>
    rw [fragment, Fragment.write]
    split_ifs with hquoted hfirst
    · exact .cons (by decide) <| .append (printed_write (by decide) _) (.cons (by decide) .nil)
    · exact printed_bare (by simpa using hquoted)
    · exact .cons (by decide) (printed_bare (by simpa using hquoted))
  | index i =>
    exact .cons (by decide) <| .append (printed_writeInt _) (.cons (by decide) .nil)

theorem Location.printed_path (l : Location) : Printed l.path.text.toList := by
  have steps : ∀ l : Location, Printed (writeFragments false false (l.map Step.fragment)) := by
    intro l
    induction l with
    | nil => exact .nil
    | cons s l ih =>
      have hcons : writeFragments false false ((s :: l).map Step.fragment) =
          s.fragment.write false false ++ writeFragments false false (l.map Step.fragment) := by
        cases s <;> rfl
      rw [hcons]
      exact (s.printed_fragment false).append ih
  rw [Path.text, String.toList_ofList]
  exact .cons (by decide) (steps l)

namespace Json

variable {level : Nat} {first : Bool}

theorem printed_writeItems {vs : List Value}
    (h : ∀ v ∈ vs, ∀ level, Printed (write .compact level v)) :
    Printed (writeItems .compact level first vs) := by
  induction vs generalizing first with
  | nil => exact .nil
  | cons v vs ih =>
    obtain ⟨hv, hvs⟩ := List.forall_mem_cons.mp h
    have hcomma : Printed (if first then [] else [',']) := by cases first <;> decide
    exact ((hcomma.append .nil).append (hv level)).append (ih hvs)

theorem printed_writeMembers {ms : Members}
    (h : ∀ v ∈ ms.map (·.2), ∀ level, Printed (write .compact level v)) :
    Printed (writeMembers .compact level first ms) := by
  induction ms generalizing first with
  | nil => exact .nil
  | cons m ms ih =>
    obtain ⟨k, v⟩ := m
    rw [List.map_cons, List.forall_mem_cons] at h
    have hcomma : Printed (if first then [] else [',']) := by cases first <;> decide
    have hkey : Printed (writeString k) := printed_write (by decide) _
    have hcolon : Printed (Style.colon .compact) := by decide
    exact ((((hcomma.append .nil).append hkey).append hcolon).append (h.1 level)).append (ih h.2)

theorem printed_enclose {opening closing : Char} {items : List Char}
    (hopening : 0x20 ≤ opening.toNat) (hclosing : 0x20 ≤ closing.toNat) (h : Printed items) :
    Printed (Style.enclose .compact level opening closing items) := by
  rw [Style.enclose]
  split
  · exact .cons hopening (.cons hclosing .nil)
  · exact .cons hopening ((h.append .nil).append (.cons hclosing .nil))

/-- The compact text of a document has no control characters. -/
theorem printed_compact {v : Value} (hfloat : v.Floatless) (level : Nat) :
    Printed (write .compact level v) := by
  induction v using Value.childrenInduction generalizing level with
  | step v ih =>
    obtain ⟨hnot, hfloats⟩ := Value.floatless_iff.mp hfloat
    have children : ∀ c ∈ v.children, ∀ level, Printed (write .compact level c) :=
      fun c hc => ih c hc (hfloats c hc)
    cases v with
    | null =>
      have text : Printed "null".toList := by decide
      exact text
    | bool b =>
      have texts : Printed "true".toList ∧ Printed "false".toList := by decide
      cases b with
      | true => exact texts.1
      | false => exact texts.2
    | int n => exact printed_writeInt _
    | float x => cases hnot
    | str s => exact printed_write (by decide) _
    | array vs | slots refused vs =>
      exact printed_enclose (by decide) (by decide) (printed_writeItems children)
    | object ms | keyed kind ms =>
      exact printed_enclose (by decide) (by decide) (printed_writeMembers children)

end Json

/-- The nodes of a document without floats are such documents, and no higher. -/
theorem Value.HasNode.plain {doc w : Value} {l : Location} (h : doc.HasNode l w) (hd : doc.Plain)
    (hfloat : doc.Floatless) : w.Plain ∧ w.Floatless ∧ w.height ≤ doc.height := by
  induction h with
  | self v => exact ⟨hd, hfloat, Nat.le_refl _⟩
  | @child v w e l he _ ih =>
    have hchild := Value.mem_children_of_mem_entries he
    obtain ⟨hplain, hfloats, hheight⟩ :=
      ih ((Value.formed_iff.mp hd).2.2 _ hchild) ((Value.floatless_iff.mp hfloat).2 _ hchild)
    exact ⟨hplain, hfloats, Nat.le_of_lt
      (Nat.lt_of_le_of_lt hheight (Value.height_lt_of_mem_children hchild))⟩

/-- The nodes that a walk has to show: all of them, or those that are no containers. -/
def Walk.reported (justLeaves : Bool) (doc : Value) : List Node :=
  (Node.subtree ([], doc)).filter fun n => !n.2.isContainer || !justLeaves

theorem Walk.shown_eq_reported (justLeaves : Bool) (doc : Value) :
    Walk.shown justLeaves doc = (Walk.reported justLeaves doc).map fun n => (n.1.path, n.2) := by
  rw [Walk.shown_eq, Walk.reported, List.filter_map]
  rfl

theorem Walk.reported_nodup {doc : Value} (hd : doc.WellFormed) (justLeaves : Bool) :
    ((Walk.reported justLeaves doc).map (·.1)).Nodup :=
  (Node.subtree_nodup hd).sublist (List.filter_sublist.map _)

theorem Walk.hasNode_of_mem_reported {doc : Value} {n : Node} {justLeaves : Bool}
    (h : n ∈ Walk.reported justLeaves doc) : doc.HasNode n.1 n.2 := by
  obtain ⟨l, hl, hnode⟩ := Node.mem_subtree_iff.mp (List.mem_of_mem_filter h)
  rw [hl, List.nil_append]
  exact hnode

namespace Command

def line (n : Node) : List Char := n.1.path.text.toList ++ '\t' :: n.2.compact.toList

/-- Reads a line: a path up to the first tab, and a document behind it. -/
def readLine? [Libraries] (line : List Char) : Option (Path × Value) := do
  let p ← (Path.parse (String.ofList (line.takeWhile (· ≠ '\t')))).toOption
  let v ← Json.read? (String.ofList ((line.dropWhile (· ≠ '\t')).drop 1))
  some (p, v)

variable {n : Node} {doc : Value} {input : String}

theorem readLine?_line [Libraries] (hvalue : Json.read? n.2.compact = some n.2) :
    readLine? (line n) = some (n.1.path, n.2) := by
  have hne : ∀ c ∈ n.1.path.text.toList, decide (c ≠ '\t') := by
    intro c hc
    exact decide_eq_true fun heq => n.1.printed_path.not_mem (by decide) (heq ▸ hc)
  have htake : (line n).takeWhile (· ≠ '\t') = n.1.path.text.toList := by
    rw [line, List.takeWhile_append_of_pos hne]
    exact List.append_nil _
  have hdrop : (line n).dropWhile (· ≠ '\t') = '\t' :: n.2.compact.toList :=
    List.dropWhile_append_of_pos hne
  rw [readLine?, htake, hdrop, List.drop_one, List.tail_cons, String.ofList_toList,
    String.ofList_toList, n.1.parse_path, hvalue]
  rfl

theorem newline_not_mem_line (hfloat : n.2.Floatless) : '\n' ∉ line n := by
  have hvalue : Printed n.2.compact.toList := by
    rw [Value.compact, Json.render, String.toList_ofList]
    exact Json.printed_compact hfloat 0
  intro h
  rcases List.mem_append.mp h with h | h
  · exact n.1.printed_path.not_mem (by decide) h
  · rcases List.mem_cons.mp h with h | h
    · cases h
    · exact hvalue.not_mem (by decide) h

theorem walkText_toList (nodes : List Node) :
    (walkText (nodes.map fun n => (n.1.path, n.2))).toList =
      (nodes.map line).flatMap (· ++ ['\n']) := by
  have more : ∀ text : String, ((nodes.map fun n => (n.1.path, n.2)).foldl
      (fun text n => text ++ Path.text n.1 ++ "\t" ++ n.2.compact ++ "\n") text).toList =
        text.toList ++ (nodes.map line).flatMap (· ++ ['\n']) := by
    induction nodes with
    | nil => exact fun text => (List.append_nil _).symm
    | cons n nodes ih =>
      intro text
      rw [List.map_cons, List.foldl_cons, ih, List.map_cons, List.flatMap_cons]
      simp [line]
  exact more ""

theorem run_walk_eq [Libraries] (h : Json.read? input = some doc) (leaves : Bool) :
    run (.walk leaves) (some input) = .ok (walkText (Walk.shown leaves doc)) := by
  have hread : readDocument (some input) = .ok doc := by
    rw [readDocument, readJson, h]
  rw [run, hread]
  cases leaves <;> rfl

/-- The text of a walk has one line for each node that is reported, and each node is reported
once. The text of the line up to its first tab is read as the path to the node, which selects that
one value, and the text behind it is read as the value. -/
theorem run_walk_lines [Libraries] (hd : doc.Plain) (hfloat : doc.Floatless)
    (hdepth : doc.height ≤ Json.maxDepth) (hc : doc.Indexable)
    (hinput : Json.read? input = some doc) (leaves : Bool) :
    ∃ out, run (.walk leaves) (some input) = .ok out ∧
      (lines out.toList).map readLine? =
        (Walk.reported leaves doc).map (fun n => some (n.1.path, n.2)) ∧
      ((Walk.reported leaves doc).map (·.1)).Nodup ∧
      ∀ n ∈ Walk.reported leaves doc, n.1.path.get doc = [n.2] := by
  have hwell : doc.WellFormed := Value.formed_mono (fun _ _ => rfl) hd
  have reported : ∀ n ∈ Walk.reported leaves doc,
      n.2.Floatless ∧ Json.read? n.2.compact = some n.2 := by
    intro n hn
    obtain ⟨hplain, hfloats, hheight⟩ := (Walk.hasNode_of_mem_reported hn).plain hd hfloat
    exact ⟨hfloats,
      Json.read?_render .compact hplain hfloats (Nat.le_trans hheight hdepth)⟩
  have noFeed : ∀ l ∈ (Walk.reported leaves doc).map line, '\n' ∉ l := by
    intro l hl
    obtain ⟨n, hn, rfl⟩ := List.mem_map.mp hl
    exact newline_not_mem_line (reported n hn).1
  refine ⟨_, run_walk_eq hinput leaves, ?_, Walk.reported_nodup hwell leaves, fun n hn => ?_⟩
  · rw [Walk.shown_eq_reported, walkText_toList, lines_flatMap noFeed, List.map_map]
    exact List.map_congr_left fun n hn => readLine?_line (reported n hn).2
  · exact (Walk.hasNode_of_mem_reported hn).get_path hwell hc

theorem run_walk_lines_of_separators :
    let doc : Value := .object [("a\tb\n", .str "\n\u2028\x01"), ("c\u2028", .array [])]
    let input := "\x7b\"a\\tb\\n\":\"\\n\\u2028\\u0001\",\"c\\u2028\":[]\x7d"
    doc.Plain ∧ doc.Floatless ∧ doc.height ≤ Json.maxDepth ∧ doc.Indexable ∧
      Json.read? input = some doc ∧
      ∃ out, run (.walk false) (some input) = .ok out ∧
        out = "$\t" ++ input ++ "\n" ++
          "$['a\\tb\\n']\t\"\\n\\u2028\\u0001\"\n" ++ "$.c\u2028\t[]\n" ∧
        (lines out.toList).map readLine? = [some ([.root], doc),
          some ([.root, .child "a\tb\n"], .str "\n\u2028\x01"),
          some ([.root, .child "c\u2028"], .array [])] := by
  intro doc input
  have hd : doc.Plain := by decide
  have hfloat : doc.Floatless := by decide
  have hdepth : doc.height ≤ Json.maxDepth := by decide
  have hc : doc.Indexable := by decide
  have htext : doc.compact = input := by decide +kernel
  have hinput : Json.read? input = some doc := by
    rw [← htext]
    exact Json.read?_render .compact hd hfloat hdepth
  have hreported : Walk.reported false doc = [([], doc),
      ([.key "a\tb\n"], .str "\n\u2028\x01"), ([.key "c\u2028"], .array [])] := by
    have leaf : ∀ n : Node, n.2.entries = [] → n.subtree = [n] := by
      intro n hn
      rw [Node.subtree_eq, hn, List.flatMap_nil]
    rw [Walk.reported, Node.subtree_eq]
    simp only [doc, Value.entries, List.map_cons, List.map_nil, List.flatMap_cons,
      List.flatMap_nil, Node.child, List.nil_append]
    rw [leaf _ rfl, leaf _ rfl]
    rfl
  obtain ⟨out, hrun, hlines, -⟩ := run_walk_lines hd hfloat hdepth hc hinput false
  rw [hreported] at hlines
  refine ⟨hd, hfloat, hdepth, hc, hinput, out, hrun, ?_, hlines⟩
  rw [run_walk_eq hinput, Walk.shown_eq_reported, hreported] at hrun
  rw [← Except.ok.inj hrun]
  decide +kernel

end Command
end DocPath
