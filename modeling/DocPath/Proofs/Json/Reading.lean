import DocPath.Proofs.Json.Grammar
import Mathlib.Data.List.DropRight

/-!
# The grammar is read

Each text of the grammar is read as the value that it denotes, with whatever may follow a value in
a document after it. Blanks at its end are left to the reader of what follows.
-/

namespace DocPath.Json

variable {text blanks cs ds rest : List Char} {c : Char} {fuel depth : Nat} {v : Value}

theorem skipBlanks_append (h : Blank cs) : skipBlanks (cs ++ rest) = skipBlanks rest :=
  List.dropWhile_append_of_pos h

theorem skipBlanks_cons_of_not_blank (h : isBlank c = false) :
    skipBlanks (c :: rest) = c :: rest :=
  List.dropWhile_cons_of_neg (by simp [h])

theorem skipBlanks_skipBlanks (cs : List Char) : skipBlanks (skipBlanks cs) = skipBlanks cs :=
  List.dropWhile_idempotent isBlank cs

/-- Blanks before what ends a number end it as well. -/
theorem EndsNumber.append (hrest : EndsNumber rest) (h : Blank blanks) :
    EndsNumber (blanks ++ rest) := by
  cases blanks with
  | nil => exact hrest
  | cons c blanks =>
    have hc := h c List.mem_cons_self
    simp only [isBlank, Bool.or_eq_true, decide_eq_true_eq] at hc
    rcases hc with ((rfl | rfl) | rfl) | rfl <;> exact .cons (by decide)

theorem readValue?_congr (h : skipBlanks cs = skipBlanks ds) :
    readValue? fuel depth cs = readValue? fuel depth ds := by
  cases fuel with
  | zero => rfl
  | succ fuel => simp only [readValue?, h]

theorem readItems?_congr (h : skipBlanks cs = skipBlanks ds) :
    readItems? fuel depth cs = readItems? fuel depth ds := by
  cases fuel with
  | zero => rfl
  | succ fuel => simp only [readItems?, readValue?_congr h]

theorem readMembers?_congr (h : skipBlanks cs = skipBlanks ds) :
    readMembers? fuel depth cs = readMembers? fuel depth ds := by
  cases fuel with
  | zero => rfl
  | succ fuel => simp only [readMembers?, h]

/-- A text is read as a value, whatever a document may have after it. -/
def IsRead (text : List Char) (v : Value) : Prop :=
  ∀ fuel depth rest, text.length ≤ fuel → v.height ≤ depth → EndsNumber rest →
    ∃ rest', readValue? fuel depth (text ++ rest) = some (v, rest') ∧
      skipBlanks rest' = skipBlanks rest

theorem IsRead.of_scalar (hne : text ≠ [])
    (h : ∀ fuel depth rest, EndsNumber rest →
      readValue? (fuel + 1) depth (text ++ rest) = some (v, rest)) : IsRead text v := by
  intro fuel depth rest hfuel _ hrest
  have hpos := Nat.le_trans (List.length_pos_of_ne_nil hne) hfuel
  obtain ⟨fuel, rfl⟩ := Nat.exists_eq_add_of_le' hpos
  exact ⟨rest, h fuel depth rest hrest, rfl⟩

theorem IsRead.spaced {before after : List Char} (h : IsRead text v) (blank : Blank before)
    (blank' : Blank after) : IsRead (before ++ (text ++ after)) v := by
  intro fuel depth rest hfuel hdepth hrest
  simp only [List.length_append] at hfuel
  obtain ⟨rest', hread, hskip⟩ := h fuel depth _ (by omega) hdepth (hrest.append blank')
  refine ⟨rest', ?_, hskip.trans (skipBlanks_append blank')⟩
  rw [List.append_assoc, List.append_assoc, readValue?_congr (skipBlanks_append blank), hread]

theorem isRead_bool (b : Bool) : IsRead (toString b).toList (.bool b) := by
  cases b with
  | false => exact IsRead.of_scalar (by decide) fun _ _ _ _ => rfl
  | true => exact IsRead.of_scalar (by decide) fun _ _ _ _ => rfl

theorem isRead_str {s : String} (h : StringText text s.toList) :
    IsRead ('"' :: (text ++ ['"'])) (.str s) := by
  refine IsRead.of_scalar (List.cons_ne_nil _ _) fun fuel depth rest _ => ?_
  rw [List.cons_append, List.append_assoc, List.singleton_append]
  simp only [readValue?, skipBlanks_cons_of_not_blank (c := '"') rfl, h.readString?,
    Option.map_some, String.ofList_toList]

/-- What begins with a minus sign or a digit is read as a number. -/
theorem readValue?_number (h : c = '-' ∨ c.isDigit) :
    readValue? (fuel + 1) depth (c :: rest) =
      (Number.Parts.read? (c :: rest)).bind fun p => p.1.value?.bind fun v => some (v, p.2) := by
  have hblank : isBlank c = false := by
    refine Bool.eq_false_iff.mpr fun hb => ?_
    rcases h with rfl | h
    · cases hb
    · simp only [isBlank, Bool.or_eq_true, decide_eq_true_eq] at hb
      rcases hb with ((rfl | rfl) | rfl) | rfl <;> cases h
  simp only [readValue?, skipBlanks_cons_of_not_blank hblank]
  split <;> first | rfl | (rename_i heq; cases heq; rcases h with h | h <;> cases h)

theorem isRead_int (n : Int64) : IsRead (toString n.toInt).toList (.int n) := by
  rw [Decimal.toList_toString_int]
  obtain ⟨c, cs, hcons, hc⟩ := Decimal.writeInt_eq_cons n.toInt
  refine IsRead.of_scalar (by simp [hcons]) fun fuel depth rest hrest => ?_
  have hparts : Number.Parts.read? (Decimal.writeInt n.toInt ++ rest) =
      some (Number.integer (n.toInt < 0) n.toInt.natAbs, rest) := by
    rw [Decimal.writeInt_eq, List.append_assoc, Number.read?_integer _ _ hrest]
  rw [hcons, List.cons_append] at hparts ⊢
  rw [readValue?_number hc, hparts, Option.bind_some, Number.value?_integer, Option.bind_some]

theorem readItems?_bracket : readItems? fuel depth (']' :: rest) = none := by
  rcases fuel with _ | _ | fuel <;> rfl

theorem readMembers?_brace : readMembers? fuel depth ('\x7d' :: rest) = none := by
  cases fuel <;> rfl

/-- Items up to a closing bracket make an array. -/
theorem readValue?_array {vs : List Value} (h : readItems? fuel depth cs = some (vs, rest)) :
    readValue? (fuel + 1) (depth + 1) ('[' :: cs) = some (.array vs, rest) := by
  rw [← readItems?_congr (skipBlanks_skipBlanks cs)] at h
  have hopen : ∀ more, skipBlanks cs ≠ ']' :: more := by
    intro more hclosed
    rw [hclosed, readItems?_bracket] at h
    cases h
  simp only [readValue?, skipBlanks_cons_of_not_blank (c := '[') rfl]
  rw [h]
  rfl

theorem readValue?_object {ms : Members} (h : readMembers? fuel depth cs = some (ms, rest)) :
    readValue? (fuel + 1) (depth + 1) ('\x7b' :: cs) =
      some (.object (Members.ofPairs ms), rest) := by
  rw [← readMembers?_congr (skipBlanks_skipBlanks cs)] at h
  have hopen : ∀ more, skipBlanks cs ≠ '\x7d' :: more := by
    intro more hclosed
    rw [hclosed, readMembers?_brace] at h
    cases h
  simp only [readValue?, skipBlanks_cons_of_not_blank (c := '\x7b') rfl]
  rw [h]
  rfl

theorem readItems?_last (hv : readValue? fuel depth cs = some (v, ds))
    (hend : skipBlanks ds = ']' :: rest) : readItems? (fuel + 1) depth cs = some ([v], rest) := by
  simp only [readItems?, hv, hend, Option.bind_eq_bind, Option.bind_some]

theorem readItems?_more {vs : List Value} {more : List Char}
    (hv : readValue? fuel depth cs = some (v, ds)) (hcomma : skipBlanks ds = ',' :: more)
    (hvs : readItems? fuel depth more = some (vs, rest)) :
    readItems? (fuel + 1) depth cs = some (v :: vs, rest) := by
  simp only [readItems?, hv, hcomma, hvs, Option.bind_eq_bind, Option.bind_some]

/-- Items with commas between them are read up to the closing bracket. -/
theorem readItems?_separated {items : List (List Char × Value)} (blank : Blank blanks)
    (hv : IsRead text v) (hitems : ∀ item ∈ items, IsRead item.1 item.2)
    (hfuel : (separated (text :: items.map (·.1))).length < fuel)
    (hdepth : Value.heightItems (v :: items.map (·.2)) ≤ depth) :
    readItems? fuel depth (separated (text :: items.map (·.1)) ++ (blanks ++ ']' :: rest)) =
      some (v :: items.map (·.2), rest) := by
  induction items generalizing text v fuel with
  | nil =>
    obtain ⟨fuel, rfl⟩ := Nat.exists_eq_succ_of_ne_zero (Nat.ne_of_gt (Nat.zero_lt_of_lt hfuel))
    simp only [List.map_nil, separated, Value.heightItems] at hfuel hdepth ⊢
    obtain ⟨rest', hvalue, hskip⟩ := hv fuel depth (blanks ++ ']' :: rest)
      (Nat.le_of_lt_succ hfuel) (by omega) (EndsNumber.append (.cons (by decide)) blank)
    refine readItems?_last hvalue (hskip.trans ?_)
    rw [skipBlanks_append blank, skipBlanks_cons_of_not_blank rfl]
  | cons next items ih =>
    obtain ⟨fuel, rfl⟩ := Nat.exists_eq_succ_of_ne_zero (Nat.ne_of_gt (Nat.zero_lt_of_lt hfuel))
    obtain ⟨hnext, hitems⟩ := List.forall_mem_cons.mp hitems
    rw [List.map_cons, List.map_cons, separated] at *
    rw [Value.heightItems] at hdepth
    simp only [List.length_append, List.length_cons, List.append_assoc,
      List.cons_append] at hfuel ⊢
    obtain ⟨rest', hvalue, hskip⟩ := hv fuel depth
      (',' :: (separated (next.1 :: items.map (·.1)) ++ (blanks ++ ']' :: rest))) (by omega)
      (by omega) (.cons (by decide))
    exact readItems?_more hvalue (hskip.trans (skipBlanks_cons_of_not_blank rfl))
      (ih hnext hitems (by omega) (by omega))

theorem isRead_array {items : List (List Char × Value)} (blank : Blank blanks)
    (hread : ∀ item ∈ items, IsRead item.1 item.2) :
    IsRead ('[' :: (separated (items.map (·.1)) ++ (blanks ++ [']'])))
      (.array (items.map (·.2))) := by
  intro fuel depth rest hfuel hdepth _
  obtain ⟨depth, rfl⟩ := Nat.exists_eq_add_of_le' (Nat.le_trans (Nat.le_add_left 1 _) hdepth)
  simp only [List.length_cons, List.length_append] at hfuel
  obtain ⟨fuel, rfl⟩ := Nat.exists_eq_add_of_le' (Nat.le_trans (Nat.le_add_left 1 _) hfuel)
  refine ⟨rest, ?_, rfl⟩
  simp only [List.cons_append, List.append_assoc, List.nil_append]
  cases items with
  | nil =>
    have hclosed : skipBlanks (blanks ++ ']' :: rest) = ']' :: rest := by
      rw [skipBlanks_append blank, skipBlanks_cons_of_not_blank rfl]
    simp only [readValue?, skipBlanks_cons_of_not_blank (c := '[') rfl, List.map_nil, separated,
      List.nil_append, hclosed]
  | cons item items =>
    obtain ⟨hitem, hitems⟩ := List.forall_mem_cons.mp hread
    simp only [List.map_cons] at hfuel
    have hshort : (separated (item.1 :: items.map (·.1))).length < fuel := by omega
    exact readValue?_array (readItems?_separated blank hitem hitems hshort
      (Nat.le_of_add_le_add_right hdepth))

/-- The name of a member is read up to its colon. -/
theorem readMembers?_name {name : String} (h : DenotesName text name) (cs : List Char) :
    ∃ string after, skipBlanks (text ++ ':' :: cs) = '"' :: string ∧
      readString? string = some (name.toList, after) ∧ skipBlanks after = ':' :: cs := by
  cases h with
  | @mk before text after _ blank string blank' =>
    refine ⟨text ++ '"' :: (after ++ ':' :: cs), after ++ ':' :: cs, ?_, string.readString? _, ?_⟩
    · rw [List.append_assoc, skipBlanks_append blank, List.cons_append, List.append_assoc,
        List.cons_append, skipBlanks_cons_of_not_blank rfl]
    · rw [skipBlanks_append blank', skipBlanks_cons_of_not_blank rfl]

theorem readMembers?_last {name : String} (hname : DenotesName text name)
    (hv : readValue? fuel depth cs = some (v, ds)) (hend : skipBlanks ds = '\x7d' :: rest) :
    readMembers? (fuel + 1) depth (text ++ ':' :: cs) = some ([(name, v)], rest) := by
  obtain ⟨string, after, hquote, hstring, hcolon⟩ := readMembers?_name hname cs
  simp only [readMembers?, hquote, hstring, hcolon, hv, hend, Option.bind_eq_bind,
    Option.bind_some, String.ofList_toList]

theorem readMembers?_more {name : String} {ms : Members} {more : List Char}
    (hname : DenotesName text name) (hv : readValue? fuel depth cs = some (v, ds))
    (hcomma : skipBlanks ds = ',' :: more)
    (hms : readMembers? fuel depth more = some (ms, rest)) :
    readMembers? (fuel + 1) depth (text ++ ':' :: cs) = some ((name, v) :: ms, rest) := by
  obtain ⟨string, after, hquote, hstring, hcolon⟩ := readMembers?_name hname cs
  simp only [readMembers?, hquote, hstring, hcolon, hv, hcomma, hms, Option.bind_eq_bind,
    Option.bind_some, String.ofList_toList]

/-- Members with commas between them are read up to the closing brace. -/
theorem readMembers?_separated {name : String} {nameText : List Char}
    {members : List ((List Char × List Char) × (String × Value))} (blank : Blank blanks)
    (hname : DenotesName nameText name) (hv : IsRead text v)
    (hnames : ∀ m ∈ members, DenotesName m.1.1 m.2.1) (hvs : ∀ m ∈ members, IsRead m.1.2 m.2.2)
    (hfuel : (separated ((nameText ++ ':' :: text) ::
      members.map fun m => m.1.1 ++ ':' :: m.1.2)).length < fuel)
    (hdepth : Value.heightMembers ((name, v) :: members.map (·.2)) ≤ depth) :
    readMembers? fuel depth (separated ((nameText ++ ':' :: text) ::
        members.map fun m => m.1.1 ++ ':' :: m.1.2) ++ (blanks ++ '\x7d' :: rest)) =
      some ((name, v) :: members.map (·.2), rest) := by
  induction members generalizing name nameText text v fuel with
  | nil =>
    obtain ⟨fuel, rfl⟩ := Nat.exists_eq_succ_of_ne_zero (Nat.ne_of_gt (Nat.zero_lt_of_lt hfuel))
    simp only [List.map_nil, separated, Value.heightMembers, List.length_append,
      List.length_cons] at hfuel hdepth
    obtain ⟨rest', hvalue, hskip⟩ := hv fuel depth (blanks ++ '\x7d' :: rest) (by omega) (by omega)
      (EndsNumber.append (.cons (by decide)) blank)
    rw [List.map_nil, separated, List.append_assoc, List.cons_append]
    refine readMembers?_last hname hvalue (hskip.trans ?_)
    rw [skipBlanks_append blank, skipBlanks_cons_of_not_blank rfl]
  | cons next members ih =>
    obtain ⟨fuel, rfl⟩ := Nat.exists_eq_succ_of_ne_zero (Nat.ne_of_gt (Nat.zero_lt_of_lt hfuel))
    obtain ⟨hname', hnames⟩ := List.forall_mem_cons.mp hnames
    obtain ⟨hnext, hvs⟩ := List.forall_mem_cons.mp hvs
    rw [List.map_cons, List.map_cons, separated] at *
    rw [Value.heightMembers, Nat.max_le] at hdepth
    simp only [List.length_append, List.length_cons, List.append_assoc,
      List.cons_append] at hfuel ⊢
    obtain ⟨rest', hvalue, hskip⟩ := hv fuel depth (',' :: (separated
      ((next.1.1 ++ ':' :: next.1.2) :: members.map fun m => m.1.1 ++ ':' :: m.1.2) ++
        (blanks ++ '\x7d' :: rest))) (by omega) hdepth.1 (.cons (by decide))
    exact readMembers?_more hname hvalue (hskip.trans (skipBlanks_cons_of_not_blank rfl))
      (ih hname' hnext hnames hvs (by omega) hdepth.2)

theorem isRead_object {members : List ((List Char × List Char) × (String × Value))}
    (names : ∀ m ∈ members, DenotesName m.1.1 m.2.1) (hread : ∀ m ∈ members, IsRead m.1.2 m.2.2)
    (blank : Blank blanks) (distinct : (members.map (·.2.1)).Nodup) :
    IsRead ('\x7b' :: (separated (members.map fun m => m.1.1 ++ ':' :: m.1.2) ++
      (blanks ++ ['\x7d']))) (.object (members.map (·.2))) := by
  intro fuel depth rest hfuel hdepth _
  obtain ⟨depth, rfl⟩ := Nat.exists_eq_add_of_le' (Nat.le_trans (Nat.le_add_left 1 _) hdepth)
  simp only [List.length_cons, List.length_append] at hfuel
  obtain ⟨fuel, rfl⟩ := Nat.exists_eq_add_of_le' (Nat.le_trans (Nat.le_add_left 1 _) hfuel)
  refine ⟨rest, ?_, rfl⟩
  simp only [List.cons_append, List.append_assoc, List.nil_append]
  cases members with
  | nil =>
    have hclosed : skipBlanks (blanks ++ '\x7d' :: rest) = '\x7d' :: rest := by
      rw [skipBlanks_append blank, skipBlanks_cons_of_not_blank rfl]
    simp only [readValue?, skipBlanks_cons_of_not_blank (c := '\x7b') rfl, List.map_nil, separated,
      List.nil_append, hclosed]
  | cons m members =>
    obtain ⟨hname, hnames⟩ := List.forall_mem_cons.mp names
    obtain ⟨hv, hvs⟩ := List.forall_mem_cons.mp hread
    simp only [List.map_cons] at hfuel
    have hnodup : (((m :: members).map (·.2)).map (·.1)).Nodup := by rwa [List.map_map]
    have hmembers : readMembers? fuel depth (separated ((m :: members).map fun m =>
        m.1.1 ++ ':' :: m.1.2) ++ (blanks ++ '\x7d' :: rest)) =
          some ((m :: members).map (·.2), rest) :=
      readMembers?_separated blank hname hv hnames hvs (by omega)
        (Nat.le_of_add_le_add_right hdepth)
    rw [readValue?_object hmembers, Members.ofPairs_of_nodup hnodup]

/-- What the grammar tells of a text is what is read. -/
theorem Denotes.isRead (h : Denotes text v) : IsRead text v := by
  induction h with
  | spaced blank _ blank' ih => exact ih.spaced blank blank'
  | null => exact IsRead.of_scalar (by decide) fun _ _ _ _ => rfl
  | bool b => exact isRead_bool b
  | int n => exact isRead_int n
  | str string => exact isRead_str string
  | array _ blank ih => exact isRead_array blank ih
  | object names _ blank distinct ih => exact isRead_object names ih blank distinct

/-- The reader reads documents by the grammar. -/
theorem readsGrammar : ReadsGrammar read? := by
  intro text v h hdepth
  obtain ⟨rest', hread, hskip⟩ := h.isRead (2 * text.length + 2) maxDepth [] (by omega) hdepth .nil
  rw [List.append_nil] at hread
  have hend : skipBlanks rest' = [] := hskip
  rw [read?, String.toList_ofList]
  simp only [hread, hend, Option.bind_eq_bind, Option.bind_some, List.isEmpty_nil, if_true]

end DocPath.Json
