import DocPath.Json.Printer
import DocPath.Proofs.Value.Equality
import Mathlib.Data.List.Forall2

/-!
# Documents read as records

A record finds its fields by name up to the case of ASCII letters, so it can answer a lookup that
a plain object does not. Where neither the fields nor the names asked for have capitals there is
no difference left: the record of a document has the same children, finds the same members, is
equal to the same documents and has the same text.
-/

namespace DocPath

section lists

variable {α β γ δ : Type} {R : α → β → Prop} {P : γ → δ → Prop} {xs : List α} {ys : List β}

theorem rel_getElem? (h : List.Forall₂ R xs ys) (i : Nat) : Option.Rel R xs[i]? ys[i]? := by
  induction h generalizing i with
  | nil => exact .none
  | cons hhead htail ih =>
    cases i with
    | zero => exact .some hhead
    | succ i => exact ih i

theorem rel_flatMap_of_mem {f : α → List γ} {g : β → List δ} (h : List.Forall₂ R xs ys)
    (each : ∀ y ∈ ys, ∀ {x : α}, R x y → List.Forall₂ P (f x) (g y)) :
    List.Forall₂ P (xs.flatMap f) (ys.flatMap g) := by
  induction h with
  | nil => exact .nil
  | cons hhead htail ih =>
    refine List.rel_append (each _ List.mem_cons_self hhead) (ih fun y hy => ?_)
    exact each y (List.mem_cons_of_mem _ hy)

end lists

def isLowerCased (name : String) : Bool := name.toList.all fun c => !c.isUpper

variable {key name : String}

theorem map_toLower_of_isLowerCased (h : isLowerCased name) :
    name.toList.map Char.toLower = name.toList := by
  refine (List.map_congr_left fun c hc => ?_).trans (List.map_id _)
  have hc : c.isUpper = false := by simpa using List.all_eq_true.mp h c hc
  exact dif_neg (of_decide_eq_false hc)

theorem sameNameIgnoringCase_iff (hkey : isLowerCased key) (hname : isLowerCased name) :
    sameNameIgnoringCase name key ↔ name = key := by
  rw [sameNameIgnoringCase, map_toLower_of_isLowerCased hkey, map_toLower_of_isLowerCased hname,
    beq_iff_eq, String.toList_inj]

/-- Among fields without capitals a record finds a name without capitals only where it stands. -/
theorem KeyedKind.record_resolve? {ms : Members} (hkey : isLowerCased key)
    (hms : ∀ m ∈ ms, isLowerCased m.1) :
    record.resolve? ms key = table.resolve? ms key := by
  by_cases hmem : key ∈ ms.map (·.1)
  · rw [resolve?_of_mem record hmem, resolve?_of_mem table hmem]
  · have hany : ms.any (·.1 == key) = false :=
      Bool.eq_false_iff.mpr (mt Members.any_name_iff.mp hmem)
    have hfind : (ms.find? fun m => sameNameIgnoringCase m.1 key) = none := by
      refine List.find?_eq_none.mpr fun m hm hsame => hmem ?_
      rw [← (sameNameIgnoringCase_iff hkey (hms m hm)).mp hsame]
      exact List.mem_map_of_mem hm
    simp [resolve?, hany, hfind]

namespace Value

def LowerCased (v : Value) : Prop := v.all fun w => w.names.all isLowerCased

instance (v : Value) : Decidable v.LowerCased := inferInstanceAs (Decidable (_ = true))

variable {r d r' d' v c : Value} {rs ds : List Value}

theorem lowerCased_iff :
    v.LowerCased ↔ (∀ name ∈ v.names, isLowerCased name) ∧ ∀ c ∈ v.children, c.LowerCased := by
  unfold LowerCased
  rw [all_iff, List.all_eq_true]

/-- `r` is a plain document without capitals in its names, read as a record. -/
structure Mirrors (r d : Value) : Prop where
  plain : d.Plain
  lowerCased : d.LowerCased
  eq : r = d.toRecords

theorem Mirrors.child (h : r.Mirrors d) (hc : c ∈ d.children) : c.toRecords.Mirrors c where
  plain := formed_of_mem_children h.plain hc
  lowerCased := (lowerCased_iff.mp h.lowerCased).2 c hc
  eq := rfl

/-- The ways in which a record can stand for a plain document. -/
inductive Reads : Value → Value → Prop where
  | scalar {v : Value} (kind : v.kind = .scalar) : Reads v v
  | array {rs ds : List Value} (items : List.Forall₂ Mirrors rs ds) :
    Reads (.array rs) (.array ds)
  | record {ms : Members} (names : ∀ m ∈ ms, isLowerCased m.1)
    (values : ∀ m ∈ ms, m.2.toRecords.Mirrors m.2) :
    Reads (.keyed .record (ms.map fun m => (m.1, m.2.toRecords))) (.object ms)

theorem Mirrors.reads (h : r.Mirrors d) : Reads r d := by
  obtain rfl := h.eq
  obtain ⟨hkind, -, -⟩ := formed_iff.mp h.plain
  cases d with
  | array items =>
    rw [toRecords, toRecordsItems_eq]
    refine .array (List.forall₂_map_left_iff.mpr (List.forall₂_same.mpr fun c hc => ?_))
    exact h.child hc
  | object ms =>
    rw [toRecords, toRecordsMembers_eq]
    refine .record (fun m hm => ?_) fun m hm => h.child (List.mem_map_of_mem hm)
    exact (lowerCased_iff.mp h.lowerCased).1 m.1 (List.mem_map_of_mem hm)
  | keyed kind ms => cases hkind
  | slots refused items => cases hkind
  | _ => exact .scalar rfl

theorem Mirrors.isContainer_eq (h : r.Mirrors d) : r.isContainer = d.isContainer := by
  cases h.reads <;> rfl

theorem Mirrors.isOrdered_eq (h : r.Mirrors d) : r.isOrdered = d.isOrdered := by
  cases h.reads <;> rfl

theorem Mirrors.containerLen?_eq (h : r.Mirrors d) : r.containerLen? = d.containerLen? := by
  cases h.reads with
  | scalar => rfl
  | array items => exact congrArg some items.length_eq
  | record => exact congrArg some (List.length_map _)

theorem Mirrors.children (h : r.Mirrors d) :
    List.Forall₂ Mirrors r.children d.children := by
  cases h.reads with
  | scalar hkind => cases r <;> first | exact .nil | cases hkind
  | array items => exact items
  | @record ms hnames hvalues =>
    rw [Value.children, Value.children, List.map_map, List.forall₂_map_left_iff,
      List.forall₂_map_right_iff]
    exact List.forall₂_same.mpr hvalues

theorem lookup_map_toRecords (ms : Members) (key : String) :
    (ms.map fun m => (m.1, m.2.toRecords)).lookup key = (ms.lookup key).map toRecords := by
  induction ms with
  | nil => rfl
  | cons m ms ih =>
    rw [List.map_cons, List.lookup_cons, List.lookup_cons, ih]
    split <;> rfl

theorem Mirrors.getKey? (h : r.Mirrors d) (hkey : isLowerCased key) :
    Option.Rel Mirrors (r.getKey? key) (d.getKey? key) := by
  cases h.reads with
  | scalar hkind => cases r <;> first | exact .none | cases hkind
  | array items => exact .none
  | @record ms hnames hvalues =>
    have fields : ∀ m ∈ ms.map fun m => (m.1, m.2.toRecords), isLowerCased m.1 := by
      rintro m hm
      obtain ⟨n, hn, rfl⟩ := List.mem_map.mp hm
      exact hnames n hn
    have asObject : (keyed .record (ms.map fun m => (m.1, m.2.toRecords))).getKey? key =
        (ms.lookup key).map toRecords := by
      rw [Value.getKey?, KeyedKind.record_resolve? hkey fields, ← lookup_map_toRecords]
      exact congrFun (getKey?_table _) key
    rw [asObject, Value.getKey?]
    cases hlookup : ms.lookup key with
    | none => exact .none
    | some c => exact .some (hvalues _ (Members.mem_of_lookup_eq_some hlookup))

theorem Mirrors.getIndex? (h : r.Mirrors d) (i : Int64) :
    Option.Rel Mirrors (r.getIndex? i) (d.getIndex? i) := by
  cases h.reads with
  | scalar hkind => cases r <;> first | exact .none | cases hkind
  | record => exact .none
  | array items =>
    rw [Value.getIndex?, Value.getIndex?, items.length_eq]
    cases normalizeIndex i _ with
    | none => exact .none
    | some n => exact rel_getElem? items n

theorem Mirrors.step?_index (h : r.Mirrors d) (i : Nat) :
    Option.Rel Mirrors (r.step? (.index i)) (d.step? (.index i)) := by
  cases h.reads with
  | scalar hkind => cases r <;> first | exact .none | cases hkind
  | record => exact .none
  | array items => exact rel_getElem? items i

theorem Mirrors.subtree (h : r.Mirrors d) : List.Forall₂ Mirrors r.subtree d.subtree := by
  induction d using childrenInduction generalizing r with
  | step d ih =>
    rw [subtree_eq, subtree_eq]
    exact .cons h (rel_flatMap_of_mem h.children fun c hc => ih c hc)

theorem beqItems_of_mirrors {rs' ds' : List Value} (h : List.Forall₂ Mirrors rs ds)
    (h' : List.Forall₂ Mirrors rs' ds')
    (same : ∀ d ∈ ds, ∀ {r r' d' : Value}, r.Mirrors d → r'.Mirrors d' → r.beq r' = d.beq d') :
    beqItems rs rs' = beqItems ds ds' := by
  induction h generalizing rs' ds' with
  | nil => cases h' <;> rfl
  | cons hhead htail ih =>
    cases h' with
    | nil => rfl
    | cons hhead' htail' =>
      rw [beqItems, beqItems, same _ List.mem_cons_self hhead hhead',
        ih htail' fun d hd => same d (List.mem_cons_of_mem _ hd)]

theorem exists_some_and_iff {x y : Option Value} {P Q : Value → Prop}
    (h : Option.Rel Mirrors x y) (same : ∀ {r d : Value}, r.Mirrors d → (P r ↔ Q d)) :
    (∃ r, x = some r ∧ P r) ↔ ∃ d, y = some d ∧ Q d := by
  cases h with
  | none => simp
  | some hrd => simpa using same hrd

/-- Records of plain documents are equal exactly when the documents are. -/
theorem Mirrors.beq_eq (h : r.Mirrors d) (h' : r'.Mirrors d') : r.beq r' = d.beq d' := by
  induction d using childrenInduction generalizing r r' d' with
  | step d ih =>
    cases h.reads with
    | scalar hkind =>
      cases h'.reads with
      | scalar => rfl
      | array | record => cases d <;> first | rfl | cases hkind
    | @array rs ds items =>
      cases h'.reads with
      | scalar hkind => cases r' <;> first | rfl | cases hkind
      | array items' => exact beqItems_of_mirrors items items' fun c hc => ih c hc
      | record => rfl
    | @record ms hnames hvalues =>
      cases h'.reads with
      | scalar hkind => cases r' <;> first | rfl | cases hkind
      | array => rfl
      | @record ns =>
        -- the fields are looked up in a record on the one side, in an object on the other
        have counterpart : ∀ m ∈ ms,
            (∃ w, (keyed .record (ns.map fun n => (n.1, n.2.toRecords))).getKey? m.1 = some w ∧
              m.2.toRecords.beq w) ↔ ∃ w, (object ns).getKey? m.1 = some w ∧ m.2.beq w := by
          intro m hm
          refine exists_some_and_iff (h'.getKey? (hnames m hm)) fun hw => ?_
          rw [ih m.2 (List.mem_map_of_mem hm) (hvalues m hm) hw]
        rw [Bool.eq_iff_iff, beq_keyed_iff, beq, Bool.and_eq_true, beq_iff_eq, beqMembers_iff,
          List.length_map, List.length_map, List.forall_mem_map]
        exact and_congr_right fun _ => forall₂_congr counterpart

mutual

/-- A record is written as the object it was read from. -/
theorem write_toRecords (style : Json.Style) (level : Nat) (v : Value) :
    Json.write style level v.toRecords = Json.write style level v := by
  cases v with
  | array items => rw [toRecords, Json.write, Json.write, writeItems_toRecords]
  | object ms => rw [toRecords, Json.write, Json.write, writeMembers_toRecords]
  | _ => rw [toRecords] <;> exact nofun

theorem writeItems_toRecords (style : Json.Style) (level : Nat) (first : Bool)
    (vs : List Value) :
    Json.writeItems style level first (toRecordsItems vs) =
      Json.writeItems style level first vs := by
  match vs with
  | [] => rw [toRecordsItems]
  | v :: vs =>
    rw [toRecordsItems, Json.writeItems, Json.writeItems, write_toRecords, writeItems_toRecords]

theorem writeMembers_toRecords (style : Json.Style) (level : Nat) (first : Bool)
    (ms : Members) :
    Json.writeMembers style level first (toRecordsMembers ms) =
      Json.writeMembers style level first ms := by
  match ms with
  | [] => rw [toRecordsMembers]
  | (k, v) :: ms =>
    rw [toRecordsMembers, Json.writeMembers, Json.writeMembers, write_toRecords,
      writeMembers_toRecords]

end

theorem Mirrors.render_eq (h : r.Mirrors d) (style : Json.Style) :
    Json.render style r = Json.render style d := by
  rw [Json.render, Json.render, h.eq, write_toRecords]

end Value

end DocPath
