import DocPath.Proofs.Decimal.Doubles
import DocPath.Proofs.Value.Formed
import Mathlib.Data.List.Perm.Subperm
import Mathlib.Data.List.Nodup

/-!
# Equality of documents as an equivalence

A keyed container looks its members up by the rule of the other side, so equality can be expected
to be an equivalence only where that rule tells the names of a container apart. Then a lookup is
a one-to-one assignment of members, and two containers of one size assign them both ways. Fields
that differ in case alone break symmetry.
-/

namespace DocPath.KeyedKind

variable {kind : KeyedKind} {ms ns : Members} {key name : String} {v w : Value}

/-- What a lookup distinguishes of a name. -/
def spelling : KeyedKind → String → List Char
  | .table, name => name.toList
  | .record, name => name.toList.map Char.toLower

/-- Lookups tell all members apart. -/
def tellsApart (kind : KeyedKind) (ms : Members) : Bool :=
  decide (ms.map fun m => kind.spelling m.1).Nodup

theorem tellsApart_iff : kind.tellsApart ms ↔ (ms.map fun m => kind.spelling m.1).Nodup :=
  decide_eq_true_iff

theorem names_nodup_of_tellsApart (h : kind.tellsApart ms) : (ms.map (·.1)).Nodup := by
  rw [tellsApart_iff] at h
  refine List.Nodup.of_map kind.spelling ?_
  rwa [List.map_map]

/-- Names looked up as they are written are told apart when they are distinct. -/
theorem table_tellsApart (h : (ms.map (·.1)).Nodup) : table.tellsApart ms := by
  rw [tellsApart_iff]
  have hspell := h.map (f := String.toList) fun _ _ => String.toList_injective
  rwa [List.map_map] at hspell

theorem spelling_of_resolve? (h : kind.resolve? ms key = some name) :
    kind.spelling name = kind.spelling key := by
  cases kind with
  | table =>
    simp only [resolve?] at h
    split at h <;> cases h
    rfl
  | record =>
    simp only [resolve?] at h
    split at h
    · cases h
      rfl
    · obtain ⟨m, hm, rfl⟩ := Option.map_eq_some_iff.mp h
      have hsame := List.find?_some hm
      exact eq_of_beq hsame

theorem resolve?_isSome_of_spelling {m : String × Value} (hm : m ∈ ms)
    (h : kind.spelling m.1 = kind.spelling key) : (kind.resolve? ms key).isSome := by
  cases kind with
  | table =>
    have hname : m.1 = key := String.toList_injective h
    rw [resolve?_of_mem .table (hname ▸ List.mem_map_of_mem hm)]
    rfl
  | record =>
    simp only [resolve?]
    split
    · rfl
    · rw [Option.isSome_map, List.find?_isSome]
      exact ⟨m, hm, beq_iff_eq.mpr h⟩

/-- Where names are told apart, a lookup finds the one member with the spelling of the key. -/
theorem getKey?_eq_some_iff (h : kind.tellsApart ms) :
    (Value.keyed kind ms).getKey? key = some w ↔
      ∃ m ∈ ms, kind.spelling m.1 = kind.spelling key ∧ m.2 = w := by
  have names := names_nodup_of_tellsApart h
  constructor
  · intro hget
    obtain ⟨name, hname, hlookup⟩ := Option.bind_eq_some_iff.mp hget
    exact ⟨(name, w), Members.mem_of_lookup_eq_some hlookup, spelling_of_resolve? hname, rfl⟩
  · rintro ⟨m, hm, hspell, rfl⟩
    obtain ⟨name, hname⟩ := Option.isSome_iff_exists.mp (resolve?_isSome_of_spelling hm hspell)
    obtain ⟨n, hn, rfl⟩ := List.mem_map.mp (mem_of_resolve? hname)
    have hsame : n = m := by
      refine List.inj_on_of_nodup_map (tellsApart_iff.mp h) hn hm ?_
      exact (spelling_of_resolve? hname).trans hspell.symm
    rw [Value.getKey?, hname, Option.bind_some, hsame]
    exact Members.lookup_eq_some_of_mem names hm

/-- If of two containers with as many members one has a counterpart for each member of the other,
then the other has one for each of its own. -/
theorem counterparts_symm (hms : kind.tellsApart ms) (hlen : ns.length ≤ ms.length)
    (h : ∀ m ∈ ms, ∃ n ∈ ns, kind.spelling n.1 = kind.spelling m.1) :
    ∀ n ∈ ns, ∃ m ∈ ms, kind.spelling m.1 = kind.spelling n.1 := by
  have hsub : (ms.map fun m => kind.spelling m.1) ⊆ ns.map fun n => kind.spelling n.1 := by
    intro s hs
    obtain ⟨m, hm, rfl⟩ := List.mem_map.mp hs
    obtain ⟨n, hn, hspell⟩ := h m hm
    exact List.mem_map.mpr ⟨n, hn, hspell⟩
  have hperm := (List.Nodup.subperm (tellsApart_iff.mp hms) hsub).perm_of_length_le (by simpa)
  intro n hn
  obtain ⟨m, hm, hspell⟩ := List.mem_map.mp (hperm.mem_iff.mpr (List.mem_map_of_mem hn))
  exact ⟨m, hm, hspell⟩

end DocPath.KeyedKind

namespace DocPath.Value

variable {kind : KeyedKind} {a b c v w : Value} {vs ws us : List Value} {ms ns : Members}

def NaNFree (v : Value) : Prop :=
  v.all fun
    | .float x => !x.isNaN
    | _ => true

/-- A document whose keyed containers beside plain objects are of one kind, and whose containers
have names that lookups tell apart. -/
def Discerned (kind : KeyedKind) (v : Value) : Prop :=
  v.all fun
    | .object ms => KeyedKind.table.tellsApart ms
    | .keyed own ms => own = kind && kind.tellsApart ms
    | _ => true

instance (v : Value) : Decidable v.NaNFree := inferInstanceAs (Decidable (_ = true))

instance (kind : KeyedKind) (v : Value) : Decidable (v.Discerned kind) :=
  inferInstanceAs (Decidable (_ = true))

theorem NaNFree.child (h : v.NaNFree) (hc : c ∈ v.children) : c.NaNFree :=
  ((all_iff _ v).mp h).2 c hc

theorem Discerned.child (h : v.Discerned kind) (hc : c ∈ v.children) : c.Discerned kind :=
  ((all_iff _ v).mp h).2 c hc

theorem Discerned.wellFormed (h : v.Discerned kind) : v.WellFormed := by
  induction v using childrenInduction with
  | step v ih =>
    refine formed_iff.mpr ⟨rfl, ?_, fun c hc => ih c hc (h.child hc)⟩
    have hv := ((all_iff _ v).mp h).1
    cases v with
    | object ms => exact KeyedKind.names_nodup_of_tellsApart hv
    | keyed own ms =>
      obtain ⟨-, hms⟩ := Bool.and_eq_true_iff.mp hv
      exact KeyedKind.names_nodup_of_tellsApart hms
    | _ => exact List.nodup_nil

/-- Plain documents have no lookups but by exact name. -/
theorem Plain.discerned (h : v.Plain) (kind : KeyedKind) : v.Discerned kind := by
  induction v using childrenInduction with
  | step v ih =>
    obtain ⟨hkind, hnames, hplain⟩ := formed_iff.mp h
    refine (all_iff _ v).mpr ⟨?_, fun c hc => ih c hc (hplain c hc)⟩
    cases v with
    | object ms => exact KeyedKind.table_tellsApart hnames
    | keyed own ms => cases hkind
    | _ => rfl

theorem beqMembers_iff {find : String → Option Value} :
    beqMembers ms find ↔ ∀ m ∈ ms, ∃ w, find m.1 = some w ∧ m.2.beq w := by
  induction ms with
  | nil => simp [beqMembers]
  | cons m ms ih =>
    obtain ⟨k, v⟩ := m
    rw [beqMembers, Bool.and_eq_true, ih, List.forall_mem_cons]
    cases find k <;> simp

theorem beq_keyed_iff {kind' : KeyedKind} :
    (keyed kind ms).beq (keyed kind' ns) ↔ ms.length = ns.length ∧
      ∀ m ∈ ms, ∃ w, (keyed kind' ns).getKey? m.1 = some w ∧ m.2.beq w := by
  rw [beq, Bool.and_eq_true, beq_iff_eq, beqMembers_iff]

/-- A table finds what an object with its members finds. -/
theorem getKey?_table (ms : Members) : getKey? (keyed .table ms) = getKey? (object ms) := by
  funext key
  by_cases hkey : key ∈ ms.map (·.1)
  · simp only [getKey?, KeyedKind.table.resolve?_of_mem hkey, Option.bind_some]
  · have hnone : ms.lookup key = none :=
      Option.not_isSome_iff_eq_none.mp (mt Members.lookup_isSome_iff.mp hkey)
    have hany : ms.any (·.1 == key) = false :=
      Bool.eq_false_iff.mpr (mt Members.any_name_iff.mp hkey)
    simp [getKey?, KeyedKind.resolve?, hnone, hany]

/-- Objects are compared as open tables are. -/
theorem beq_object : (object ms).beq (object ns) = (keyed .table ms).beq (keyed .table ns) := by
  rw [beq, beq, getKey?_table]

theorem beqItems_self (h : ∀ v ∈ vs, v.beq v) : beqItems vs vs := by
  induction vs with
  | nil => rfl
  | cons v vs ih =>
    rw [List.forall_mem_cons] at h
    exact Bool.and_eq_true_iff.mpr ⟨h.1, ih h.2⟩

theorem keyed_beq_self (names : (ms.map (·.1)).Nodup) (h : ∀ v ∈ ms.map (·.2), v.beq v) :
    (keyed kind ms).beq (keyed kind ms) := by
  refine beq_keyed_iff.mpr ⟨rfl, fun m hm => ⟨m.2, ?_, h _ (List.mem_map_of_mem hm)⟩⟩
  rw [getKey?, kind.resolve?_of_mem (List.mem_map_of_mem hm), Option.bind_some]
  exact Members.lookup_eq_some_of_mem names hm

theorem beq_self (hv : v.WellFormed) (hnan : v.NaNFree) : v.beq v := by
  induction v using childrenInduction with
  | step v ih =>
    have children : ∀ c ∈ v.children, c.beq c :=
      fun c hc => ih c hc (formed_of_mem_children hv hc) (hnan.child hc)
    have names := (formed_iff.mp hv).2.1
    cases v with
    | null => rfl
    | float x =>
      have hx := ((all_iff _ _).mp hnan).1
      exact Decimal.double_beq_self (by simpa using hx)
    | bool | int | str => simp [beq]
    | array vs | slots refused vs => exact beqItems_self children
    | object ms => rw [beq_object]; exact keyed_beq_self names children
    | keyed kind ms => exact keyed_beq_self names children

theorem beqItems_symm (ih : ∀ v ∈ vs, ∀ w ∈ ws, v.beq w → w.beq v) (h : beqItems vs ws) :
    beqItems ws vs := by
  induction vs generalizing ws with
  | nil =>
    cases ws with
    | nil => rfl
    | cons w ws => cases h
  | cons v vs hvs =>
    cases ws with
    | nil => cases h
    | cons w ws =>
      obtain ⟨hhead, htail⟩ := Bool.and_eq_true_iff.mp h
      refine Bool.and_eq_true_iff.mpr ⟨ih v List.mem_cons_self w List.mem_cons_self hhead, ?_⟩
      exact hvs (fun x hx y hy => ih x (List.mem_cons_of_mem v hx) y (List.mem_cons_of_mem w hy))
        htail

theorem keyed_beq_symm (hms : kind.tellsApart ms) (hns : kind.tellsApart ns)
    (ih : ∀ v ∈ ms.map (·.2), ∀ w ∈ ns.map (·.2), v.beq w → w.beq v)
    (h : (keyed kind ms).beq (keyed kind ns)) : (keyed kind ns).beq (keyed kind ms) := by
  obtain ⟨hlen, h⟩ := beq_keyed_iff.mp h
  simp only [KeyedKind.getKey?_eq_some_iff hns] at h
  refine beq_keyed_iff.mpr ⟨hlen.symm, fun n hn => ?_⟩
  have counterparts : ∀ m ∈ ms, ∃ n ∈ ns, kind.spelling n.1 = kind.spelling m.1 := by
    intro m hm
    obtain ⟨-, ⟨n, hn, hspell, -⟩, -⟩ := h m hm
    exact ⟨n, hn, hspell⟩
  obtain ⟨m, hm, hspell⟩ :=
    KeyedKind.counterparts_symm hms (Nat.le_of_eq hlen.symm) counterparts n hn
  -- the member found for `m` is `n`, the only one of its spelling
  obtain ⟨w, ⟨n', hn', hspell', rfl⟩, hbeq⟩ := h m hm
  obtain rfl : n' = n := List.inj_on_of_nodup_map (KeyedKind.tellsApart_iff.mp hns) hn' hn
    (hspell'.trans hspell)
  refine ⟨m.2, (KeyedKind.getKey?_eq_some_iff hms).mpr ⟨m, hm, hspell, rfl⟩, ?_⟩
  exact ih _ (List.mem_map_of_mem hm) _ (List.mem_map_of_mem hn) hbeq

theorem beq_symm (ha : a.Discerned kind) (hb : b.Discerned kind) (h : a.beq b) : b.beq a := by
  induction a using childrenInduction generalizing b with
  | step a ih =>
    have children : ∀ v ∈ a.children, ∀ w ∈ b.children, v.beq w → w.beq v :=
      fun v hv w hw => ih v hv (ha.child hv) (hb.child hw)
    have hda := ((all_iff _ a).mp ha).1
    have hdb := ((all_iff _ b).mp hb).1
    cases a with
    | null => cases b <;> first | rfl | cases h
    | bool x | int x | str x => cases b <;> simp_all [beq]
    | float x =>
      cases b with
      | float y => exact Decimal.double_beq_symm h
      | _ => cases h
    | array vs =>
      cases b with
      | array ws => exact beqItems_symm children h
      | _ => cases h
    | slots refused vs =>
      cases b with
      | slots refused ws => exact beqItems_symm children h
      | _ => cases h
    | object ms =>
      cases b with
      | object ns =>
        rw [beq_object] at h ⊢
        exact keyed_beq_symm hda hdb children h
      | _ => cases h
    | keyed own ms =>
      cases b with
      | keyed own' ns =>
        simp only [Bool.and_eq_true, decide_eq_true_eq] at hda hdb
        obtain ⟨rfl, hms⟩ := hda
        obtain ⟨rfl, hns⟩ := hdb
        exact keyed_beq_symm hms hns children h
      | _ => cases h

theorem beqItems_trans (ih : ∀ v ∈ vs, ∀ w ∈ ws, ∀ u ∈ us, v.beq w → w.beq u → v.beq u)
    (h : beqItems vs ws) (h' : beqItems ws us) : beqItems vs us := by
  induction vs generalizing ws us with
  | nil =>
    cases ws with
    | nil => exact h'
    | cons w ws => cases h
  | cons v vs hvs =>
    cases ws with
    | nil => cases h
    | cons w ws =>
      cases us with
      | nil => cases h'
      | cons u us =>
        obtain ⟨hhead, htail⟩ := Bool.and_eq_true_iff.mp h
        obtain ⟨hhead', htail'⟩ := Bool.and_eq_true_iff.mp h'
        simp only [List.forall_mem_cons] at ih
        refine Bool.and_eq_true_iff.mpr ⟨ih.1.1.1 hhead hhead', ?_⟩
        exact hvs (fun x hx y hy => ((ih.2 x hx).2 y hy).2) htail htail'

theorem keyed_beq_trans {own : KeyedKind} {ls : Members} (hns : kind.tellsApart ns)
    (hls : kind.tellsApart ls)
    (ih : ∀ v ∈ ms.map (·.2), ∀ w ∈ ns.map (·.2), ∀ u ∈ ls.map (·.2),
      v.beq w → w.beq u → v.beq u)
    (h : (keyed own ms).beq (keyed kind ns)) (h' : (keyed kind ns).beq (keyed kind ls)) :
    (keyed own ms).beq (keyed kind ls) := by
  obtain ⟨hlen, h⟩ := beq_keyed_iff.mp h
  obtain ⟨hlen', h'⟩ := beq_keyed_iff.mp h'
  simp only [KeyedKind.getKey?_eq_some_iff hns] at h
  simp only [KeyedKind.getKey?_eq_some_iff hls] at h'
  refine beq_keyed_iff.mpr ⟨hlen.trans hlen', fun m hm => ?_⟩
  obtain ⟨_, ⟨n, hn, hspell, rfl⟩, hbeq⟩ := h m hm
  obtain ⟨_, ⟨l, hl, hspell', rfl⟩, hbeq'⟩ := h' n hn
  refine ⟨l.2, (KeyedKind.getKey?_eq_some_iff hls).mpr ⟨l, hl, hspell'.trans hspell, rfl⟩, ?_⟩
  exact ih _ (List.mem_map_of_mem hm) _ (List.mem_map_of_mem hn) _ (List.mem_map_of_mem hl)
    hbeq hbeq'

theorem beq_trans (hb : b.Discerned kind) (hc : c.Discerned kind) (h : a.beq b) (h' : b.beq c) :
    a.beq c := by
  induction a using childrenInduction generalizing b c with
  | step a ih =>
    have children : ∀ v ∈ a.children, ∀ w ∈ b.children, ∀ u ∈ c.children,
        v.beq w → w.beq u → v.beq u :=
      fun v hv w hw u hu => ih v hv (hb.child hw) (hc.child hu)
    have hdb := ((all_iff _ b).mp hb).1
    have hdc := ((all_iff _ c).mp hc).1
    cases a with
    | null => cases b <;> first | exact h' | cases h
    | bool x | int x | str x =>
      cases b <;> first | (obtain rfl := eq_of_beq h; exact h') | cases h
    | float x =>
      cases b with
      | float y =>
        cases c with
        | float z => exact Decimal.double_beq_trans h h'
        | _ => cases h'
      | _ => cases h
    | array vs =>
      cases b with
      | array ws =>
        cases c with
        | array us => exact beqItems_trans children h h'
        | _ => cases h'
      | _ => cases h
    | slots refused vs =>
      cases b with
      | slots refused ws =>
        cases c with
        | slots refused us => exact beqItems_trans children h h'
        | _ => cases h'
      | _ => cases h
    | object ms =>
      cases b with
      | object ns =>
        cases c with
        | object ls =>
          rw [beq_object] at h h' ⊢
          exact keyed_beq_trans hdb hdc children h h'
        | _ => cases h'
      | _ => cases h
    | keyed own ms =>
      cases b with
      | keyed own' ns =>
        cases c with
        | keyed own'' ls =>
          simp only [Bool.and_eq_true, decide_eq_true_eq] at hdb hdc
          obtain ⟨rfl, hns⟩ := hdb
          obtain ⟨rfl, hls⟩ := hdc
          exact keyed_beq_trans hns hls children h h'
        | _ => cases h'
      | _ => cases h

/-- Every document without not-a-number equals itself. On documents whose keyed containers are of
one kind, and have names that its lookups tell apart, equality is an equivalence. -/
theorem beq_equivalence (kind : KeyedKind) :
    (∀ v : Value, v.WellFormed → v.NaNFree → v == v) ∧
      (∀ a b : Value, a.Discerned kind → b.Discerned kind → a == b → b == a) ∧
      ∀ a b c : Value, b.Discerned kind → c.Discerned kind → a == b → b == c → a == c :=
  ⟨fun _ hv hnan => beq_self hv hnan, fun _ _ => beq_symm, fun _ _ _ => beq_trans⟩

/-- Records whose fields differ in case and order, with floats and a record inside. -/
theorem beq_equivalence_of_records :
    let inner := Value.keyed .record [("X", .null)]
    let a := Value.keyed .record [("A", .array [.float 1.5, inner]), ("b", .int 2)]
    let b := Value.keyed .record [("B", .int 2), ("a", .array [.float 1.5, inner])]
    let c := Value.keyed .record
      [("b", .int 2), ("a", .array [.float 1.5, .keyed .record [("x", .null)]])]
    (a.WellFormed ∧ a.NaNFree) ∧ (∀ v ∈ [a, b, c], v.Discerned .record) ∧ (a == b) ∧ (b == c) ∧
      (a == a) ∧ (b == a) ∧ (a == c) := by
  intro inner a b c
  have hself : a.WellFormed ∧ a.NaNFree := by decide
  have hdiscerned : ∀ v ∈ [a, b, c], v.Discerned .record := by decide
  obtain ⟨ha, hb, hc⟩ : a.Discerned .record ∧ b.Discerned .record ∧ c.Discerned .record := by
    simpa using hdiscerned
  have hab : a == b := by decide
  have hbc : b == c := by decide
  obtain ⟨hrefl, hsymm, htrans⟩ := beq_equivalence .record
  exact ⟨hself, hdiscerned, hab, hbc, hrefl a hself.1 hself.2, hsymm a b ha hb hab,
    htrans a b c hb hc hab hbc⟩

/-- A record whose two fields are one to the lookups of another record equals it, and not the
other way round. -/
theorem beq_not_symm_of_colliding_fields :
    let a := Value.keyed .record [("A", .int 1), ("a", .int 1)]
    let b := Value.keyed .record [("a", .int 1), ("b", .int 2)]
    a.WellFormed ∧ a.NaNFree ∧ b.WellFormed ∧ b.NaNFree ∧ (a == b) ∧ ¬(b == a) :=
  ⟨by decide, by decide, by decide, by decide, by decide, by decide⟩

end DocPath.Value
