import DocPath.Proofs.Value.Deletion

/-!
# Pruning

A document without the children for which a test holds, where each child is tested after it
has been pruned itself. A deletion of all that passes the test is the same as long as the
outcome of the test does not depend on what is pruned.
-/

namespace DocPath.Value

mutual

/-- The document without the children that pass the test, from the inside out. -/
def prune (gone : Value → Bool) : Value → Value
  | .array items => .array (pruneItems gone items)
  | .object ms => .object (pruneMembers gone ms)
  | v => v

def pruneItems (gone : Value → Bool) : List Value → List Value
  | [] => []
  | v :: vs =>
    if gone (v.prune gone) then pruneItems gone vs else v.prune gone :: pruneItems gone vs

def pruneMembers (gone : Value → Bool) : List (String × Value) → List (String × Value)
  | [] => []
  | (k, v) :: ms =>
    if gone (v.prune gone) then pruneMembers gone ms
    else (k, v.prune gone) :: pruneMembers gone ms

end

def remains (gone : Value → Bool) (c : Value) : Option Value :=
  if gone (c.prune gone) then none else some (c.prune gone)

variable {v : Value} {gone : Value → Bool}

theorem pruneItems_eq (gone : Value → Bool) (items : List Value) :
    pruneItems gone items = items.filterMap (remains gone) := by
  induction items with
  | nil => rfl
  | cons v vs ih => by_cases h : gone (v.prune gone) <;> simp [pruneItems, remains, h, ih]

theorem pruneMembers_eq (gone : Value → Bool) (ms : Members) :
    pruneMembers gone ms = ms.filterMap fun m => (remains gone m.2).map (m.1, ·) := by
  induction ms with
  | nil => rfl
  | cons m ms ih => by_cases h : gone (m.2.prune gone) <;> simp [pruneMembers, remains, h, ih]

/-- To prune is to revise the children. -/
theorem prune_eq (gone : Value → Bool) (v : Value) :
    v.prune gone = v.revise fun _ c => remains gone c := by
  cases v with
  | array items =>
    have h := List.filterMap_map (f := fun p : Value × Nat => p.1) (g := remains gone)
      (l := items.zipIdx)
    rw [List.zipIdx_map_fst] at h
    rw [prune, pruneItems_eq, revise, h]
    rfl
  | object ms => rw [prune, pruneMembers_eq, revise]
  | _ => rfl

theorem prune_of_not_isContainer (h : v.isContainer = false) : v.prune gone = v := by
  cases v with
  | array items | object ms => cases h
  | _ => rfl

theorem Plain.prune (hv : v.Plain) (gone : Value → Bool) : (v.prune gone).Plain := by
  induction v using childrenInduction with
  | step v ih =>
    rw [prune_eq]
    refine hv.revise fun e he w hw => ?_
    have hc := mem_children_of_mem_entries he
    unfold remains at hw
    split at hw
    · cases hw
    · cases hw
      exact ih e.2 hc (formed_of_mem_children hv hc)

/-- The locations below the document where the test holds. -/
def passing (gone : Value → Bool) (v : Value) (l : Location) : Bool :=
  decide (l ≠ []) && (v.pointer? l).any gone

theorem passing_iff {l : Location} :
    passing gone v l ↔ l ≠ [] ∧ ∃ c, v.pointer? l = some c ∧ gone c := by
  simp [passing, Option.any_eq_true]

/-- The test has the same outcome after pruning, wherever no container around has passed it. -/
def Steadfast (gone : Value → Bool) (v : Value) : Prop :=
  ∀ l c, l ≠ [] → v.pointer? l = some c → (∀ m, m <+: l → m ≠ l → passing gone v m = false) →
    gone (c.prune gone) = gone c

theorem passing_singleton {s : Step} {c : Value} (h : v.step? s = some c) :
    passing gone v [s] = gone c := by
  simp [passing, pointer?, h]

theorem passing_cons {s t : Step} {l : Location} {c : Value} (h : v.step? s = some c) :
    passing gone v (s :: t :: l) = passing gone c (t :: l) := by
  simp [passing, pointer?, h]

/-- A test is steadfast when it is for each child and, where the child does not pass it, also
inside that child. -/
theorem steadfast_iff (hv : v.Plain) : Steadfast gone v ↔ ∀ e ∈ v.entries,
    gone (e.2.prune gone) = gone e.2 ∧ (gone e.2 = false → Steadfast gone e.2) := by
  obtain ⟨hk, hn, -⟩ := formed_iff.mp hv
  constructor
  · intro h e he
    have hstep : v.step? e.1 = some e.2 := step?_of_mem_entries hn he
    have behind : ∀ {l b}, e.2.pointer? l = some b → v.pointer? (e.1 :: l) = some b := by
      intro l b hb
      rw [pointer?, hstep, Option.bind_some, hb]
    constructor
    · refine h [e.1] e.2 (List.cons_ne_nil _ _) (behind rfl) fun m hm hne => ?_
      cases m with
      | nil => rfl
      | cons u m =>
        obtain ⟨rfl, htail⟩ := List.cons_prefix_cons.mp hm
        exact absurd (congrArg (e.1 :: ·) (List.prefix_nil.mp htail)) hne
    · intro hgone l b hl hb habove
      refine h (e.1 :: l) b (List.cons_ne_nil _ _) (behind hb) fun m hm hne => ?_
      cases m with
      | nil => rfl
      | cons u m =>
        obtain ⟨rfl, htail⟩ := List.cons_prefix_cons.mp hm
        cases m with
        | nil => rw [passing_singleton hstep, hgone]
        | cons t m =>
          rw [passing_cons hstep]
          exact habove (t :: m) htail fun heq => hne (congrArg _ heq)
  · intro h l c hl hc habove
    cases l with
    | nil => exact absurd rfl hl
    | cons s l =>
      obtain ⟨b, hstep, hb⟩ := Option.bind_eq_some_iff.mp hc
      obtain ⟨hsame, hinside⟩ := h (s, b) (mem_entries_of_step? hk hstep)
      cases l with
      | nil =>
        obtain rfl : b = c := Option.some.inj hb
        exact hsame
      | cons u l =>
        have hpass := habove [s] (List.cons_prefix_cons.mpr ⟨rfl, List.nil_prefix⟩) (by simp)
        rw [passing_singleton hstep] at hpass
        refine hinside hpass (u :: l) c (List.cons_ne_nil u l) hb fun m hm hne => ?_
        cases m with
        | nil => rfl
        | cons t m =>
          rw [← passing_cons hstep]
          exact habove (s :: t :: m) (List.cons_prefix_cons.mpr ⟨rfl, hm⟩) (by simpa using hne)

/-- Pruning deletes what passes the test, if the test is steadfast. -/
theorem prune_eq_deleteWhere (hv : v.Plain) (h : Steadfast gone v) :
    v.prune gone = v.deleteWhere (passing gone v) := by
  induction v using childrenInduction with
  | step v ih =>
    obtain ⟨-, hn, -⟩ := formed_iff.mp hv
    rw [prune_eq, deleteWhere_eq]
    refine revise_congr fun e he => ?_
    have hstep : v.step? e.1 = some e.2 := step?_of_mem_entries hn he
    have hc := mem_children_of_mem_entries he
    obtain ⟨hsame, hinside⟩ := (steadfast_iff hv).mp h e he
    rw [remains, spare, passing_singleton hstep, hsame]
    cases hgone : gone e.2 with
    | true => rfl
    | false =>
      have hrest := ih e.2 hc (formed_of_mem_children hv hc) (hinside hgone)
      have below : e.2.deleteWhere (passing gone e.2) =
          e.2.deleteWhere fun l => passing gone v (e.1 :: l) :=
        deleteWhere_congr (fun t l => (passing_cons hstep).symm) e.2
      rw [hrest, below]

end DocPath.Value
