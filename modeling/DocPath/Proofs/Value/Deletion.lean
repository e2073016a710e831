import DocPath.Proofs.Value.Revision

/-!
# Deleting locations

What a document is without some of its locations, all taken at once and all meant in the
document as it was. Members keep their order, and elements move up behind those that are
gone.
-/

namespace DocPath.Value

mutual

def deleteWhere (gone : Location → Bool) : Value → Value
  | .array items => .array (deleteItems gone 0 items)
  | .object ms => .object (deleteMembers gone ms)
  | v => v

/-- The elements that stay, the first of which stands at position `i`. -/
def deleteItems (gone : Location → Bool) (i : Nat) : List Value → List Value
  | [] => []
  | v :: vs =>
    if gone [.index i] then deleteItems gone (i + 1) vs
    else v.deleteWhere (fun l => gone (.index i :: l)) :: deleteItems gone (i + 1) vs

def deleteMembers (gone : Location → Bool) : List (String × Value) → List (String × Value)
  | [] => []
  | (k, v) :: ms =>
    if gone [.key k] then deleteMembers gone ms
    else (k, v.deleteWhere fun l => gone (.key k :: l)) :: deleteMembers gone ms

end

def spare (gone : Location → Bool) (s : Step) (c : Value) : Option Value :=
  if gone [s] then none else some (c.deleteWhere fun l => gone (s :: l))

variable {v : Value} {gone early late : Location → Bool}

theorem deleteItems_eq (gone : Location → Bool) (i : Nat) (items : List Value) :
    deleteItems gone i items =
      (items.zipIdx i).filterMap fun p => spare gone (.index p.2) p.1 := by
  induction items generalizing i with
  | nil => rfl
  | cons v vs ih => by_cases h : gone [.index i] <;> simp [deleteItems, spare, h, ih]

theorem deleteMembers_eq (gone : Location → Bool) (ms : Members) :
    deleteMembers gone ms = ms.filterMap fun m => (spare gone (.key m.1) m.2).map (m.1, ·) := by
  induction ms with
  | nil => rfl
  | cons m ms ih => by_cases h : gone [.key m.1] <;> simp [deleteMembers, spare, h, ih]

/-- A deletion is a revision in which the children that stay lose what lies in them. -/
theorem deleteWhere_eq (gone : Location → Bool) (v : Value) :
    v.deleteWhere gone = v.revise (spare gone) := by
  cases v with
  | array items => rw [deleteWhere, deleteItems_eq, revise]
  | object ms => rw [deleteWhere, deleteMembers_eq, revise]
  | _ => rfl

/-- Where no child itself goes, all children stay in their places. -/
theorem deleteWhere_eq_reviseAll (h : ∀ s, gone [s] = false) (v : Value) :
    v.deleteWhere gone = v.reviseAll fun s c => c.deleteWhere fun l => gone (s :: l) := by
  rw [deleteWhere_eq, reviseAll]
  exact revise_congr fun e _ => by simp [spare, h]

theorem deleteWhere_congr {gone' : Location → Bool} (h : ∀ s l, gone (s :: l) = gone' (s :: l))
    (v : Value) : v.deleteWhere gone = v.deleteWhere gone' := by
  have same : spare gone = spare gone' := by
    funext s c
    simp only [spare, h]
  rw [deleteWhere_eq, deleteWhere_eq, same]

theorem deleteWhere_none (v : Value) : (v.deleteWhere fun _ => false) = v := by
  induction v using childrenInduction with
  | step v ih =>
    rw [deleteWhere_eq_reviseAll fun _ => rfl]
    conv_rhs => rw [← reviseAll_id v]
    exact reviseAll_congr fun e he => ih e.2 (mem_children_of_mem_entries he)

/-- No document has a child at the location of the document itself. -/
theorem deleteWhere_eq_self (h : ∀ l, gone l → l = []) (v : Value) : v.deleteWhere gone = v := by
  conv_rhs => rw [← deleteWhere_none v]
  refine deleteWhere_congr (fun s l => ?_) v
  by_contra hne
  cases h (s :: l) (by simpa using hne)

theorem Plain.deleteWhere (hv : v.Plain) (gone : Location → Bool) :
    (v.deleteWhere gone).Plain := by
  induction v using childrenInduction generalizing gone with
  | step v ih =>
    rw [deleteWhere_eq]
    refine hv.revise fun e he w hw => ?_
    have hc := mem_children_of_mem_entries he
    unfold spare at hw
    split at hw
    · cases hw
    · cases hw
      exact ih e.2 hc (formed_of_mem_children hv hc) _

/-- Deletions of deep locations first and of higher ones after them delete both together: the
deep ones shift nothing that leads to the higher ones. -/
theorem deleteWhere_deleteWhere {k : Nat} (hlate : ∀ l, late l → l.length ≤ k)
    (hearly : ∀ l, early l → k < l.length) (v : Value) :
    (v.deleteWhere early).deleteWhere late = v.deleteWhere fun l => early l || late l := by
  induction v using childrenInduction generalizing early late k with
  | step v ih =>
    cases k with
    | zero =>
      have nothing : ∀ l, late l → l = [] := fun l hl => List.eq_nil_of_length_eq_zero
        (Nat.le_zero.mp (hlate l hl))
      rw [deleteWhere_eq_self nothing]
      refine deleteWhere_congr (fun s l => ?_) v
      have hlate : late (s :: l) = false := by
        by_contra hne
        cases nothing (s :: l) (by simpa using hne)
      rw [hlate, Bool.or_false]
    | succ k =>
      have stays : ∀ s, early [s] = false := by
        intro s
        by_contra hne
        have := hearly [s] (by simpa using hne)
        simp at this
      rw [deleteWhere_eq_reviseAll stays, deleteWhere_eq, reviseAll_revise, deleteWhere_eq]
      refine revise_congr fun e he => ?_
      simp only [spare, stays, Bool.false_or]
      split
      · rfl
      · congr 1
        refine ih e.2 (mem_children_of_mem_entries he) (k := k) (fun l hl => ?_) fun l hl => ?_
        · exact Nat.le_of_succ_le_succ (hlate _ hl)
        · exact Nat.lt_of_succ_lt_succ (hearly _ hl)

/-- Deleting in one node is an exchange of that node. -/
theorem put?_deleteWhere {d : Value} {l m : Location} (hd : d.Plain) (h : d.pointer? l = some v)
    (hm : m ≠ []) :
    d.put? l (v.deleteWhere fun k => decide (k = m)) =
      some (d.deleteWhere fun k => decide (k = l ++ m)) := by
  induction l generalizing d with
  | nil =>
    cases h
    rfl
  | cons s l ih =>
    obtain ⟨hk, hn, -⟩ := formed_iff.mp hd
    obtain ⟨c, hc, hv⟩ := Option.bind_eq_some_iff.mp h
    obtain ⟨d', hd'⟩ := exists_putStep? hc (c.deleteWhere fun k => decide (k = l ++ m))
    have deep : ∀ t, decide ([t] = s :: (l ++ m)) = false := by
      intro t
      simp [hm]
    have all : d.deleteWhere (fun k => decide (k = s :: (l ++ m))) =
        d.reviseAll fun t c => c.deleteWhere fun k => decide (t :: k = s :: (l ++ m)) :=
      deleteWhere_eq_reviseAll deep d
    rw [List.cons_append, all, put?_cons, hc, Option.bind_some, ih (formed_step? hd hc) hv,
      Option.bind_some, hd', putStep?_eq_reviseAll hk hn hd', Option.some.injEq]
    refine reviseAll_congr fun e he => ?_
    by_cases hs : e.1 = s
    · have hchild : e.2 = c := by
        rw [← hs, step?_of_mem_entries hn he] at hc
        exact Option.some.inj hc
      simp [hs, hchild]
    · simp [hs, deleteWhere_none]

end DocPath.Value
