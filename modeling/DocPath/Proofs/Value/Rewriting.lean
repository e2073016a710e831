import DocPath.Proofs.Value.Revision

/-!
# Rewriting locations

What a document becomes when the values at some of its locations are rewritten, inner ones
before those around them. All locations are meant in the document as it was; a value that
takes the place of another may be anything.
-/

namespace DocPath.Value

/-- What takes the place of a value if the rewriting is asked about it. Where that has no
answer, the value stays. -/
def answered (f : Value → Option Value) (asked : Bool) (v : Value) : Value :=
  if asked then (f v).getD v else v

mutual

/-- The value, after the locations given have been rewritten as far as they lie below it. -/
def rewriteBelow (f : Value → Option Value) (asked : Location → Bool) : Value → Value
  | .array items => .array (rewriteItems f asked 0 items)
  | .object ms => .object (rewriteMembers f asked ms)
  | v => v

/-- The elements after a rewriting, the first of which stands at position `i`. -/
def rewriteItems (f : Value → Option Value) (asked : Location → Bool) (i : Nat) :
    List Value → List Value
  | [] => []
  | v :: vs =>
    answered f (asked [.index i]) (v.rewriteBelow f fun l => asked (.index i :: l)) ::
      rewriteItems f asked (i + 1) vs

def rewriteMembers (f : Value → Option Value) (asked : Location → Bool) :
    List (String × Value) → List (String × Value)
  | [] => []
  | (k, v) :: ms =>
    (k, answered f (asked [.key k]) (v.rewriteBelow f fun l => asked (.key k :: l))) ::
      rewriteMembers f asked ms

end

/-- The document after the values at the given locations have been rewritten, each when all
below it had been. -/
def rewriteWhere (f : Value → Option Value) (asked : Location → Bool) (v : Value) : Value :=
  answered f (asked []) (v.rewriteBelow f asked)

variable {f : Value → Option Value} {asked early late : Location → Bool} {u v : Value}
  {l : Location}

theorem rewriteItems_eq (f : Value → Option Value) (asked : Location → Bool) (i : Nat)
    (items : List Value) :
    rewriteItems f asked i items = (items.zipIdx i).map fun p =>
      p.1.rewriteWhere f fun l => asked (.index p.2 :: l) := by
  induction items generalizing i with
  | nil => rfl
  | cons v vs ih =>
    rw [rewriteItems, ih]
    rfl

theorem rewriteMembers_eq (f : Value → Option Value) (asked : Location → Bool) (ms : Members) :
    rewriteMembers f asked ms =
      ms.map fun m => (m.1, m.2.rewriteWhere f fun l => asked (.key m.1 :: l)) := by
  induction ms with
  | nil => rfl
  | cons m ms ih =>
    rw [rewriteMembers, ih]
    rfl

/-- To rewrite below a value is to rewrite its children, which all stay in their places. -/
theorem rewriteBelow_eq (f : Value → Option Value) (asked : Location → Bool) (v : Value) :
    v.rewriteBelow f asked = v.reviseAll fun s c => c.rewriteWhere f fun l => asked (s :: l) := by
  cases v with
  | array items => rw [rewriteBelow, rewriteItems_eq, reviseAll_array]
  | object ms => rw [rewriteBelow, rewriteMembers_eq, reviseAll_object]
  | _ => rfl

theorem rewriteWhere_of_not (h : asked [] = false) (v : Value) :
    v.rewriteWhere f asked = v.rewriteBelow f asked := by
  rw [rewriteWhere, h]
  rfl

theorem rewriteBelow_congr {asked' : Location → Bool}
    (h : ∀ s l, asked (s :: l) = asked' (s :: l)) (v : Value) :
    v.rewriteBelow f asked = v.rewriteBelow f asked' := by
  rw [rewriteBelow_eq, rewriteBelow_eq]
  refine reviseAll_congr fun e _ => ?_
  have same : (fun l => asked (e.1 :: l)) = fun l => asked' (e.1 :: l) := funext (h e.1)
  rw [same]

theorem rewriteWhere_none (f : Value → Option Value) (v : Value) :
    (v.rewriteWhere f fun _ => false) = v := by
  induction v using childrenInduction with
  | step v ih =>
    rw [rewriteWhere_of_not rfl, rewriteBelow_eq]
    conv_rhs => rw [← reviseAll_id v]
    exact reviseAll_congr fun e he => ih e.2 (mem_children_of_mem_entries he)

/-- Nothing changes below a value when nothing is asked about there. -/
theorem rewriteBelow_eq_self (h : ∀ l, asked l → l = []) (v : Value) :
    v.rewriteBelow f asked = v := by
  conv_rhs => rw [← rewriteWhere_none f v, rewriteWhere_of_not rfl]
  refine rewriteBelow_congr (fun s l => ?_) v
  by_contra hne
  cases h (s :: l) (by simpa using hne)

/-- When deep locations are rewritten first and higher ones after them, all are rewritten from
the inside out. -/
theorem rewriteWhere_rewriteWhere {k : Nat} (hlate : ∀ l, late l → l.length ≤ k)
    (hearly : ∀ l, early l → k < l.length) (v : Value) :
    (v.rewriteWhere f early).rewriteWhere f late =
      v.rewriteWhere f fun l => early l || late l := by
  induction v using childrenInduction generalizing early late k with
  | step v ih =>
    have here : early [] = false := by
      by_contra hne
      have := hearly [] (by simpa using hne)
      simp at this
    rw [rewriteWhere_of_not here]
    simp only [rewriteWhere, here, Bool.false_or]
    congr 1
    cases k with
    | zero =>
      have nothing : ∀ l, late l → l = [] := fun l hl =>
        List.eq_nil_of_length_eq_zero (Nat.le_zero.mp (hlate l hl))
      rw [rewriteBelow_eq_self nothing]
      refine rewriteBelow_congr (fun s l => ?_) v
      have hlate : late (s :: l) = false := by
        by_contra hne
        cases nothing (s :: l) (by simpa using hne)
      rw [hlate, Bool.or_false]
    | succ k =>
      rw [rewriteBelow_eq, rewriteBelow_eq, rewriteBelow_eq, reviseAll_reviseAll]
      refine reviseAll_congr fun e he => ?_
      refine ih e.2 (mem_children_of_mem_entries he) (k := k) (fun l hl => ?_) fun l hl => ?_
      · exact Nat.le_of_succ_le_succ (hlate _ hl)
      · exact Nat.lt_of_succ_lt_succ (hearly _ hl)

/-- A value stands where it stood, rewritten, unless it lies inside another one that the
rewriting was asked about. -/
theorem pointer?_rewriteWhere (hv : v.Plain) (h : v.pointer? l = some u)
    (hasked : ∀ m, m <+: l → m ≠ l → asked m = false) :
    (v.rewriteWhere f asked).pointer? l = some (u.rewriteWhere f fun m => asked (l ++ m)) := by
  induction l generalizing v asked with
  | nil =>
    cases h
    rfl
  | cons s l ih =>
    have here : asked [] = false := hasked [] List.nil_prefix nofun
    obtain ⟨c, hc, hu⟩ := Option.bind_eq_some_iff.mp h
    have hk := (formed_iff.mp hv).1
    have below : (c.rewriteWhere f fun m => asked (s :: m)).pointer? l =
        some (u.rewriteWhere f fun m => asked (s :: (l ++ m))) := by
      refine ih (formed_step? hv hc) hu fun m hm hne => ?_
      exact hasked (s :: m) (List.prefix_cons_inj s |>.mpr hm) (by simpa using hne)
    rw [rewriteWhere_of_not here, rewriteBelow_eq, pointer?, step?_reviseAll hk, hc]
    exact below

/-- To rewrite below a value is not to rewrite the value. -/
theorem rewriteBelow_kind (f : Value → Option Value) (asked : Location → Bool) (v : Value) :
    (v.rewriteBelow f asked).kind = v.kind := by
  rw [rewriteBelow_eq]
  exact revise_kind _ v

theorem rewriteBelow_of_not_isContainer (h : v.isContainer = false) :
    v.rewriteBelow f asked = v := by
  cases v with
  | array | object => cases h
  | _ => rfl

theorem rewriteBelow_steps (hk : v.kind.isJson) (f : Value → Option Value)
    (asked : Location → Bool) : (v.rewriteBelow f asked).steps = v.steps := by
  rw [rewriteBelow_eq, steps, reviseAll_entries hk, List.map_map]
  rfl

end DocPath.Value
