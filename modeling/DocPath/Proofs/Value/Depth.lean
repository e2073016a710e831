import DocPath.Proofs.Value.Deletion

/-!
# Changes at one depth

Nodes that lie equally deep in a document do not contain each other. They can be exchanged all
at once, each told by its location, and two such changes are one.
-/

namespace DocPath.Value

/-- The value with the nodes so many levels below it exchanged. -/
def atDepth : Nat → (Location → Value → Value) → Value → Value
  | 0, g, v => g [] v
  | n + 1, g, v => v.reviseAll fun s c => c.atDepth n fun l => g (s :: l)

variable {n : Nat} {g g' : Location → Value → Value} {v u : Value} {l : Location}

theorem atDepth_id (n : Nat) (v : Value) : (v.atDepth n fun _ u => u) = v := by
  induction n generalizing v with
  | zero => rfl
  | succ n ih =>
    rw [atDepth]
    simp only [ih, reviseAll_id]

theorem atDepth_atDepth (n : Nat) (g g' : Location → Value → Value) (v : Value) :
    (v.atDepth n g).atDepth n g' = v.atDepth n fun l u => g' l (g l u) := by
  induction n generalizing g g' v with
  | zero => rfl
  | succ n ih =>
    rw [atDepth, atDepth, atDepth, reviseAll_reviseAll]
    simp only [ih]

theorem isContainer_atDepth (hg : ∀ l u, (g l u).isContainer = u.isContainer) (v : Value) :
    (v.atDepth n g).isContainer = v.isContainer := by
  cases n with
  | zero => exact hg [] v
  | succ n =>
    rw [atDepth, reviseAll]
    exact isContainer_revise _ v

theorem Plain.atDepth (hv : v.Plain) (hg : ∀ l u, u.Plain → (g l u).Plain) :
    (v.atDepth n g).Plain := by
  induction n generalizing v g with
  | zero => exact hg [] v hv
  | succ n ih =>
    rw [Value.atDepth, reviseAll]
    refine hv.revise fun e he w hw => ?_
    cases hw
    exact ih (formed_of_mem_children hv (mem_children_of_mem_entries he)) fun l => hg (e.1 :: l)

theorem pointer?_atDepth (hv : v.Plain) (hl : l.length = n) :
    (v.atDepth n g).pointer? l = (v.pointer? l).map (g l) := by
  induction n generalizing v g l with
  | zero =>
    obtain rfl := List.eq_nil_of_length_eq_zero hl
    rfl
  | succ n ih =>
    obtain ⟨s, l, rfl⟩ := List.exists_cons_of_length_eq_add_one hl
    rw [Value.atDepth, pointer?, pointer?, step?_reviseAll (formed_iff.mp hv).1]
    cases hs : v.step? s with
    | none => rfl
    | some c => exact ih (formed_step? hv hs) (Nat.succ.inj hl)

theorem atDepth_congr (hv : v.Plain)
    (h : ∀ l u, l.length = n → v.pointer? l = some u → g l u = g' l u) :
    v.atDepth n g = v.atDepth n g' := by
  induction n generalizing v g g' with
  | zero => exact h [] v rfl rfl
  | succ n ih =>
    rw [atDepth, atDepth]
    refine reviseAll_congr fun e he => ?_
    have hstep : v.step? e.1 = some e.2 := step?_of_mem_entries (formed_iff.mp hv).2.1 he
    refine ih (formed_step? hv hstep) fun l u hl hu => h (e.1 :: l) u (congrArg (· + 1) hl) ?_
    rw [pointer?, hstep, Option.bind_some, hu]

/-- Changes at one depth are the same when they are at every node there. -/
theorem atDepth_eq_iff (hv : v.Plain) : v.atDepth n g = v.atDepth n g' ↔
    ∀ l u, l.length = n → v.pointer? l = some u → g l u = g' l u := by
  constructor
  · intro h l u hl hu
    have same := congrArg (·.pointer? l) h
    simpa [pointer?_atDepth hv hl, hu] using same
  · exact atDepth_congr hv

/-- A deletion further down is a change at each node of a depth. -/
theorem deleteWhere_eq_atDepth {gone : Location → Bool} (h : ∀ l, gone l → n < l.length)
    (v : Value) :
    v.deleteWhere gone = v.atDepth n fun l u => u.deleteWhere fun m => gone (l ++ m) := by
  induction n generalizing gone v with
  | zero => rfl
  | succ n ih =>
    have stays : ∀ s, gone [s] = false := by
      intro s
      by_contra hne
      have := h [s] (by simpa using hne)
      simp at this
    rw [deleteWhere_eq_reviseAll stays, atDepth]
    refine reviseAll_congr fun e _ => ?_
    exact ih (fun l hl => Nat.lt_of_succ_lt_succ (h (e.1 :: l) hl)) e.2

end DocPath.Value
