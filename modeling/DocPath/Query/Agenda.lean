/-! Work that waits on a stack. A loop that always replaces the entry on top by finitely
many smaller entries comes to an end, however many there are, provided that smaller is
well-founded. -/
namespace DocPath.Agenda

universe u

variable {α : Type u}

/-- `after` comes from `before` by exchanging its top entry for smaller ones. -/
inductive Shrinks (smaller : α → α → Prop) : List α → List α → Prop where
  | top {entry : α} {rest fresh : List α} (h : ∀ e ∈ fresh, smaller e entry) :
      Shrinks smaller (fresh ++ rest) (entry :: rest)

theorem Shrinks.drop {smaller : α → α → Prop} {entry : α} {rest : List α} :
    Shrinks smaller rest (entry :: rest) :=
  .top (fun _ h => nomatch h : ∀ e ∈ [], smaller e entry)

theorem acc_cons {smaller : α → α → Prop} {entry : α} (hentry : Acc smaller entry) :
    ∀ s, Acc (Shrinks smaller) s → Acc (Shrinks smaller) (entry :: s) := by
  induction hentry with
  | intro entry _ ih =>
    intro s hs
    refine Acc.intro _ fun s' hs' => ?_
    cases hs' with
    | top h =>
      rename_i fresh
      induction fresh with
      | nil => exact hs
      | cons e es ihes =>
        exact ih e (h e (by simp)) _ (ihes fun x hx => h x (by simp [hx]))

/-- A stack of well-founded entries is well-founded. -/
theorem shrinks_wf {smaller : α → α → Prop} (wf : WellFounded smaller) :
    WellFounded (Shrinks smaller) := by
  refine ⟨fun s => ?_⟩
  induction s with
  | nil => exact Acc.intro _ fun s' hs' => nomatch hs'
  | cons e s ih => exact acc_cons (wf.apply e) s ih

end DocPath.Agenda
