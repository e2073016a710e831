import DocPath.Proofs.Query.Results

/-!
# Looking for the first match

A search that stops at the first value, one that only asks whether there is a value and one
that collects all of them are runs of one loop with different visitors. A visitor sees the
collected values in their order up to the one that it stops at, so the three agree, also for
the paths inside of filters.
-/

namespace DocPath

namespace Search

theorem offer_first (vs : List Value) :
    (offer (fun _ v => ForInStep.done (some v)) none vs).value = vs.head? := by
  cases vs with
  | nil => rfl
  | cons v vs => rfl

theorem offer_has (vs : List Value) :
    (offer (fun _ _ => ForInStep.done true) false vs).value = !vs.isEmpty := by
  cases vs with
  | nil => rfl
  | cons v vs => rfl

/-- Whatever the visitor does, it is offered the values that are collected. -/
theorem traverse_eq_offer_get {σ : Type} (sels : List Selector) (doc : Value)
    (visit : σ → Value → ForInStep σ) (s : σ) :
    traverse sels doc visit s = (offer visit s (get sels doc)).value := by
  rw [traverse_eq_offer, get_eq_reached]

theorem first?_eq_head?_get (sels : List Selector) (doc : Value) :
    first? sels doc = (get sels doc).head? := by
  rw [first?, traverse_eq_offer_get, offer_first]

theorem has_eq_get (sels : List Selector) (doc : Value) :
    has sels doc = !(get sels doc).isEmpty := by
  rw [has, traverse_eq_offer_get, offer_has]

end Search

/-- A path in a filter that is not asked for all its matches stands for the first of them. -/
theorem Operand.resolve_path [Libraries] (p : Path) (elem root : Value) :
    (Operand.path p).resolve false elem root =
      ((p.get (p.origin elem root)).head?.map Term.ofValue).getD .nothing := by
  rw [resolve, Search.first?_eq_head?_get, Path.get]
  cases (Search.get (selectors p) (p.origin elem root)).head? with
  | none => rfl
  | some v => rfl

namespace Path

/-- The first match is the first of all matches, a match that is null included; it is absent
exactly when there are no matches, and there is one exactly when there are some. Every other
visitor is likewise offered the matches in their order until it stops. -/
theorem first?_has_eq_get [Libraries] (p : Path) (doc : Value) :
    p.first? doc = (p.get doc).head? ∧
      (p.first? doc = none ↔ p.get doc = []) ∧
      (p.has doc = true ↔ p.get doc ≠ []) ∧
      ∀ (σ : Type) (visit : σ → Value → ForInStep σ) (s : σ),
        Search.traverse (selectors p) doc visit s = (Search.offer visit s (p.get doc)).value := by
  have hfirst : p.first? doc = (p.get doc).head? := Search.first?_eq_head?_get _ doc
  have hhas : p.has doc = !(p.get doc).isEmpty := Search.has_eq_get _ doc
  refine ⟨hfirst, ?_, ?_, ?_⟩
  · rw [hfirst]
    exact List.head?_eq_none_iff
  · rw [hhas]
    simp
  · intro σ visit s
    exact Search.traverse_eq_offer_get _ doc visit s

end Path

end DocPath
