import DocPath.Proofs.Query.Aims
import DocPath.Proofs.Update.Visit

/-!
# The errors of one fragment

An update fails while it follows a fragment or while it acts on the last one. Each error comes
from something that is in the way at one node: a sequence is too short, a scalar stands where
the path goes on, nothing tells what to create, or a container refuses a write.
-/

namespace DocPath

/-- Containers that give up their elements: no sequence of fixed size refuses null. -/
def Kind.yielding : Kind → Bool
  | .slots refused => ValueType.null ∉ refused
  | _ => true

namespace Update

variable {a : Action} {one : Bool} {v doc : Value} {p : Place} {loc : Location}
  {more : List Fragment} {f next : Fragment} {q : Step} {e : UpdateError} {seen : List Value}

theorem aims_of_singleStep (h : singleStep a p v = .ok (some q)) :
    p.fragment.Aims v.extent q := by
  obtain ⟨before, f⟩ := p
  cases f with
  | child name =>
    simp only [singleStep] at h
    split at h <;> cases h
    rfl
  | nth i =>
    simp only [singleStep] at h
    split at h
    · rename_i ho
      rw [Value.containerLen?_of_isOrdered ho] at h
      split at h
      · rename_i n hn
        cases h
        exact ⟨n, hn, rfl⟩
      · split at h <;> cases h
    · cases h
  | _ => cases h

/-- A step that is taken from a container but leads nowhere is that of a name. -/
theorem missing_of_singleStep (h : singleStep a p v = .ok (some q)) (hq : v.step? q = none) :
    ∃ name, p.fragment = .child name ∧ q = .key name ∧ v.isKeyed ∧ v.getKey? name = none := by
  have haims := aims_of_singleStep h
  obtain ⟨before, f⟩ := p
  cases f with
  | child name =>
    simp only [singleStep] at h
    split at h <;> cases h
    exact ⟨name, rfl, rfl, ‹_›, hq⟩
  | nth i =>
    obtain ⟨n, hn, rfl⟩ := haims
    cases v with
    | array items | slots refused items =>
      have hlt : n < items.length := lt_of_normalizeIndex hn
      cases (List.getElem?_eq_getElem hlt).symm.trans hq
    | _ => cases lt_of_normalizeIndex hn
  | _ => cases h

/-- What is in the way of a fragment at a node, and what it is reported as. -/
inductive Obstacle (a : Action) (p : Place) (v : Value) : UpdateError → Prop
  | short {i : Int64} (strict : a.isStrict) (fragment : p.fragment = .nth i)
    (ordered : v.isOrdered) (missing : normalizeIndex i v.extent = none) :
    Obstacle a p v (.outOfBounds p.text)
  | scalar {q : Step} {c : Value} (sets : a.isSet) (single : singleStep a p v = .ok (some q))
    (step : v.step? q = some c) (outer : c.isContainer = false) :
    Obstacle a p v (.blocked c.typeName p.text)
  | shape {name : String} (sets : a.isSet) (fragment : p.fragment = .child name)
    (keyed : v.isKeyed) (missing : v.getKey? name = none) :
    Obstacle a p v (.unknownShape p.text)
  | length {name : String} (sets : a.isSet) (fragment : p.fragment = .child name)
    (keyed : v.isKeyed) (missing : v.getKey? name = none) :
    Obstacle a p v (.negativeLength p.text)
  | refused {q : Step} {c : Value} {cause : AssignError} (sets : a.isSet)
    (single : singleStep a p v = .ok (some q)) (write : v.writeChild q c = .error cause) :
    Obstacle a p v (.refused "set" p.text cause)

theorem singleStep_obstacle (h : singleStep a p v = .error e) : Obstacle a p v e := by
  obtain ⟨before, f⟩ := p
  cases f with
  | nth i =>
    simp only [singleStep] at h
    split at h
    · rename_i ho
      rw [Value.containerLen?_of_isOrdered ho] at h
      split at h
      · cases h
      · rename_i hn
        split at h <;> cases h
        exact .short ‹_› rfl ho hn
    · cases h
  | _ => cases h

theorem fresh_obstacle {name : String} (ha : a.isSet) (hf : p.fragment = .child name)
    (hkeyed : v.isKeyed) (hmissing : v.getKey? name = none) (h : fresh p next = .error e) :
    Obstacle a p v e := by
  cases next with
  | child other => cases h
  | nth i =>
    simp only [fresh] at h
    split at h <;> cases h
    exact .length ha hf hkeyed hmissing
  | _ =>
    cases h
    exact .shape ha hf hkeyed hmissing

theorem follow_obstacle (h : follow a p next doc loc = .error e) :
    ∃ v, doc.pointer? loc = some v ∧ Obstacle a p v e := by
  unfold follow at h
  cases hv : doc.pointer? loc with
  | none =>
    rw [hv] at h
    cases h
  | some v =>
    refine ⟨v, rfl, ?_⟩
    rw [hv] at h
    cases hstep : singleStep a p v with
    | error e' =>
      simp only [hstep, bind, Except.bind] at h
      cases h
      exact singleStep_obstacle hstep
    | ok step =>
      simp only [hstep, bind, Except.bind] at h
      cases step with
      | none => cases h
      | some q =>
        cases hq : v.step? q with
        | some c =>
          simp only [hq] at h
          split at h
          · cases h
          · rename_i houter
            split at h <;> cases h
            exact .scalar ‹_› hstep hq (Bool.eq_false_iff.mpr houter)
        | none =>
          obtain ⟨name, hf, -, hkeyed, hmissing⟩ := missing_of_singleStep hstep hq
          simp only [hq] at h
          split at h
          · rename_i ha
            cases hfresh : fresh p next with
            | error e' =>
              simp only [hfresh] at h
              cases h
              exact fresh_obstacle ha hf hkeyed hmissing hfresh
            | ok c =>
              simp only [hfresh] at h
              split at h <;> cases h
              exact .refused ha hstep ‹_›
          · cases h

theorem advance_obstacle [Libraries] {l : Level} (h : advance a l f next more doc loc = .error e) :
    ∃ v, doc.pointer? loc = some v ∧ f.moves ∧ Obstacle a ⟨l.before, f⟩ v e := by
  cases f with
  | child name | nth i =>
    simp only [advance, bind, Except.bind] at h
    split at h <;> cases h
    obtain ⟨v, hv, hobstacle⟩ := follow_obstacle ‹_›
    exact ⟨v, hv, rfl, hobstacle⟩
  | root | current | bracket => cases h
  | descent | wildcard | slice s | union keys | filter template =>
    simp only [advance] at h
    split at h <;> cases h

theorem targets_obstacle [Libraries] (h : targets a p doc v = .error e) : Obstacle a p v e := by
  obtain ⟨before, f⟩ := p
  cases f with
  | nth i =>
    simp only [targets, bind, Except.bind] at h
    split at h <;> cases h
    exact singleStep_obstacle ‹_›
  | child name | union keys =>
    simp only [targets] at h
    split at h <;> cases h
  | _ => cases h

theorem applyChildren_obstacle [Libraries] (h : (applyChildren a one p doc loc seen).2 = some e) :
    ∃ v, doc.pointer? loc = some v ∧
      (Obstacle a p v e ∧ (applyChildren a one p doc loc seen).1.value = doc ∨
        ∃ steps, targets a p doc v = .ok steps ∧
          (actOn a one p steps ⟨v, false, seen⟩).2 = some e) := by
  simp only [applyChildren, actAt] at h ⊢
  cases hv : doc.pointer? loc with
  | none => simp [hv] at h
  | some v =>
    refine ⟨v, rfl, ?_⟩
    simp only [hv] at h ⊢
    cases htargets : targets a p doc v with
    | error e' =>
      simp only [htargets] at h ⊢
      cases h
      exact Or.inl ⟨targets_obstacle htargets, by simp [Value.put?_pointer? hv]⟩
    | ok steps =>
      simp only [htargets] at h
      exact Or.inr ⟨steps, rfl, h⟩

/-- If the last fragment fails, it has not changed the document or its writes have failed. -/
theorem apply_obstacle [Libraries] (h : (apply a one p doc loc seen).2 = some e) :
    ∃ v, doc.pointer? loc = some v ∧ p.fragment.moves ∧
      (Obstacle a p v e ∧ (apply a one p doc loc seen).1.value = doc ∨
        ∃ steps, targets a p doc v = .ok steps ∧
          (actOn a one p steps ⟨v, false, seen⟩).2 = some e) := by
  have self (l : Location) : (applySelf a doc l seen).2 = none := by
    cases a with
    | modify rewrite =>
      simp only [applySelf, actAt]
      split <;> rfl
    | _ => rfl
  obtain ⟨before, f⟩ := p
  cases f with
  | root | current | bracket =>
    rw [apply, self] at h
    cases h
  | _ =>
    obtain ⟨v, hv, hcase⟩ := applyChildren_obstacle h
    exact ⟨v, hv, rfl, hcase⟩

/-- Something has been taken from a container, which has become `v` and refuses to give up more. -/
structure Withholds (old v : Value) (cause : AssignError) : Prop where
  alike : v.kind = old.kind
  kept : ∃ i, v.removeElement i = .error cause

theorem withholds_of_removeChildren {old : Value} {steps : List Step} {had : Bool}
    {cause : AssignError} (h : old.removeChildren steps = ((v, had), some cause)) :
    Withholds old v cause where
  alike := by
    have alike : (old.removeChildren steps).1.1.kind = old.kind :=
      Value.removeChildren_induction (P := fun w => w.kind = old.kind)
        (fun _ _ removal hw => removal.kind.trans hw) rfl steps
    rwa [h] at alike
  kept := Value.removeElement_of_removeChildren h

theorem Withholds.not_yielding {old : Value} {cause : AssignError} (h : Withholds old v cause) :
    ¬old.kind.yielding := by
  obtain ⟨alike, i, kept⟩ := h
  rw [← alike]
  cases v with
  | slots refused items =>
    intro hyields
    have hnull : ValueType.null ∉ refused := of_decide_eq_true hyields
    simp only [Value.removeElement] at kept
    split at kept
    · rename_i hi
      rw [Value.writeSlot, if_pos ⟨hi, hnull⟩] at kept
      cases kept
    · cases kept
  | _ => cases kept

/-- All that is in the way of a deletion is a sequence that is too short. -/
theorem Obstacle.short_of_delete (h : Obstacle .delete p v e) :
    ∃ i, p.fragment = .nth i ∧ v.isOrdered ∧ normalizeIndex i v.extent = none ∧
      e = .outOfBounds p.text := by
  cases h with
  | short _ fragment ordered missing => exact ⟨_, fragment, ordered, missing, rfl⟩
  | scalar sets | shape sets | length sets | refused sets => cases sets

/-- Nothing is in the way of a removal. -/
theorem Obstacle.not_remove : ¬Obstacle .remove p v e := by
  rintro (strict | sets | sets | sets | sets)
  · cases strict
  all_goals cases sets

/-- To act on children comes to write `w` behind the step `q`, when the container has become `v`. -/
inductive Tries (one : Bool) (v : Value) (q : Step) (w : Value) :
    Action → List Step → Changed → Prop
  | set {steps : List Step} {c : Changed} (here : c.value = v) :
    Tries one v q w (.set w) (q :: steps) c
  | written {s : Step} {steps : List Step} {c : Changed} {u v' : Value}
    (write : c.value.writeChild s u = .ok v') (more : one = false)
    (next : Tries one v q w (.set u) steps { c with value := v', changed := true }) :
    Tries one v q w (.set u) (s :: steps) c
  | modify {rewrite : List Value → Value → Option Value} {steps : List Step} {c : Changed}
    {old : Value} (here : c.value = v) (child : v.step? q = some old)
    (new : rewrite c.seen.reverse old = some w) :
    Tries one v q w (.modify rewrite) (q :: steps) c
  | absent {rewrite : List Value → Value → Option Value} {s : Step} {steps : List Step}
    {c : Changed} (missing : c.value.step? s = none)
    (next : Tries one v q w (.modify rewrite) steps c) :
    Tries one v q w (.modify rewrite) (s :: steps) c
  | kept {rewrite : List Value → Value → Option Value} {s : Step} {steps : List Step}
    {c : Changed} {old : Value} (child : c.value.step? s = some old)
    (same : rewrite c.seen.reverse old = none)
    (next : Tries one v q w (.modify rewrite) steps { c with seen := old :: c.seen }) :
    Tries one v q w (.modify rewrite) (s :: steps) c
  | rewritten {rewrite : List Value → Value → Option Value} {s : Step} {steps : List Step}
    {c : Changed} {old u v' : Value} (child : c.value.step? s = some old)
    (new : rewrite c.seen.reverse old = some u) (write : c.value.writeChild s u = .ok v')
    (more : one = false)
    (next : Tries one v q w (.modify rewrite) steps ⟨v', true, old :: c.seen⟩) :
    Tries one v q w (.modify rewrite) (s :: steps) c
  | clear {a : Action} {i : Nat} {steps : List Step} {c : Changed} {had : Bool}
    {cause : AssignError} (deletes : a.deletes) (slot : q = .index i) (null : w = .null)
    (stops : c.value.removeChildren (if one then steps.take 1 else steps) =
      ((v, had), some cause))
    (kept : v.removeElement i = .error cause) : Tries one v q w a steps c

/-- A write that is refused is the last, and the container is as it was then. -/
theorem Tries.refused {w : Value} {steps : List Step} {c : Changed} {cause : AssignError}
    (h : Tries one v q w a steps c) (hw : v.writeChild q w = .error cause) :
    (actOn a one p steps c).1.value = v ∧
      (actOn a one p steps c).2 = some (.refused a.name p.text cause) := by
  induction h with
  | set here =>
    subst here
    simp [actOn, writeAll, hw, Action.name]
  | written write more _ ih =>
    subst more
    simpa [actOn, writeAll, write] using ih
  | modify here child new =>
    subst here
    simp [actOn, rewriteAll, child, new, hw, Action.name]
  | absent missing _ ih => simpa [actOn, rewriteAll, missing] using ih
  | kept child same _ ih => simpa [actOn, rewriteAll, child, same] using ih
  | rewritten child new write more _ ih =>
    subst more
    simpa [actOn, rewriteAll, child, new, write] using ih
  | @clear a i steps c had cause' deletes slot null stops kept =>
    subst slot null
    cases (Value.writeChild_of_removeElement kept).symm.trans hw
    cases a with
    | delete | remove => simp [actOn, stops]
    | _ => cases deletes

/-- Nothing but a refused write stops an action at the children of a container. -/
theorem tries_of_actOn {steps : List Step} {c : Changed}
    (h : (actOn a one p steps c).2 = some e) :
    ∃ v q w cause, Tries one v q w a steps c ∧ v.writeChild q w = .error cause ∧
      e = .refused a.name p.text cause := by
  cases a with
  | delete | remove =>
    simp only [actOn] at h
    cases hstops : c.value.removeChildren (if one then steps.take 1 else steps) with
    | mk r stop =>
      rw [hstops] at h
      obtain ⟨cause, rfl, rfl⟩ := Option.map_eq_some_iff.mp h
      obtain ⟨i, kept⟩ := Value.removeElement_of_removeChildren hstops
      exact ⟨_, _, _, cause, .clear rfl rfl rfl hstops kept,
        Value.writeChild_of_removeElement kept, rfl⟩
  | set u =>
    simp only [actOn] at h
    induction steps generalizing c with
    | nil => cases h
    | cons s steps ih =>
      simp only [writeAll] at h
      split at h
      · cases h
        exact ⟨_, _, _, _, .set rfl, ‹_›, rfl⟩
      · split at h
        · cases h
        · obtain ⟨v, q, w, cause, next, hrefused⟩ := ih h
          exact ⟨v, q, w, cause, .written ‹_› (Bool.eq_false_iff.mpr ‹_›) next, hrefused⟩
  | modify rewrite =>
    simp only [actOn] at h
    induction steps generalizing c with
    | nil => cases h
    | cons s steps ih =>
      simp only [rewriteAll] at h
      split at h
      · obtain ⟨v, q, w, cause, next, hrefused⟩ := ih h
        exact ⟨v, q, w, cause, .absent ‹_› next, hrefused⟩
      · split at h
        · obtain ⟨v, q, w, cause, next, hrefused⟩ := ih h
          exact ⟨v, q, w, cause, .kept ‹_› ‹_› next, hrefused⟩
        · split at h
          · cases h
            exact ⟨_, _, _, _, .modify rfl ‹_› ‹_›, ‹_›, rfl⟩
          · split at h
            · cases h
            · obtain ⟨v, q, w, cause, next, hrefused⟩ := ih h
              exact ⟨v, q, w, cause,
                .rewritten ‹_› ‹_› ‹_› (Bool.eq_false_iff.mpr ‹_›) next, hrefused⟩

end Update
end DocPath
