import DocPath.Proofs.Path.Anchored
import DocPath.Proofs.Update.Visit
import DocPath.Proofs.Value.Formed

/-!
# Where an update changes a document

The action of a last fragment and the step of a name or position change at most the node at
the location they are given, and they keep the document well-formed as long as the values
written are.
-/

namespace DocPath

/-- Every value that the action writes is of the given kinds and well-formed. -/
def Action.Formed (kinds : Kind → Bool) : Action → Prop
  | .set v => v.formed kinds
  | .modify rewrite => ∀ seen v w, rewrite seen v = some w → w.formed kinds
  | _ => True

/-- The action writes documents in which every container has distinct names. -/
def Action.WellFormed (a : Action) : Prop := a.Formed fun _ => true

/-- Every value that the action writes is of the given kinds and well-formed, as long as it is
handed such values. -/
def Action.Keeps (kinds : Kind → Bool) : Action → Prop
  | .set v => v.formed kinds
  | .modify rewrite => ∀ seen v w, (∀ u ∈ seen, u.formed kinds) → v.formed kinds →
    rewrite seen v = some w → w.formed kinds
  | _ => True

theorem Action.Formed.keeps {kinds : Kind → Bool} {a : Action} (ha : a.Formed kinds) :
    a.Keeps kinds := by
  cases a with
  | modify rewrite => exact fun seen v w _ _ hw => ha seen v w hw
  | _ => exact ha

namespace Update

open Value (ChangedAt)

/-- A value on its way through a change, and all that has been handed to the rewriting, are of
the given kinds. -/
structure Within (kinds : Kind → Bool) (v : Value) (seen : List Value) : Prop where
  value : v.formed kinds
  seen : ∀ u ∈ seen, u.formed kinds

variable {kinds : Kind → Bool} {a : Action} {one : Bool} {p : Place} {doc v : Value}
  {loc : Location} {seen : List Value}

theorem Within.hand {old : Value} (h : Within kinds v seen) (hold : old.formed kinds) :
    Within kinds v (old :: seen) :=
  ⟨h.value, List.forall_mem_cons.mpr ⟨hold, h.seen⟩⟩

theorem Within.rewritten {rewrite : List Value → Value → Option Value} {old w : Value}
    (h : Within kinds v seen) (hr : (Action.modify rewrite).Keeps kinds)
    (hold : old.formed kinds) (hw : rewrite seen.reverse old = some w) : w.formed kinds :=
  hr seen.reverse old w (by simpa using h.seen) hold hw

/-- An attempt leaves its container and the values it was handed within their kinds. -/
abbrev Attempt.Within (kinds : Kind → Bool) (t : Attempt) : Prop :=
  Update.Within kinds t.1.value t.1.seen

theorem within_writeAll {w : Value} (hw : w.formed kinds) (steps : List Step) (c : Changed)
    (hc : Within kinds c.value c.seen) : (writeAll p one w steps c).Within kinds := by
  induction steps generalizing c with
  | nil => exact hc
  | cons s steps ih =>
    simp only [writeAll]
    cases h : c.value.writeChild s w with
    | error e => exact hc
    | ok v =>
      have hv : Within kinds v c.seen := ⟨Value.formed_writeChild hc.value hw h, hc.seen⟩
      cases one with
      | true => exact hv
      | false => exact ih { c with value := v, changed := true } hv

theorem within_rewriteAll {rewrite : List Value → Value → Option Value}
    (hr : (Action.modify rewrite).Keeps kinds) (steps : List Step) (c : Changed)
    (hc : Within kinds c.value c.seen) : (rewriteAll p one rewrite steps c).Within kinds := by
  induction steps generalizing c with
  | nil => exact hc
  | cons s steps ih =>
    simp only [rewriteAll]
    cases hs : c.value.step? s with
    | none => exact ih c hc
    | some old =>
      have hold := Value.formed_step? hc.value hs
      dsimp only
      cases hw : rewrite c.seen.reverse old with
      | none => exact ih { c with seen := old :: c.seen } (hc.hand hold)
      | some w =>
        dsimp only
        cases h : c.value.writeChild s w with
        | error e => exact hc.hand hold
        | ok v =>
          have hformed := Value.formed_writeChild hc.value (hc.rewritten hr hold hw) h
          have hv : Within kinds v (old :: c.seen) := ⟨hformed, (hc.hand hold).seen⟩
          cases one with
          | true => exact hv
          | false => exact ih ⟨v, true, old :: c.seen⟩ hv

theorem within_actOn (scalar : kinds .scalar) (ha : a.Keeps kinds) (steps : List Step)
    (c : Changed) (hc : Within kinds c.value c.seen) :
    (actOn a one p steps c).Within kinds := by
  cases a with
  | set w => exact within_writeAll ha steps c hc
  | delete | remove => exact ⟨Value.formed_removeChildren scalar hc.value _, hc.seen⟩
  | modify rewrite => exact within_rewriteAll ha steps c hc

theorem within_rewriteSelf {rewrite : List Value → Value → Option Value}
    (hr : (Action.modify rewrite).Keeps kinds) (c : Changed) (hc : Within kinds c.value c.seen) :
    Within kinds (rewriteSelf rewrite c).value (rewriteSelf rewrite c).seen := by
  simp only [rewriteSelf]
  split
  · exact ⟨hc.rewritten hr hc.value ‹_›, (hc.hand hc.value).seen⟩
  · exact hc.hand hc.value

theorem actAt_effect {act : Value → Attempt} (h : Within kinds doc seen)
    (hact : ∀ v, Within kinds v seen → (act v).Within kinds) :
    (actAt doc loc seen act).Within kinds ∧ ChangedAt loc doc (actAt doc loc seen act).1.value := by
  cases hv : doc.pointer? loc with
  | none =>
    simp only [actAt, hv]
    exact ⟨h, .refl loc doc⟩
  | some v =>
    have hnew := hact v ⟨Value.formed_pointer? h.value hv, h.seen⟩
    obtain ⟨d, hput⟩ := Value.exists_put? hv (act v).1.value
    simp only [actAt, hv, hput, Option.getD_some]
    exact ⟨⟨Value.formed_put? h.value hnew.value hput, hnew.seen⟩, Or.inr ⟨_, hput⟩⟩

theorem applySelf_effect (ha : a.Keeps kinds) (h : Within kinds doc seen) :
    (applySelf a doc loc seen).Within kinds ∧
      ChangedAt loc doc (applySelf a doc loc seen).1.value := by
  cases a with
  | set w | delete | remove => exact ⟨h, .refl loc doc⟩
  | modify rewrite => exact actAt_effect h fun v hv => within_rewriteSelf ha ⟨v, false, seen⟩ hv

theorem applyChildren_effect [Libraries] (scalar : kinds .scalar) (ha : a.Keeps kinds)
    (h : Within kinds doc seen) :
    (applyChildren a one p doc loc seen).Within kinds ∧
      ChangedAt loc doc (applyChildren a one p doc loc seen).1.value := by
  refine actAt_effect h fun v hv => ?_
  cases targets a p doc v with
  | error e => exact hv
  | ok steps => exact within_actOn scalar ha steps ⟨v, false, seen⟩ hv

/-- A last fragment that leads down acts on the children of a node. -/
theorem apply_of_moves [Libraries] {before : List Fragment} {f : Fragment} (hf : f.moves)
    (doc : Value) (loc : Location) (seen : List Value) :
    apply a one ⟨before, f⟩ doc loc seen = applyChildren a one ⟨before, f⟩ doc loc seen := by
  cases f with
  | root | current | bracket => cases hf
  | _ => rfl

/-- The last action leaves the document within its kinds. -/
theorem within_apply [Libraries] (scalar : kinds .scalar) (ha : a.Keeps kinds)
    (h : Within kinds doc seen) :
    (apply a one p doc loc seen).Within kinds := by
  unfold apply
  split
  · exact (applySelf_effect ha h).1
  · exact (applySelf_effect ha h).1
  · exact (applySelf_effect ha h).1
  · exact (applyChildren_effect scalar ha h).1

/-- The last action changes at most the node at its location. The fragment `$` acts on the
document, wherever it stands. -/
theorem apply_changedAt [Libraries] (scalar : kinds .scalar) (ha : a.Keeps kinds)
    (h : Within kinds doc seen)
    (hp : p.fragment ≠ .root) : ChangedAt loc doc (apply a one p doc loc seen).1.value := by
  unfold apply
  split
  · contradiction
  · exact (applySelf_effect ha h).2
  · exact (applySelf_effect ha h).2
  · exact (applyChildren_effect scalar ha h).2

/-- The containers that are created before a fragment. -/
inductive Fresh : Fragment → Value → Prop where
  | object (name : String) : Fresh (.child name) (.object [])
  | array {i : Int64} (forward : 0 ≤ i.toInt) :
    Fresh (.nth i) (.array (List.replicate (i.toInt.toNat + 1) .null))

theorem fresh_of_fresh {next : Fragment} {c : Value} (h : fresh p next = .ok c) :
    Fresh next c := by
  cases next with
  | child name =>
    cases h
    exact .object name
  | nth i =>
    simp only [fresh] at h
    split at h <;> cases h
    exact .array (by omega)
  | _ => cases h

theorem Fresh.isContainer {next : Fragment} {c : Value} (h : Fresh next c) : c.isContainer := by
  cases h <;> rfl

/-- There is nothing to go down to in a new container. -/
theorem Fresh.not_isContainer {next : Fragment} {s : Step} {c b : Value} (h : Fresh next c)
    (hs : c.step? s = some b) : b.isContainer = false := by
  have hb := Value.mem_children_of_step? hs
  cases h with
  | object name => cases hb
  | array forward =>
    obtain rfl := List.eq_of_mem_replicate hb
    rfl

theorem formed_fresh (json : ∀ k, Kind.isJson k → kinds k) {next : Fragment} {c : Value}
    (h : fresh p next = .ok c) : c.formed kinds := by
  cases fresh_of_fresh h with
  | object name => exact Value.formed_iff.mpr ⟨json _ rfl, List.nodup_nil, nofun⟩
  | array forward =>
    refine Value.formed_iff.mpr ⟨json _ rfl, List.nodup_nil, fun b hb => ?_⟩
    obtain rfl := List.eq_of_mem_replicate hb
    exact Value.formed_null (json _ rfl)

/-- The ways of a step of a name or position: it goes nowhere, it goes to a child that is there,
or it goes to one that it creates. -/
inductive Follows (a : Action) (p : Place) (next : Fragment) (doc : Value) (loc : Location) :
    Value → Option Location → Prop
  | nowhere : Follows a p next doc loc doc none
  | child {v c : Value} {s : Step} (hv : doc.pointer? loc = some v)
    (single : singleStep a p v = .ok (some s)) (hs : v.step? s = some c) (inner : c.isContainer) :
    Follows a p next doc loc doc (some (loc ++ [s]))
  | created {v c v' d : Value} {s : Step} (hv : doc.pointer? loc = some v)
    (single : singleStep a p v = .ok (some s)) (missing : v.step? s = none)
    (hc : fresh p next = .ok c) (hw : v.writeChild s c = .ok v') (hput : doc.put? loc v' = some d)
    (sets : a.isSet) : Follows a p next doc loc d (some (loc ++ [s]))

theorem follows_of_follow {next : Fragment} {d : Value} {reached : Option Location}
    (h : follow a p next doc loc = .ok (d, reached)) : Follows a p next doc loc d reached := by
  unfold follow at h
  cases hv : doc.pointer? loc with
  | none =>
    rw [hv] at h
    cases h
    exact .nowhere
  | some v =>
    rw [hv] at h
    cases hs : singleStep a p v with
    | error e => simp [hs, bind, Except.bind] at h
    | ok step =>
      simp only [hs, bind, Except.bind] at h
      cases step with
      | none =>
        cases h
        exact .nowhere
      | some s =>
        dsimp only at h
        cases hc : v.step? s with
        | some c =>
          simp only [hc] at h
          split at h
          · cases h
            exact .child hv hs hc ‹_›
          · split at h
            · cases h
            · cases h
              exact .nowhere
        | none =>
          simp only [hc] at h
          split at h
          · cases hf : fresh p next with
            | error e => simp [hf] at h
            | ok c =>
              simp only [hf] at h
              cases hw : v.writeChild s c with
              | error e => simp [hw] at h
              | ok v' =>
                simp only [hw] at h
                obtain ⟨d', hput⟩ := Value.exists_put? hv v'
                rw [hput, Option.getD_some] at h
                cases h
                exact .created hv hs hc hf hw hput ‹_›
          · cases h
            exact .nowhere

/-- The ways of a round when fragments follow the first. What is queued goes on by them, unless a
descent begins. -/
inductive Onward [Libraries] (a : Action) (l : Level) (f next : Fragment) (more : List Fragment)
    (doc : Value) (loc : Location) : Value → List Level → Prop
  | root (fragment : f = .root) :
    Onward a l f next more doc loc doc [⟨l.before ++ [f], next :: more, false, [[]]⟩]
  | here (stays : ¬f.moves) :
    Onward a l f next more doc loc doc [⟨l.before ++ [f], next :: more, false, [loc]⟩]
  | descends (fragment : f = .descent) :
    Onward a l f next more doc loc doc (descend l doc loc)
  | descended (fragment : f = .descent) :
    Onward a l f next more doc loc doc [⟨l.before ++ [f], next :: more, false, [loc]⟩]
  | single {d : Value} {reached : Option Location} (moves : f.moves) (direct : f ≠ .descent)
    (followed : follow a ⟨l.before, f⟩ next doc loc = .ok (d, reached)) :
    Onward a l f next more doc loc d [⟨l.before ++ [f], next :: more, false, reached.toList⟩]
  | gone (missing : doc.pointer? loc = none) : Onward a l f next more doc loc doc []
  | children {v : Value} (moves : f.moves) (direct : f ≠ .descent)
    (there : doc.pointer? loc = some v) :
    Onward a l f next more doc loc doc [⟨l.before ++ [f], next :: more, false,
      (((chosen f doc v).filter fun e => e.2.isContainer).map (·.1)).map fun s => loc ++ [s]⟩]

theorem onward_of_advance [Libraries] {l : Level} {f next : Fragment} {more : List Fragment}
    {d : Value} {queued : List Level} (h : advance a l f next more doc loc = .ok (d, queued)) :
    Onward a l f next more doc loc d queued := by
  cases f with
  | root =>
    cases h
    exact .root rfl
  | current | bracket =>
    cases h
    exact .here (by decide)
  | child name | nth i =>
    simp only [advance, bind, Except.bind] at h
    split at h <;> cases h
    exact .single rfl (by rintro ⟨⟩) ‹_›
  | descent =>
    simp only [advance] at h
    split at h <;> cases h
    · exact .descended rfl
    · exact .descends rfl
  | wildcard | slice s | union keys | filter template =>
    simp only [advance] at h
    split at h <;> cases h
    · exact .gone ‹_›
    · exact .children rfl (by rintro ⟨⟩) ‹_›

/-- The step of a name or position goes to a child, and changes at most its container. -/
theorem follow_effect (json : ∀ k, Kind.isJson k → kinds k) {next : Fragment}
    (hd : doc.formed kinds) {d : Value} {reached : Option Location}
    (h : follow a p next doc loc = .ok (d, reached)) :
    d.formed kinds ∧ ChangedAt loc doc d ∧ ∀ l, reached = some l → ∃ s, l = loc ++ [s] := by
  cases follows_of_follow h with
  | nowhere => exact ⟨hd, .refl loc doc, nofun⟩
  | @child v c s => exact ⟨hd, .refl loc doc, fun l hl => ⟨s, (Option.some.inj hl).symm⟩⟩
  | @created v c v' d s hv _ _ hc hw hput =>
    have hformed := Value.formed_writeChild (Value.formed_pointer? hd hv) (formed_fresh json hc) hw
    exact ⟨Value.formed_put? hd hformed hput, Or.inr ⟨v', hput⟩,
      fun l hl => ⟨s, (Option.some.inj hl).symm⟩⟩

end Update
end DocPath
