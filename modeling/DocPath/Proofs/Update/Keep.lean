import DocPath.Builtin
import DocPath.Proofs.Update.Offer

/-!
# Rewritings that keep every value

When a rewriting gives values back as they are, all that an update does is hand them over
one after the other. In this way the values that an update goes to can be compared with
those that a query selects.
-/

namespace DocPath

/-- A container that is not of fixed size takes back the children that it has. -/
theorem Value.writeChild_step? {v c : Value} {s : Step} (hk : v.kind.isSlots = false)
    (h : v.step? s = some c) : v.writeChild s c = .ok v := by
  have inserted : ∀ {ms : Members} {name : String}, ms.lookup name = some c →
      Members.insert name c ms = ms := by
    intro ms name hl
    have hn := Members.lookup_isSome_iff.mp (Option.isSome_of_eq_some hl)
    rw [Members.insert, if_pos (Members.any_name_iff.mpr hn), Members.replace_lookup hl]
  cases Value.step?_eq_some_iff.mp h with
  | member hl => rw [writeChild, inserted hl]
  | @field kind ms key name c found hl =>
    cases kind with
    | table =>
      simp only [KeyedKind.resolve?, Option.ite_none_right_eq_some, Option.some.injEq] at found
      obtain ⟨-, rfl⟩ := found
      rw [writeChild, inserted hl]
    | record =>
      have same : c.accepts c := by cases c <;> rfl
      simp [writeChild, writeField, found, hl, same, Members.replace_lookup hl, Except.map]
  | element hi =>
    obtain ⟨hlt, rfl⟩ := List.getElem?_eq_some_iff.mp hi
    simp [writeChild, hlt]
  | slot => cases hk

namespace Update

open DocPath.Path (nodes)

/-- A rewriting that gives every value back, or nothing. -/
def Keeps (rewrite : List Value → Value → Option Value) : Prop :=
  ∀ seen v, rewrite seen v = none ∨ rewrite seen v = some v

variable {rewrite : List Value → Value → Option Value} {before : List Fragment} {f : Fragment}
  {p : Place} {doc v : Value} {loc : Location} {r : Progress}

theorem rewriteSelf_keep (hr : Keeps rewrite) (c : Changed) :
    ∃ changed, rewriteSelf rewrite c = ⟨c.value, changed, c.value :: c.seen⟩ := by
  rcases hr c.seen.reverse c.value with h | h
  · exact ⟨c.changed, by simp only [rewriteSelf, h]⟩
  · exact ⟨true, by simp only [rewriteSelf, h]⟩

theorem rewriteAll_keep (hr : Keeps rewrite) (hk : v.kind.isSlots = false)
    (es : List (Step × Value))
    (hes : ∀ e ∈ es, v.step? e.1 = some e.2) (changed : Bool) (seen : List Value) :
    ∃ changed', rewriteAll p false rewrite (es.map (·.1)) ⟨v, changed, seen⟩ =
      (⟨v, changed', (es.map (·.2)).reverse ++ seen⟩, none) := by
  induction es generalizing changed seen with
  | nil => exact ⟨changed, rfl⟩
  | cons e es ih =>
    have hstep := hes e List.mem_cons_self
    have hrest := ih fun e he => hes e (List.mem_cons_of_mem _ he)
    rcases hr seen.reverse e.2 with h | h
    · obtain ⟨changed', h'⟩ := hrest changed (e.2 :: seen)
      exact ⟨changed', by simp [rewriteAll, hstep, h, h']⟩
    · obtain ⟨changed', h'⟩ := hrest true (e.2 :: seen)
      exact ⟨changed', by simp [rewriteAll, hstep, h, Value.writeChild_step? hk hstep, h']⟩

theorem actAt_keep {act : Value → Attempt} {changed : Bool} {seen seen' : List Value}
    (hv : doc.pointer? loc = some v) (h : act v = (⟨v, changed, seen'⟩, none)) :
    actAt doc loc seen act = (⟨doc, changed, seen'⟩, none) := by
  simp only [actAt, hv, h, Value.put?_pointer? hv, Option.getD_some]

theorem applySelf_keep (hr : Keeps rewrite) (hv : doc.pointer? loc = some v)
    (seen : List Value) : ∃ changed,
      applySelf (.modify rewrite) doc loc seen = (⟨doc, changed, [v].reverse ++ seen⟩, none) := by
  obtain ⟨changed, h⟩ := rewriteSelf_keep hr ⟨v, false, seen⟩
  refine ⟨changed, ?_⟩
  rw [applySelf]
  exact actAt_keep hv (by rw [h]; rfl)

theorem applyChildren_keep [Libraries] (hr : Keeps rewrite) (hf : f.picks) (hd : doc.Slotless)
    (hv : doc.pointer? loc = some v) (seen : List Value) : ∃ changed,
      applyChildren (.modify rewrite) false ⟨before, f⟩ doc loc seen =
        (⟨doc, changed, (f.found doc v).reverse ++ seen⟩, none) := by
  obtain ⟨hk, hn, -⟩ := Value.formed_iff.mp (Value.formed_pointer? hd hv)
  have htargets : targets (.modify rewrite) ⟨before, f⟩ doc v =
      .ok ((chosen f doc v).map (·.1)) := by
    have hset : (Action.modify rewrite).isSet = false := rfl
    rcases targets_picks hset before hf doc v with h | ⟨hstrict, -⟩
    · exact h
    · cases hstrict
  obtain ⟨changed, hall⟩ := rewriteAll_keep (p := ⟨before, f⟩) hr (Bool.not_eq_true' _ ▸ hk)
    (chosen f doc v) (fun e he => step?_of_mem_chosen hn he) false seen
  refine ⟨changed, ?_⟩
  rw [applyChildren, ← chosen_map_snd hf]
  exact actAt_keep hv (by simp only [htargets]; exact hall)

/-- The last fragment hands over what it selects. -/
theorem act_keep [Libraries] (hr : Keeps rewrite) (hd : r.doc.Slotless)
    (hv : r.doc.pointer? loc = some v) (hf : f ≠ .descent) :
    r.act (.modify rewrite) false ⟨before, f⟩ loc = .ok (r.hand (f.found r.doc v)) := by
  have hands : ∃ changed, apply (.modify rewrite) false ⟨before, f⟩ r.doc loc r.seen =
      (⟨r.doc, changed, (f.found r.doc v).reverse ++ r.seen⟩, none) := by
    cases f using Fragment.pickCases with
    | root =>
      have hroot : r.doc.pointer? [] = some r.doc := rfl
      exact applySelf_keep hr hroot r.seen
    | current | bracket => exact applySelf_keep hr hv r.seen
    | descent => exact absurd rfl hf
    | pick f hpicks =>
      rw [apply_picks hpicks]
      exact applyChildren_keep hr hpicks hd hv r.seen
  obtain ⟨changed, h⟩ := hands
  simp [Progress.act, h, Progress.hand]

/-- Hands every value over, and nothing else happens. -/
def Handler.handing : Handler where
  handle n r := .ok (r.hand [n.2])
  doc_eq {n r r'} h := by
    cases h
    rfl

theorem Handler.all_handing (ns : List Node) (r : Progress) :
    Handler.handing.all ns r = .ok (r.hand (ns.map (·.2))) := by
  induction ns generalizing r with
  | nil => rfl
  | cons n ns ih =>
    have hn : Handler.handing.handle n r = .ok (r.hand [n.2]) := rfl
    rw [Handler.all_cons_of_ok hn, ih, ← Progress.hand_append]
    rfl

/-- The visit of a location hands over the values that a query selects there, those below a
value before the value itself. -/
theorem visit_keep [Libraries] (hr : Keeps rewrite) (hd : doc.Slotless) (rest : List Fragment)
    (hlast : rest.getLast? ≠ some .descent) (before : List Fragment) (loc : Location) (v : Value)
    (seen : List Value) (hv : doc.pointer? loc = some v) :
    visit (.modify rewrite) false before rest loc ⟨doc, seen⟩ =
      some (.ok (Progress.hand ⟨doc, seen⟩
        ((nodes .childrenFirst doc rest (loc, v)).map (·.2)))) := by
  have last : ∀ f before n, rest.getLast? = some f → Node.At doc n →
      Offers .handing (.modify rewrite) doc
        (fun r => some (r.act (.modify rewrite) false ⟨before, f⟩ n.1)) (f.nodes doc n) := by
    rintro f before n hf hn r rfl
    have hdescent : f ≠ .descent := by
      rintro rfl
      exact hlast hf
    left
    rw [Option.some.injEq, act_keep hr hd hn hdescent, Handler.all_handing,
      Fragment.nodes_map_snd]
  have hvisit := visit_offers rfl (Value.formed_mono (fun _ _ => rfl) hd) rest last before
    (loc, v) hv
  rcases hvisit ⟨doc, seen⟩ rfl with h | ⟨hstrict, -⟩
  · rw [h, Handler.all_handing]
  · cases hstrict

end Update
end DocPath

namespace DocPath.Path

open Update (Keeps State)

/-- An update with a rewriting that keeps every value ends with the document as it was and
without an error. It hands over the values that a query selects, each as often, and in the
same order unless a descent is passed. Plain documents and records are without sequences of
fixed size. -/
theorem modify_keep [Libraries] {p : Path} (hp : p ≠ []) (hlast : p.getLast? ≠ some .descent)
    {rewrite : List Value → Value → Option Value} (hr : Keeps rewrite) {doc : Value}
    (hd : doc.Slotless) :
    ∃ seen, p.modify rewrite doc = ⟨doc, seen, none⟩ ∧
      State.Ends (.modify rewrite) false ⟨doc, [], [⟨[], p, false, [[]]⟩]⟩ ⟨doc, seen, none⟩ ∧
      seen.Perm (p.get doc) ∧ (.descent ∉ p → seen = p.get doc) := by
  let seen := (nodes .childrenFirst doc p ([], doc)).map (·.2)
  have hvisit := Update.visit_keep hr hd p hlast [] [] doc [] rfl
  have hend : Update.Visited.outcome (.ok (Update.Progress.hand ⟨doc, []⟩ seen)) =
      ⟨doc, seen, none⟩ := by
    simp [Update.Visited.outcome, Update.Progress.finish, Update.Progress.hand]
  have hget : p.get doc = (nodes .parentsFirst doc p ([], doc)).map (·.2) :=
    (nodes_values p doc).symm
  have hgot : p.getLast? = some (p.getLast hp) := List.getLast?_eq_getLast_of_ne_nil hp
  have hallows : (Action.modify rewrite).allows (p.getLast hp) := by
    cases hf : p.getLast hp with
    | descent => exact absurd (hgot.trans (congrArg some hf)) hlast
    | _ => rfl
  refine ⟨seen, ?_, ?_, ?_, fun hdescent => ?_⟩
  · exact (update_of_visit hgot hallows hvisit).trans hend
  · exact hend ▸ Update.ends_of_visit hvisit
  · rw [hget]
    exact (nodes_perm doc p ([], doc)).map _
  · rw [hget, ← nodes_of_no_descent hdescent]

/-- A descent that ends with a union which names one member twice, over a plain document and
the same document as a record. -/
theorem modify_keep_of_record :
    let p : Path := [.root, .descent, .union [.key "a", .key "a"]]
    let keep : List Value → Value → Option Value := fun _ v => some v
    let doc : Value := .object [("a", .object [("a", .int 1)]), ("b", .str "s")]
    let record : Value := doc.toRecords
    doc.Plain ∧ doc.record? = .ok record ∧
      (∃ seen, p.modify keep doc = ⟨doc, seen, none⟩ ∧ seen.Perm (p.get doc)) ∧
      ∃ seen, p.modify keep record = ⟨record, seen, none⟩ ∧ seen.Perm (p.get record) := by
  intro p keep doc record
  have hplain : doc.Plain := by decide
  have hrecord : doc.record? = .ok record := rfl
  have hp : p ≠ [] := List.cons_ne_nil _ _
  have hlast : p.getLast? ≠ some .descent := by simp [p]
  have hkeep : Keeps keep := fun _ v => Or.inr rfl
  obtain ⟨seen, hmodify, -, hperm, -⟩ := modify_keep hp hlast hkeep hplain.slotless
  obtain ⟨seen', hmodify', -, hperm', -⟩ :=
    modify_keep hp hlast hkeep (Value.slotless_of_record? hplain hrecord)
  exact ⟨hplain, hrecord, ⟨seen, hmodify, hperm⟩, seen', hmodify', hperm'⟩

end DocPath.Path
