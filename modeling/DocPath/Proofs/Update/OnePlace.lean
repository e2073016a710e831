import DocPath.Builtin
import DocPath.Proofs.Update.Offer
import DocPath.Proofs.Update.Remove
import DocPath.Proofs.Value.Writing

/-!
# Updates of one place

The first change ends such an update. Up to there the document is as it was, so that the node
that is changed can be told from the list of the nodes that the path selects: a removal takes
the first of them, and a rewriting the first for which it gives a value. It does not matter
what the path is like, nor how often it selects one node.
-/

namespace DocPath.Update

open DocPath.Path (nodes)

def Handler.deleting : Handler where
  handle n r := .error ⟨r.doc.deleteWhere fun l => decide (l = n.1), r.seen.reverse, none⟩
  doc_eq := nofun

def Handler.rewriting (rewrite : List Value → Value → Option Value) : Handler where
  handle n r :=
    match rewrite r.seen.reverse n.2 with
    | none => .ok (r.hand [n.2])
    | some w => .error ⟨(r.doc.put? n.1 w).getD r.doc, (r.hand [n.2]).seen.reverse, none⟩
  doc_eq {n r r'} h := by
    cases hw : rewrite r.seen.reverse n.2 with
    | none =>
      simp only [hw, Except.ok.injEq] at h
      rw [← h]
      rfl
    | some w =>
      simp only [hw] at h
      cases h

/-- A rewriting that has been handed the values `given` gives nothing for those that come
after them. -/
def Declines (rewrite : List Value → Value → Option Value) : (given vs : List Value) → Prop
  | _, [] => True
  | given, v :: vs => rewrite given v = none ∧ Declines rewrite (given ++ [v]) vs

variable {a : Action} {rewrite : List Value → Value → Option Value} {before : List Fragment}
  {f : Fragment} {p : Place} {doc v : Value} {loc : Location} {seen : List Value} {n : Node}

theorem Handler.all_deleting (ns : List Node) (r : Progress) :
    (Handler.deleting.all ns r).outcome =
      ⟨r.doc.deleteWhere fun l => decide (ns.head?.map (·.1) = some l), r.seen.reverse, none⟩ := by
  cases ns with
  | nil =>
    rw [Handler.all_nil, Visited.outcome, Progress.finish]
    simp [Value.deleteWhere_none]
  | cons n ns =>
    have hn : Handler.deleting.handle n r =
        .error ⟨r.doc.deleteWhere fun l => decide (l = n.1), r.seen.reverse, none⟩ := rfl
    rw [Handler.all_cons_of_error hn, Visited.outcome]
    simp [eq_comm]

/-- Either the rewriting gives nothing for any of the nodes, or it gives a value for one and
nothing for those before it. -/
theorem Handler.all_rewriting (rewrite : List Value → Value → Option Value) {ns : List Node}
    (hns : ∀ n ∈ ns, n.At doc) (seen : List Value) :
    (Declines rewrite seen.reverse (ns.map (·.2)) ∧
      (Handler.rewriting rewrite).all ns ⟨doc, seen⟩ =
        .ok (Progress.hand ⟨doc, seen⟩ (ns.map (·.2)))) ∨
    ∃ early n late w d, ns = early ++ n :: late ∧
      Declines rewrite seen.reverse (early.map (·.2)) ∧
      rewrite (seen.reverse ++ early.map (·.2)) n.2 = some w ∧ doc.put? n.1 w = some d ∧
      (Handler.rewriting rewrite).all ns ⟨doc, seen⟩ =
        .error ⟨d, seen.reverse ++ (early ++ [n]).map (·.2), none⟩ := by
  induction ns generalizing seen with
  | nil => exact Or.inl ⟨trivial, rfl⟩
  | cons m ns ih =>
    cases hm : rewrite seen.reverse m.2 with
    | some w =>
      obtain ⟨d, hd⟩ := Value.exists_put? (hns m List.mem_cons_self) w
      have ends : (Handler.rewriting rewrite).handle m ⟨doc, seen⟩ =
          .error ⟨d, seen.reverse ++ [m.2], none⟩ := by
        simp [Handler.rewriting, hm, hd, Progress.hand]
      refine Or.inr ⟨[], m, ns, w, d, rfl, trivial, by simpa using hm, hd, ?_⟩
      rw [Handler.all_cons_of_error ends]
      rfl
    | none =>
      have goes : (Handler.rewriting rewrite).handle m ⟨doc, seen⟩ = .ok ⟨doc, m.2 :: seen⟩ := by
        simp [Handler.rewriting, hm, Progress.hand]
      rw [Handler.all_cons_of_ok goes]
      rcases ih (fun n hn => hns n (List.mem_cons_of_mem m hn)) (m.2 :: seen) with
        ⟨hdeclines, hall⟩ | ⟨early, n, late, w, d, rfl, hdeclines, hw, hd, hall⟩
      · rw [List.reverse_cons] at hdeclines
        refine Or.inl ⟨⟨hm, hdeclines⟩, hall.trans ?_⟩
        simp [Progress.hand]
      · rw [List.reverse_cons] at hdeclines
        refine Or.inr ⟨m :: early, n, late, w, d, rfl, ⟨hm, hdeclines⟩, ?_, hd, hall.trans ?_⟩
        · simpa using hw
        · simp

/-- What an attempt at the last fragment comes to, in an update of one place. -/
def concluded (x : Attempt) : Visited :=
  if x.2.isSome ∨ x.1.changed then .error (Progress.finish ⟨x.1.value, x.1.seen⟩ x.2)
  else .ok ⟨x.1.value, x.1.seen⟩

theorem act_one [Libraries] (a : Action) (p : Place) (loc : Location) (r : Progress) :
    r.act a true p loc = concluded (apply a true p r.doc loc r.seen) := by
  simp only [Progress.act, concluded, true_and]

theorem removeChildren_singleton {s : Step} {c : Value} (hv : v.Plain) (h : v.step? s = some c) :
    v.removeChildren [s] = ((v.deleteWhere fun l => decide (l = [s]), true), none) := by
  obtain ⟨had, hremove⟩ := Value.removeChildren_eq_revise hv [s]
  have hhad := Value.removeChildren_singleton_had (Value.formed_iff.mp hv).1 h
  rw [hremove] at hhad
  obtain rfl : had = true := hhad
  rw [hremove, Value.deleteWhere_eq]
  refine congrArg (fun w => ((w, true), none)) (Value.revise_congr fun e _ => ?_)
  have below : ∀ l, decide (e.1 :: l = [s]) → l = [] := by simp
  rw [Value.spare, Value.deleteWhere_eq_self below]
  simp

/-- What the last fragment takes away is the first child that it selects. -/
theorem removeChildren_chosen [Libraries] (hd : doc.Plain) (hn : n.At doc) (f : Fragment)
    (seen : List Value) :
    ∃ v had, n.2.removeChildren (((chosen f doc n.2).map (·.1)).take 1) = ((v, had), none) ∧
      concluded (⟨(doc.put? n.1 v).getD doc, had, seen⟩, none) =
        Handler.deleting.all ((chosen f doc n.2).map n.child) ⟨doc, seen⟩ := by
  have hv := Value.formed_pointer? hd hn
  cases hc : chosen f doc n.2 with
  | nil =>
    have stays : doc.put? n.1 n.2 = some doc := Value.put?_pointer? hn
    refine ⟨n.2, false, Value.removeChildren_nil n.2, ?_⟩
    simp [stays, concluded, Handler.all_nil]
  | cons e es =>
    have hstep : n.2.step? e.1 = some e.2 :=
      step?_of_mem_chosen (Value.formed_iff.mp hv).2.1 (hc ▸ List.mem_cons_self)
    have hput := Value.put?_deleteWhere hd hn (List.cons_ne_nil e.1 [])
    have ends : Handler.deleting.handle (n.child e) ⟨doc, seen⟩ = .error
        ⟨doc.deleteWhere fun l => decide (l = n.1 ++ [e.1]), seen.reverse, none⟩ := rfl
    refine ⟨_, true, removeChildren_singleton hv hstep, ?_⟩
    rw [List.map_cons, Handler.all_cons_of_error ends]
    simp [hput, concluded, Progress.finish]

theorem act_deleting [Libraries] (ha : a.deletes) (hf : f.picks) (hd : doc.Plain) (hn : n.At doc) :
    Offers .deleting a doc (fun r => some (r.act a true ⟨before, f⟩ n.1)) (f.nodes doc n) := by
  rintro ⟨doc, seen⟩ rfl
  have hat : doc.pointer? n.1 = some n.2 := hn
  simp only [act_one, apply_picks hf, applyChildren, actAt, hat]
  rcases targets_picks (Action.isSet_of_deletes ha) before hf doc n.2 with
    htargets | ⟨hstrict, e, he⟩
  · left
    obtain ⟨v, had, hremove, hall⟩ := removeChildren_chosen hd hn f seen
    have hacts := actOn_deletes true ⟨before, f⟩ seen ha hremove
    rw [Fragment.nodes_of_picks hf, ← hall]
    simp only [htargets, hacts]
  · refine Or.inr ⟨hstrict, Progress.finish ⟨doc, seen⟩ (some e), ?_, rfl, rfl⟩
    simp [he, concluded, Value.put?_pointer? hat]

/-- A rewriting of one place offers a value itself at the end of a path. -/
theorem applySelf_rewriting (hn : n.At doc) (seen : List Value) :
    concluded (applySelf (.modify rewrite) doc n.1 seen) =
      (Handler.rewriting rewrite).handle n ⟨doc, seen⟩ := by
  have hat : doc.pointer? n.1 = some n.2 := hn
  simp only [applySelf, actAt, hat, rewriteSelf, Handler.rewriting]
  cases hw : rewrite seen.reverse n.2 with
  | none => simp [concluded, Value.put?_pointer? hat, Progress.hand]
  | some w => simp [concluded, Progress.finish, Progress.hand]

/-- It offers the children that the last fragment selects one after the other. -/
theorem rewriteAll_rewriting (hd : doc.Plain) (hn : n.At doc) (es : List (Step × Value))
    (hes : ∀ e ∈ es, n.2.step? e.1 = some e.2) (seen : List Value) :
    concluded (actAt doc n.1 seen fun v =>
        rewriteAll p true rewrite (es.map (·.1)) ⟨v, false, seen⟩) =
      (Handler.rewriting rewrite).all (es.map n.child) ⟨doc, seen⟩ := by
  have hat : doc.pointer? n.1 = some n.2 := hn
  have hk := (Value.formed_iff.mp (Value.formed_pointer? hd hat)).1
  simp only [actAt, hat]
  induction es generalizing seen with
  | nil => simp [rewriteAll, concluded, Value.put?_pointer? hat, Handler.all_nil]
  | cons e es ih =>
    have hstep := hes e List.mem_cons_self
    rw [List.map_cons, List.map_cons]
    cases hw : rewrite seen.reverse e.2 with
    | none =>
      have goes : (Handler.rewriting rewrite).handle (n.child e) ⟨doc, seen⟩ =
          .ok ⟨doc, e.2 :: seen⟩ := by
        simp [Handler.rewriting, Node.child, hw, Progress.hand]
      rw [Handler.all_cons_of_ok goes, ← ih fun e' he' => hes e' (List.mem_cons_of_mem e he')]
      simp only [rewriteAll, hstep, hw]
    | some w =>
      obtain ⟨v, hv⟩ := Value.exists_putStep? hstep w
      have ends : (Handler.rewriting rewrite).handle (n.child e) ⟨doc, seen⟩ =
          .error ⟨(doc.put? n.1 v).getD doc, (e.2 :: seen).reverse, none⟩ := by
        simp [Handler.rewriting, Node.child, hw, Value.put?_snoc hat, hv, Progress.hand]
      rw [Handler.all_cons_of_error ends]
      simp [rewriteAll, hstep, hw, Value.writeChild_of_putStep? hk hv, concluded, Progress.finish]

theorem act_rewriting [Libraries] (hf : f ≠ .descent) (hd : doc.Plain) (hn : n.At doc) :
    Offers (.rewriting rewrite) (.modify rewrite) doc
      (fun r => some (r.act (.modify rewrite) true ⟨before, f⟩ n.1)) (f.nodes doc n) := by
  rintro ⟨doc, seen⟩ rfl
  left
  rw [Option.some.injEq, act_one]
  cases f using Fragment.pickCases with
  | root =>
    have hroot : Node.At doc ([], doc) := rfl
    exact (applySelf_rewriting hroot seen).trans (Handler.all_singleton _ _ _).symm
  | current | bracket =>
    exact (applySelf_rewriting hn seen).trans (Handler.all_singleton _ _ _).symm
  | descent => exact absurd rfl hf
  | pick f hpicks =>
    have hnames := hn.names_nodup hd.wellFormed
    have htargets : ∀ v, targets (.modify rewrite) ⟨before, f⟩ doc v =
        .ok ((chosen f doc v).map (·.1)) := by
      intro v
      have hset : (Action.modify rewrite).isSet = false := rfl
      rcases targets_picks hset before hpicks doc v with h | ⟨hstrict, -⟩
      · exact h
      · cases hstrict
    rw [apply_picks hpicks, applyChildren, Fragment.nodes_of_picks hpicks,
      ← rewriteAll_rewriting (p := ⟨before, f⟩) hd hn _ (fun e => step?_of_mem_chosen hnames) seen]
    have hat : doc.pointer? n.1 = some n.2 := hn
    simp only [actAt, hat, htargets, actOn]

section whole

variable {p : Path} {last : Fragment}

theorem visit_deleting [Libraries] (ha : a.deletes) (hlast : p.getLast? = some last)
    (hpicks : last.picks) (hd : doc.Plain) :
    Offers .deleting a doc (visit a true [] p []) (nodes .childrenFirst doc p ([], doc)) := by
  have hroot : Node.At doc ([], doc) := rfl
  refine visit_offers (Action.isSet_of_deletes ha) hd.wellFormed p (fun f before n hf hn => ?_)
    [] ([], doc) hroot
  obtain rfl : last = f := Option.some.inj (hlast.symm.trans hf)
  exact act_deleting ha hpicks hd hn

theorem visit_rewriting [Libraries] (hlast : p.getLast? = some last) (hdescent : last ≠ .descent)
    (hd : doc.Plain) :
    Offers (.rewriting rewrite) (.modify rewrite) doc (visit (.modify rewrite) true [] p [])
      (nodes .childrenFirst doc p ([], doc)) := by
  have hroot : Node.At doc ([], doc) := rfl
  refine visit_offers rfl hd.wellFormed p (fun f before n hf hn => ?_) [] ([], doc) hroot
  obtain rfl : last = f := Option.some.inj (hlast.symm.trans hf)
  exact act_rewriting hdescent hd hn

/-- An update ends when its first call does. -/
theorem ends_of_offers [Libraries] {h : Handler} {one : Bool} {ns : List Node}
    (hlast : p.getLast? = some last) (hallows : a.allows last)
    (hvisit : Offers h a doc (visit a one [] p []) ns) :
    State.Ends a one ⟨doc, [], [⟨[], p, false, [[]]⟩]⟩ (p.update a one doc) := by
  obtain ⟨res, hres⟩ : ∃ res, visit a one [] p [] ⟨doc, []⟩ = some res := by
    rcases hvisit ⟨doc, []⟩ rfl with hres | ⟨-, o, hres, -⟩
    · exact ⟨_, hres⟩
    · exact ⟨_, hres⟩
  rw [Path.update_of_visit hlast hallows hres]
  exact ends_of_visit hres

end whole

end DocPath.Update

namespace DocPath.Path

open Update (Declines Handler Offers State)

variable {p : Path} {last : Fragment} {doc : Value}

theorem removeOne_eq [Libraries] (hlast : p.getLast? = some last)
    (hallows : Action.remove.allows last) (hd : doc.Plain) :
    p.removeOne doc =
      (Handler.deleting.all (nodes .childrenFirst doc p ([], doc)) ⟨doc, []⟩).outcome := by
  have ha : Action.remove.deletes := rfl
  rcases Update.visit_deleting ha hlast (picks_of_allows hallows) hd ⟨doc, []⟩ rfl with
    hvisit | ⟨hstrict, -⟩
  · exact update_of_visit hlast hallows hvisit
  · cases hstrict

theorem deleteOne_cases [Libraries] (hd : doc.Plain) :
    p.deleteOne doc = p.removeOne doc ∨
      (p.deleteOne doc).doc = doc ∧ (p.deleteOne doc).error.isSome := by
  cases hlast : p.getLast? with
  | none =>
    right
    simp [deleteOne, update, hlast]
  | some last =>
    by_cases hallows : Action.delete.allows last
    · have hremove := allows_remove_of_delete hallows
      have ha : Action.delete.deletes := rfl
      rcases Update.visit_deleting ha hlast (picks_of_allows hremove) hd ⟨doc, []⟩ rfl with
        hvisit | ⟨-, o, hvisit, hdoc, hfail⟩
      · left
        rw [removeOne_eq hlast hremove hd]
        exact update_of_visit hlast hallows hvisit
      · right
        have hend : p.deleteOne doc = o := update_of_visit hlast hallows hvisit
        rw [hend]
        exact ⟨hdoc, hfail⟩
    · right
      simp [deleteOne, update, hlast, hallows]

theorem modifyOne_eq [Libraries] (rewrite : List Value → Value → Option Value)
    (hlast : p.getLast? = some last) (hdescent : last ≠ .descent) (hd : doc.Plain) :
    p.modifyOne rewrite doc = ((Handler.rewriting rewrite).all
      (nodes .childrenFirst doc p ([], doc)) ⟨doc, []⟩).outcome := by
  have hallows : (Action.modify rewrite).allows last := by
    cases last with
    | descent => exact absurd rfl hdescent
    | _ => rfl
  rcases Update.visit_rewriting hlast hdescent hd ⟨doc, []⟩ rfl with hvisit | ⟨hstrict, -⟩
  · exact update_of_visit hlast hallows hvisit
  · cases hstrict

theorem updateOne_ends [Libraries] {a : Action} (hset : a.isSet = false)
    (hlast : p.getLast? = some last) (hallows : a.allows last) (hd : doc.Plain) :
    State.Ends a true ⟨doc, [], [⟨[], p, false, [[]]⟩]⟩ (p.update a true doc) := by
  cases a with
  | set w => cases hset
  | remove =>
    have ha : Action.remove.deletes := rfl
    exact Update.ends_of_offers hlast hallows
      (Update.visit_deleting ha hlast (picks_of_allows hallows) hd)
  | delete =>
    have ha : Action.delete.deletes := rfl
    have hpicks := picks_of_allows (allows_remove_of_delete hallows)
    exact Update.ends_of_offers hlast hallows (Update.visit_deleting ha hlast hpicks hd)
  | modify rewrite =>
    have hdescent : last ≠ .descent := by
      rintro rfl
      cases hallows
    exact Update.ends_of_offers hlast hallows (Update.visit_rewriting hlast hdescent hd)

/-- Let a path select nodes of a plain document, those below a value before the value itself
under a descent, else in the order of a query. A removal of one place deletes the first of
them, a rewriting is called on their values up to the first for which it gives a value and
exchanges that one, and nothing else changes. A deletion does what a removal does, or it fails
with the document as it was. -/
theorem updateOne_eq_first [Libraries] (p : Path) {doc : Value} (hd : doc.Plain) :
    let selected := nodes .childrenFirst doc p ([], doc)
    (selected.map (·.2)).Perm (p.get doc) ∧
    (.descent ∉ p → selected.map (·.2) = p.get doc) ∧
    (∀ n ∈ selected, doc.pointer? n.1 = some n.2) ∧
    (∀ last, p.getLast? = some last → Action.remove.allows last →
      p.removeOne doc =
        ⟨doc.deleteWhere fun l => decide (selected.head?.map (·.1) = some l), [], none⟩) ∧
    (∀ rewrite last, p.getLast? = some last → last ≠ .descent →
      (Declines rewrite [] (selected.map (·.2)) ∧
        p.modifyOne rewrite doc = ⟨doc, selected.map (·.2), none⟩) ∨
      ∃ early n late w d, selected = early ++ n :: late ∧
        Declines rewrite [] (early.map (·.2)) ∧ rewrite (early.map (·.2)) n.2 = some w ∧
        doc.put? n.1 w = some d ∧
        p.modifyOne rewrite doc = ⟨d, (early ++ [n]).map (·.2), none⟩) ∧
    (p.deleteOne doc = p.removeOne doc ∨
      (p.deleteOne doc).doc = doc ∧ (p.deleteOne doc).error.isSome) ∧
    ∀ a last, a.isSet = false → p.getLast? = some last → a.allows last →
      State.Ends a true ⟨doc, [], [⟨[], p, false, [[]]⟩]⟩ (p.update a true doc) := by
  intro selected
  have hroot : Node.At doc ([], doc) := rfl
  have hat : ∀ n ∈ selected, n.At doc := fun n hn =>
    at_of_mem_nodes hd.wellFormed .childrenFirst p hroot hn
  have hget : p.get doc = (nodes .parentsFirst doc p ([], doc)).map (·.2) :=
    (nodes_values p doc).symm
  refine ⟨?_, fun hdescent => ?_, hat, fun last hlast hallows => ?_,
    fun rewrite last hlast hdescent => ?_, deleteOne_cases hd,
    fun a last hset hlast hallows => updateOne_ends hset hlast hallows hd⟩
  · rw [hget]
    exact (nodes_perm doc p ([], doc)).map _
  · rw [hget, ← nodes_of_no_descent hdescent]
  · rw [removeOne_eq hlast hallows hd]
    exact Handler.all_deleting selected ⟨doc, []⟩
  · rw [modifyOne_eq rewrite hlast hdescent hd]
    rcases Handler.all_rewriting rewrite hat [] with
      ⟨hdeclines, hall⟩ | ⟨early, n, late, w, d, hsplit, hdeclines, hw, hput, hall⟩
    · refine Or.inl ⟨hdeclines, ?_⟩
      rw [hall]
      simp [Update.Visited.outcome, Update.Progress.finish, Update.Progress.hand]
    · refine Or.inr ⟨early, n, late, w, d, hsplit, hdeclines, hw, hput, ?_⟩
      rw [hall]
      rfl

/-- A name under a descent, where the deeper member comes first and a rewriting gives nothing
for it. -/
theorem updateOne_eq_first_of_nested :
    let p : Path := [.root, .descent, .child "a"]
    let inner : Value := .object [("a", .int 1)]
    let doc : Value := .object [("a", inner)]
    let rewrite : List Value → Value → Option Value := fun _ v =>
      if v.isContainer then some .null else none
    doc.Plain ∧ p.removeOne doc = ⟨.object [("a", .object [])], [], none⟩ ∧
      p.modifyOne rewrite doc = ⟨.object [("a", .null)], [.int 1, inner], none⟩ := by
  intro p inner doc rewrite
  have hd : doc.Plain := by decide
  obtain ⟨-, -, -, hremove, hmodify, -, -⟩ := updateOne_eq_first p hd
  have hselected : nodes .childrenFirst doc p ([], doc) =
      [([.key "a", .key "a"], .int 1), ([.key "a"], inner)] := by
    have hinner : nodes .childrenFirst doc [.descent, .child "a"] ([.key "a"], inner) =
        [([.key "a", .key "a"], .int 1)] := by
      rw [nodes_descent_childrenFirst, nodes]
      rfl
    have hbelow : containers (Value.entries doc) = [(.key "a", inner)] := rfl
    rw [nodes_root, nodes_descent_childrenFirst, hbelow, List.flatMap_singleton]
    exact congrArg₂ (· ++ ·) hinner (by rw [nodes]; rfl)
  rw [hselected] at hremove hmodify
  refine ⟨hd, hremove _ rfl rfl, ?_⟩
  have hlast : Fragment.child "a" ≠ .descent := by
    rintro ⟨⟩
  rcases hmodify rewrite _ rfl hlast with ⟨⟨-, hdeclines, -⟩, -⟩ |
    ⟨early, n, late, w, d, hsplit, -, hw, hput, hend⟩
  · cases hdeclines
  · cases early with
    | nil =>
      obtain ⟨rfl, -⟩ := List.cons.inj hsplit
      cases hw
    | cons m early =>
      obtain ⟨rfl, hrest⟩ := List.cons.inj hsplit
      cases early with
      | nil =>
        obtain ⟨rfl, -⟩ := List.cons.inj hrest
        cases hw
        cases hput
        exact hend
      | cons m early => simp at hrest

/-- A descent at the end of a path selects the document, but a rewriting does not take it. -/
theorem modifyOne_refuses_descent :
    let p : Path := [.root, .descent]
    let doc : Value := .int 1
    let rewrite : List Value → Value → Option Value := fun _ _ => some (.int 11)
    Path.parse "$.." = .ok p ∧ doc.Plain ∧ nodes .childrenFirst doc p ([], doc) = [([], doc)] ∧
      p.modifyOne rewrite doc = ⟨doc, [], some (.illegalEnd "modify" "Descent")⟩ ∧
      p.modifyOne rewrite doc ≠ ⟨.int 11, [doc], none⟩ := by
  intro p doc rewrite
  have refused : p.modifyOne rewrite doc =
      ⟨doc, [], some (.illegalEnd "modify" "Descent")⟩ := rfl
  have hselected : nodes .childrenFirst doc p ([], doc) = [([], doc)] := by
    rw [nodes_root, nodes, Fragment.nodes, Node.subtree_eq]
    rfl
  refine ⟨rfl, by decide, hselected, refused, ?_⟩
  rw [refused]
  intro h
  cases congrArg Update.Outcome.error h

end DocPath.Path
