import DocPath.Proofs.Update.Choice
import DocPath.Proofs.Value.Formed

/-!
# Updates that have changed nothing yet

As long as the document is as it was, an update that creates nothing comes to the nodes that
its path selects, one after the other, and under a descent to those below a value before the
value itself. No condition on the path is needed for that. What is done with a node is a
handler; the update of one place and the rewriting that keeps every value are two of them.
-/

namespace DocPath.Update

open DocPath.Path (containers containers_sublist nodes)

/-- What is done with a selected node. The update goes on only with the document as it is. -/
structure Handler where
  handle : Node → Progress → Visited
  doc_eq : ∀ {n r r'}, handle n r = .ok r' → r'.doc = r.doc

/-- Nodes are handled in turn, until one of them ends the update. -/
def Handler.all (h : Handler) (ns : List Node) (r : Progress) : Visited :=
  ns.foldlM (fun r n => h.handle n r) r

section handlers

variable {h : Handler} {n : Node} {ns ms : List Node} {r r' : Progress} {o : Outcome}

theorem Handler.all_nil (h : Handler) (r : Progress) : h.all [] r = .ok r := rfl

theorem Handler.all_singleton (h : Handler) (n : Node) (r : Progress) :
    h.all [n] r = h.handle n r := by
  rw [all, List.foldlM_cons]
  cases h.handle n r <;> rfl

theorem Handler.all_cons_of_ok (hn : h.handle n r = .ok r') :
    h.all (n :: ns) r = h.all ns r' := by
  rw [all, List.foldlM_cons, hn]
  rfl

theorem Handler.all_cons_of_error (hn : h.handle n r = .error o) :
    h.all (n :: ns) r = .error o := by
  rw [all, List.foldlM_cons, hn]
  rfl

theorem Handler.all_append_of_ok (hns : h.all ns r = .ok r') :
    h.all (ns ++ ms) r = h.all ms r' := by
  rw [all, List.foldlM_append]
  exact congrArg (· >>= fun r => h.all ms r) hns

theorem Handler.all_append_of_error (hns : h.all ns r = .error o) :
    h.all (ns ++ ms) r = .error o := by
  rw [all, List.foldlM_append]
  exact congrArg (· >>= fun r => h.all ms r) hns

theorem Handler.all_doc_eq (hns : h.all ns r = .ok r') : r'.doc = r.doc := by
  induction ns generalizing r with
  | nil =>
    cases hns
    rfl
  | cons n ns ih =>
    cases hn : h.handle n r with
    | error o =>
      rw [Handler.all_cons_of_error hn] at hns
      cases hns
    | ok first =>
      rw [Handler.all_cons_of_ok hn] at hns
      exact (ih hns).trans (h.doc_eq hn)

end handlers

/-- A call hands nodes of the document to the handler, or it fails where positions are checked
and leaves the document as it is. -/
def Offers (h : Handler) (a : Action) (doc : Value) (call : Progress → Option Visited)
    (ns : List Node) : Prop :=
  ∀ r : Progress, r.doc = doc → call r = some (h.all ns r) ∨
    a.isStrict ∧ ∃ o, call r = some (.error o) ∧ o.doc = doc ∧ o.error.isSome

variable {h : Handler} {a : Action} {one : Bool} {doc : Value} {loc : Location}
  {ns ms : List Node} {call next : Progress → Option Visited}
  {visitChild : Location → Progress → Option Visited}

theorem Offers.none (h : Handler) (a : Action) (doc : Value) :
    Offers h a doc (fun r => some (.ok r)) [] := fun _ _ => Or.inl rfl

theorem Offers.andThen (hc : Offers h a doc call ns) (hn : Offers h a doc next ms) :
    Offers h a doc (fun r => (call r).bind (Visited.andThen · next)) (ns ++ ms) := by
  intro r hr
  dsimp only
  rcases hc r hr with hcall | ⟨hstrict, o, ho, hfail⟩
  · cases hall : h.all ns r with
    | error o =>
      left
      rw [Handler.all_append_of_error hall, hcall, hall]
      rfl
    | ok r' =>
      have hstart : (call r).bind (Visited.andThen · next) = next r' := by
        rw [hcall, hall]
        rfl
      rw [hstart, Handler.all_append_of_ok hall]
      exact hn r' ((Handler.all_doc_eq hall).trans hr)
  · refine Or.inr ⟨hstrict, o, ?_, hfail⟩
    rw [ho]
    rfl

/-- Calls for children in turn hand over what each of them does. -/
theorem inTurn_offers (es : List (Step × Value)) (below : Step × Value → List Node)
    (hes : ∀ e ∈ es, Offers h a doc (visitChild (loc ++ [e.1])) (below e)) :
    Offers h a doc (inTurn visitChild ((es.map (·.1)).map fun s => loc ++ [s]))
      (es.flatMap below) := by
  induction es with
  | nil => exact .none h a doc
  | cons e es ih =>
    have first := hes e List.mem_cons_self
    exact first.andThen (ih fun e' he' => hes e' (List.mem_cons_of_mem e he'))

/-- A descent hands over the nodes below a value before those of the value itself. -/
theorem underneath_offers [Libraries] {g : Fragment} {rest : List Fragment} (hd : doc.WellFormed)
    (hnext : ∀ n : Node, n.At doc →
      Offers h a doc (visitChild n.1) (nodes .childrenFirst doc (g :: rest) n))
    {v : Value} (hv : doc.pointer? loc = some v) :
    Offers h a doc (underneath visitChild loc)
      (nodes .childrenFirst doc (.descent :: g :: rest) (loc, v)) := by
  induction v using Value.childrenInduction generalizing loc with
  | step v ih =>
    have hn := (Value.formed_iff.mp (Value.formed_pointer? hd hv)).2.1
    have below : Offers h a doc
        (inTurn (underneath visitChild)
          (((containers v.entries).map (·.1)).map fun s => loc ++ [s]))
        ((containers v.entries).flatMap fun e =>
          nodes .childrenFirst doc (.descent :: g :: rest) (Node.child (loc, v) e)) :=
      inTurn_offers _ _ fun e he => by
          have he := (containers_sublist _).subset he
          exact ih e.2 (Value.mem_children_of_mem_entries he)
            (Value.pointer?_snoc_of_step? hv (Value.step?_of_mem_entries hn he))
    rw [Path.nodes_descent_childrenFirst]
    intro r hr
    rw [underneath_of_pointer? (hr ▸ hv)]
    exact below.andThen (hnext (loc, v) hv) r hr

/-- A visit hands over the nodes that its path selects, provided that the last fragment does. -/
theorem visit_offers [Libraries] (hset : a.isSet = false) (hd : doc.WellFormed)
    (rest : List Fragment) (hlast : ∀ f before n, rest.getLast? = some f → Node.At doc n →
      Offers h a doc (fun r => some (r.act a one ⟨before, f⟩ n.1)) (f.nodes doc n))
    (before : List Fragment) (n : Node) (hn : n.At doc) :
    Offers h a doc (visit a one before rest n.1) (nodes .childrenFirst doc rest n) := by
  induction rest using Path.fragmentInduction generalizing before n with
  | nil =>
    rw [nodes]
    exact .none h a doc
  | last f =>
    rw [nodes]
    exact hlast f before n rfl hn
  | root g rest ih =>
    rw [Path.nodes_root]
    have hroot : Node.At doc ([], doc) := rfl
    exact ih (by simpa using hlast) _ ([], doc) hroot
  | current g rest ih =>
    rw [Path.nodes_current]
    exact ih (by simpa using hlast) _ n hn
  | bracket g rest ih =>
    rw [Path.nodes_bracket]
    exact ih (by simpa using hlast) _ n hn
  | descent g rest ih =>
    exact underneath_offers hd (ih (by simpa using hlast) (before ++ [.descent])) hn
  | pick f g rest hf ih =>
    have onward := ih (by simpa using hlast) (before ++ [f])
    have children := inTurn_offers (containers (chosen f doc n.2))
      (fun e => nodes .childrenFirst doc (g :: rest) (n.child e)) fun e he => by
        have hstep := step?_of_mem_chosen (hn.names_nodup hd) ((containers_sublist _).subset he)
        exact onward (n.child e) (hn.child hstep)
    rw [Path.nodes_picks hf]
    intro r hr
    rcases visit_picks hset one before hf g rest r (hr ▸ hn) with hvisit | ⟨hstrict, e, he⟩
    · rw [hvisit, hr]
      exact children r hr
    · exact Or.inr ⟨hstrict, _, he, hr, rfl⟩

end DocPath.Update
