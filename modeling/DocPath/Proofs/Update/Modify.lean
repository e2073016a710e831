import DocPath.Builtin
import DocPath.Proofs.Query.Ahead
import DocPath.Proofs.Update.Remove
import DocPath.Proofs.Value.Rewriting
import DocPath.Proofs.Value.Writing

/-!
# Modifying is rewriting what was selected

A rewriting may put anything in the place of a value. What it puts there is not looked into
by the same update: below a descent the deeper places are rewritten first, and the path then
reads no further down than to the places that it selects next.
-/

namespace DocPath

open DocPath.Path (Inward Steady aims behind containers locations nodes)
open Update (chosen)

variable {f : Value → Option Value} {before rest : Path} {g h : Fragment} {doc v : Value}
  {p : Path} {loc : Location}

theorem Value.inward_rewriteWhere (f : Value → Option Value) : Inward (Value.rewriteWhere f) := by
  intro asked v hdeep
  have here : asked [] = false := Bool.eq_false_iff.mpr fun h => absurd (hdeep [] h) (by simp)
  rw [Value.rewriteWhere_of_not here, Value.rewriteBelow_eq]

/-- Rewritings further down leave a value as plain as it was. -/
theorem Value.PlainTo.rewriteWhere {n : Nat} (hv : v.PlainTo n) {early : Location → Bool}
    (hearly : ∀ l, early l → n ≤ l.length) : (v.rewriteWhere f early).PlainTo n := by
  induction n generalizing v early with
  | zero => trivial
  | succ n ih =>
    obtain ⟨hk, hn, hc⟩ := hv
    have here : early [] = false := Bool.eq_false_iff.mpr fun h => absurd (hearly [] h) (by simp)
    rw [Value.rewriteWhere_of_not here, Value.rewriteBelow_eq]
    refine ⟨(Value.revise_kind _ v).symm ▸ hk, hn.sublist (Value.revise_names_sublist v), ?_⟩
    intro s c hs
    rw [Value.step?_reviseAll hk] at hs
    obtain ⟨c, hstep, rfl⟩ := Option.map_eq_some_iff.mp hs
    exact ih (hc s c hstep) fun l hl => Nat.le_of_succ_le_succ (hearly (s :: l) hl)

namespace Path

variable [Libraries]

def Legible (p : Path) (v : Value) : Prop :=
  v.Plain ∨ (∀ f ∈ p, f.picks) ∧ v.PlainTo p.length

omit [Libraries] in
theorem Legible.container (hv : Legible (g :: rest) v) :
    v.kind.isJson ∧ v.names.Nodup ∧ ∀ s c, v.step? s = some c → Legible rest c := by
  rcases hv with hplain | ⟨hpicks, hk, hn, hc⟩
  · obtain ⟨hk, hn, -⟩ := Value.formed_iff.mp hplain
    exact ⟨hk, hn, fun s c hs => Or.inl (Value.formed_step? hplain hs)⟩
  · have picks : ∀ f ∈ rest, f.picks := fun f hf => hpicks f (List.mem_cons_of_mem g hf)
    exact ⟨hk, hn, fun s c hs => Or.inr ⟨picks, hc s c hs⟩⟩

omit [Libraries] in
theorem Legible.plain (hv : Legible (.descent :: rest) v) : v.Plain := by
  rcases hv with hplain | ⟨hpicks, -⟩
  · exact hplain
  · cases hpicks .descent List.mem_cons_self

/-- The values that a rewriting is asked about on the way of a path, in turn: those that it
selects, each after the selected ones below it have been rewritten. -/
def handed (f : Value → Option Value) (doc : Value) (p : Path) (v : Value) : List Value :=
  (nodes .childrenFirst doc p ([], v)).map fun n =>
    n.2.rewriteBelow f fun l => aims doc p v (n.1 ++ l)

theorem handed_last (hg : g.picks) (f : Value → Option Value) (doc v : Value) :
    handed f doc [g] v = (chosen g doc v).map (·.2) := by
  rw [handed, nodes, Fragment.nodes_of_picks hg, List.map_map]
  refine List.map_congr_left fun e _ => ?_
  exact Value.rewriteBelow_eq_self (fun l hl =>
    eq_nil_of_mem_locations_last hg (of_decide_eq_true hl)) e.2

/-- What lies behind the steps to some children is handed over child by child. -/
theorem handed_behind {es : List (Step × Value)} (asked : Location → Bool) {q : Path}
    (hasked : ∀ e ∈ es, ∀ n ∈ nodes .childrenFirst doc q ([], e.2), ∀ s l,
      asked (e.1 :: (n.1 ++ s :: l)) = aims doc q e.2 (n.1 ++ s :: l)) :
    (es.flatMap fun e => (nodes .childrenFirst doc q ([], e.2)).map (Node.below [e.1])).map
        (fun n => n.2.rewriteBelow f fun l => asked (n.1 ++ l)) =
      es.flatMap fun e => handed f doc q e.2 := by
  rw [List.map_flatMap]
  refine List.flatMap_congr fun e he => ?_
  rw [handed, List.map_map]
  refine List.map_congr_left fun n hn => ?_
  exact Value.rewriteBelow_congr (hasked e he n hn) n.2

theorem Steady.handed_through (hp : Steady (h :: rest)) (hg : g.picks) (hn : v.names.Nodup)
    (hes : ∀ e ∈ containers (chosen g doc v), e ∈ v.entries) :
    handed f doc (g :: h :: rest) v =
      (containers (chosen g doc v)).flatMap fun e => handed f doc (h :: rest) e.2 := by
  rw [handed, hp.downward.nodes_through hg, hp.downward.aims_through hg]
  refine handed_behind (fun l => decide (l ∈ behind (containers (chosen g doc v)) _))
    fun e he n _ s l => ?_
  exact decide_eq_decide.mpr (cons_mem_behind hn hes he)

section descent

variable (flat : ∀ f ∈ g :: rest, f.picks ∧ f.isFilter = false) (more : Steady (g :: rest))
  (hv : v.Plain)
include flat more hv

/-- What a descent selects below a value is handed over child by child. -/
theorem Steady.handed_descent_below :
    ((containers v.entries).flatMap fun e =>
        nodes .childrenFirst doc (.descent :: g :: rest) (Node.child ([], v) e)).map
        (fun n => n.2.rewriteBelow f fun l =>
          aims doc (.descent :: g :: rest) v (n.1 ++ l)) =
      (containers v.entries).flatMap fun e => handed f doc (.descent :: g :: rest) e.2 := by
  have hp := Steady.descent flat more
  have hall : ∀ f ∈ g :: rest, f.picks := fun f hf => (flat f hf).1
  have below : ∀ e ∈ containers v.entries,
      nodes .childrenFirst doc (.descent :: g :: rest) (Node.child ([], v) e) =
        (nodes .childrenFirst doc (.descent :: g :: rest) ([], e.2)).map (Node.below [e.1]) :=
    fun e _ => hp.downward.nodes_below .childrenFirst doc [e.1] e.2
  rw [List.flatMap_congr below]
  refine handed_behind (aims doc (.descent :: g :: rest) v)
    fun e he n hmem s l => decide_eq_decide.mpr ?_
  have hcount := hp.countP_le_length (mem_locations_of_mem_nodes hmem)
  rw [List.countP_cons_of_neg (by decide), List.countP_eq_length.mpr hall] at hcount
  rw [mem_locations_descent_of_lt hall]
  · exact cons_mem_behind (Value.formed_iff.mp hv).2.1
      (fun e he => (containers_sublist _).subset he) he
  · simp only [List.length_cons, List.length_append] at hcount ⊢
    omega

/-- After that, what the path selects at the value itself is handed over as it has become. -/
theorem Steady.handed_descent_here {v' : Value} (hv' : v' = v.rewriteWhere f fun l =>
      decide (l ∈ behind (containers v.entries) (locations doc (.descent :: g :: rest)))) :
    (nodes .childrenFirst doc (g :: rest) ([], v)).map (fun n => n.2.rewriteBelow f fun l =>
        aims doc (.descent :: g :: rest) v (n.1 ++ l)) =
      handed f doc (g :: rest) v' := by
  have hp := Steady.descent flat more
  have hall : ∀ f ∈ g :: rest, f.picks := fun f hf => (flat f hf).1
  have hdeep : ∀ l, decide (l ∈ behind (containers v.entries)
      (locations doc (.descent :: g :: rest))) → (g :: rest).length < l.length :=
    fun l hl => length_lt_of_mem_behind hall (of_decide_eq_true hl)
  rw [handed, hv', more.nodes_inward flat (Value.inward_rewriteWhere f) hdeep hv,
    more.aims_inward flat (Value.inward_rewriteWhere f) hdeep hv, List.map_map]
  refine List.map_congr_left fun n hmem => ?_
  have hlength := length_of_mem_locations hall (mem_locations_of_mem_nodes hmem)
  -- no other place that is selected here lies in this one
  have nothing : ∀ l, aims doc (g :: rest) v (n.1 ++ l) → l = [] := by
    intro l hl
    have hlength' := length_of_mem_locations hall (of_decide_eq_true hl)
    rw [List.length_append, hlength] at hlength'
    exact List.eq_nil_of_length_eq_zero (by omega)
  have here : decide (n.1 ++ [] ∈ behind (containers v.entries)
      (locations doc (.descent :: g :: rest))) = false := by
    refine Bool.eq_false_iff.mpr fun hl => ?_
    have hlt := hdeep _ hl
    rw [List.append_nil, hlength] at hlt
    exact Nat.lt_irrefl _ hlt
  simp only [Function.comp_apply]
  rw [Value.rewriteBelow_eq_self nothing, Value.rewriteWhere_of_not here]
  refine Value.rewriteBelow_congr (fun s l => decide_eq_decide.mpr ?_) n.2
  refine mem_locations_descent_of_lt hall ?_
  rw [List.length_append, hlength]
  exact Nat.lt_add_of_pos_right (Nat.succ_pos _)

theorem Steady.handed_descent {v' : Value} (hv' : v' = v.rewriteWhere f fun l =>
      decide (l ∈ behind (containers v.entries) (locations doc (.descent :: g :: rest)))) :
    handed f doc (.descent :: g :: rest) v =
      ((containers v.entries).flatMap fun e => handed f doc (.descent :: g :: rest) e.2) ++
        handed f doc (g :: rest) v' := by
  rw [handed, nodes_descent_childrenFirst, List.map_append]
  exact congrArg₂ _ (handed_descent_below flat more hv) (handed_descent_here flat more hv hv')

theorem Steady.legible_descent {v' : Value} (hv' : v' = v.rewriteWhere f fun l =>
      decide (l ∈ behind (containers v.entries) (locations doc (.descent :: g :: rest)))) :
    Legible (g :: rest) v' := by
  have hall : ∀ f ∈ g :: rest, f.picks := fun f hf => (flat f hf).1
  refine Or.inr ⟨hall, hv' ▸ (hv.plainTo _).rewriteWhere fun l hl => ?_⟩
  have hp := Steady.descent flat more
  exact Nat.le_of_lt (length_lt_of_mem_behind hall (of_decide_eq_true hl))

/-- Under a descent, what is selected below a value can be rewritten before what is selected at
the value itself. -/
theorem Steady.rewriteWhere_descent {v' : Value} (hv' : v' = v.rewriteWhere f fun l =>
      decide (l ∈ behind (containers v.entries) (locations doc (.descent :: g :: rest)))) :
    v'.rewriteWhere f (aims doc (g :: rest) v') =
      v.rewriteWhere f (aims doc (.descent :: g :: rest) v) := by
  have hp := Steady.descent flat more
  have hall : ∀ f ∈ g :: rest, f.picks := fun f hf => (flat f hf).1
  have hdeep : ∀ l, decide (l ∈ behind (containers v.entries)
      (locations doc (.descent :: g :: rest))) → (g :: rest).length < l.length :=
    fun l hl => length_lt_of_mem_behind hall (of_decide_eq_true hl)
  have hlate : ∀ l, aims doc (g :: rest) v l →
      l.length ≤ (g :: rest).length := fun l hl =>
    Nat.le_of_eq (length_of_mem_locations hall (of_decide_eq_true hl))
  have both : aims doc (.descent :: g :: rest) v = fun l =>
      decide (l ∈ behind (containers v.entries) (locations doc (.descent :: g :: rest))) ||
        aims doc (g :: rest) v l := by
    funext l
    rw [← Bool.decide_or, decide_eq_decide, hp.downward.locations_descent, List.mem_append, or_comm]
  rw [hv', more.aims_inward flat (Value.inward_rewriteWhere f) hdeep hv,
    Value.rewriteWhere_rewriteWhere hlate hdeep, both]

end descent

end Path

namespace Update

open DocPath.Path (Legible handed containers_sublist)

variable {call : Location → Progress → Option Visited}
variable [Libraries]

/-- The action of a rewriting that knows nothing but the value it is asked about. -/
abbrev rewriting (f : Value → Option Value) : Action := .modify fun _ v => f v

omit [Libraries] in
/-- Different children are rewritten one after the other, each once. -/
theorem rewriteAll_answered (place : Place) (es : List (Step × Value))
    (hnodup : (es.map (·.1)).Nodup) (hk : v.kind.isJson) (hn : v.names.Nodup)
    (hes : ∀ e ∈ es, e ∈ v.entries) (changed : Bool) (seen : List Value) :
    ∃ changed', rewriteAll place false (fun _ v => f v) (es.map (·.1)) ⟨v, changed, seen⟩ =
      (⟨v.reviseAll fun s c => if s ∈ es.map (·.1) then Value.answered f true c else c, changed',
        (es.map (·.2)).reverse ++ seen⟩, none) := by
  induction es generalizing v changed seen with
  | nil =>
    have same : (v.reviseAll fun s c => if s ∈ ([] : List (Step × Value)).map (·.1)
        then Value.answered f true c else c) = v := by simpa using Value.reviseAll_id v
    exact ⟨changed, by rw [same]; rfl⟩
  | cons e es ih =>
    rw [List.map_cons, List.nodup_cons] at hnodup
    have he := hes e List.mem_cons_self
    have hstep := Value.step?_of_mem_entries hn he
    obtain ⟨v', hv'⟩ := Value.exists_putStep? hstep (Value.answered f true e.2)
    have hrev := Value.putStep?_eq_reviseAll hk hn hv'
    -- one round of the loop leaves `v'`, whether there was an answer or not
    have round : ∃ changed', rewriteAll place false (fun _ v => f v) ((e :: es).map (·.1))
        ⟨v, changed, seen⟩ =
          rewriteAll place false (fun _ v => f v) (es.map (·.1)) ⟨v', changed', e.2 :: seen⟩ := by
      cases hf : f e.2 with
      | none =>
        have same : v' = v := by
          rw [Value.answered, hf] at hv'
          exact Option.some.inj (hv'.symm.trans (Value.putStep?_step? hstep))
        exact ⟨changed, by simp only [List.map_cons, rewriteAll, hstep, hf, same]⟩
      | some w =>
        have hwrite : v.writeChild e.1 w = .ok v' := by
          rw [Value.answered, hf] at hv'
          exact Value.writeChild_of_putStep? hk hv'
        refine ⟨true, ?_⟩
        simp only [List.map_cons, rewriteAll, hstep, hf, hwrite, Bool.false_eq_true, if_false]
    obtain ⟨changed', hround⟩ := round
    have hrest : ∀ e' ∈ es, e' ∈ v'.entries := fun e' he' =>
      mem_entries_of_exchange hk hn hnodup.1 hv' he' (hes e' (List.mem_cons_of_mem e he'))
    have hk' : v'.kind.isJson := by rw [Value.putStep?_kind hv']; exact hk
    have hn' : v'.names.Nodup := by rw [Value.putStep?_names hv']; exact hn
    obtain ⟨changed'', hall⟩ := ih hnodup.2 hk' hn' hrest changed' (e.2 :: seen)
    rw [hrev, reviseAll_exchange hn he hnodup.1, ← hrev] at hall
    refine ⟨changed'', ?_⟩
    rw [hround, hall, List.map_cons, List.map_cons, List.reverse_cons, List.append_assoc]
    rfl

/-- A visit of a location rewrites what a path selects below it, inner values first, and asks
about each once. -/
def Rewrites (f : Value → Option Value) (doc : Value) (p : Path)
    (call : Location → Progress → Option Visited) : Prop :=
  ∀ loc v, Legible p v → Exchanges (rewriting f) call loc v
    (v.rewriteWhere f (aims doc p v)) (handed f doc p v)

/-- To rewrite where the last fragment leads is to rewrite the children that it chooses. -/
theorem reviseAll_eq_rewriteWhere (hg : g.picks) (f : Value → Option Value) (doc v : Value) :
    (v.reviseAll fun s c =>
        if s ∈ (chosen g doc v).map (·.1) then Value.answered f true c else c) =
      v.rewriteWhere f (aims doc [g] v) := by
  have here : aims doc [g] v [] = false := by
    rw [aims, Path.locations_last hg]
    simp
  rw [Value.rewriteWhere_of_not here, Value.rewriteBelow_eq]
  refine Value.reviseAll_congr fun e _ => ?_
  have below : ∀ l, aims doc [g] v (e.1 :: l) → l = [] := fun l hl =>
    Path.eq_nil_of_mem_locations_last hg (of_decide_eq_true hl)
  rw [Value.rewriteWhere, Value.rewriteBelow_eq_self below]
  by_cases hmem : e.1 ∈ (chosen g doc v).map (·.1)
  · rw [if_pos hmem, aims, decide_eq_true ((Path.mem_locations_last hg).mpr hmem)]
  · rw [if_neg hmem, aims, decide_eq_false fun h => hmem ((Path.mem_locations_last hg).mp h)]
    rfl

/-- The last fragment rewrites the children that it selects. -/
theorem act_rewrites (hg : g.picks) (free : g.rootFree) (apart : g.apart)
    (f : Value → Option Value) (doc : Value) (before : Path) :
    Rewrites f doc [g] (visit (rewriting f) false before [g]) := by
  intro loc v hv r hr
  obtain ⟨hk, hn, -⟩ := hv.container
  rcases targets_picks (a := rewriting f) rfl before hg r.doc v with htargets | ⟨hstrict, -⟩
  · obtain ⟨changed, hall⟩ := rewriteAll_answered (f := f) ⟨before, g⟩
      (chosen g r.doc v) (chosen_nodup apart r.doc hn) hk hn
      (fun e he => Value.mem_entries_of_step? hk (step?_of_mem_chosen hn he)) false r.seen
    obtain ⟨d, hput⟩ := Value.exists_put? hr
      (v.rewriteWhere f (aims doc [g] v))
    refine Or.inl ⟨d, hput, ?_⟩
    rw [← reviseAll_eq_rewriteWhere hg, ← chosen_of_rootFree free r.doc doc v] at hput
    rw [Path.handed_last hg, ← chosen_of_rootFree free r.doc doc v]
    simp only [visit, Progress.act, apply_picks hg, applyChildren, actAt, hr, htargets, actOn,
      hall, hput]
    simp [Progress.hand]
  · cases hstrict

/-- A descent rewrites what is selected below a value, and then what is selected at the value. -/
theorem underneath_rewrites (flat : ∀ f ∈ g :: rest, f.picks ∧ f.isFilter = false)
    (more : Steady (g :: rest)) (h : Rewrites f doc (g :: rest) call) :
    Rewrites f doc (.descent :: g :: rest) (underneath call) := by
  intro loc v hv
  have hv := hv.plain
  induction v using Value.childrenInduction generalizing loc with
  | step v ih =>
    obtain ⟨hk, hn, hc⟩ := Value.formed_iff.mp hv
    have hsub := containers_sublist v.entries
    have hchild : ∀ e ∈ containers v.entries, e.2 ∈ v.children := fun e he =>
      Value.mem_children_of_mem_entries (hsub.subset he)
    have below := inTurn_inward (Value.inward_rewriteWhere f) (.descent flat more) doc _
      (containers v.entries) ((Value.steps_nodup hn).sublist (hsub.map _)) hk hn
      (fun e he => hsub.subset he)
      (fun e he => ih e.2 (hchild e he) (loc ++ [e.1]) (Or.inl (hc e.2 (hchild e he)))
        (hc e.2 (hchild e he)))
    have both := below.andThen (h loc _ (Path.Steady.legible_descent flat more hv rfl))
    rw [Path.Steady.rewriteWhere_descent flat more hv rfl,
      ← Path.Steady.handed_descent flat more hv rfl] at both
    intro r hr
    rw [underneath_of_pointer? hr]
    exact both r hr

/-- A visit rewrites what its path selects. -/
theorem visit_rewrites (f : Value → Option Value) (hp : Steady p) (hapart : ∀ g ∈ p, g.apart)
    (doc : Value) (before : Path) :
    Rewrites f doc p (visit (rewriting f) false before p) := by
  induction hp generalizing before with
  | last picks free => exact act_rewrites picks free (hapart _ List.mem_cons_self) f doc before
  | @through g h rest picks free apart more ih =>
    intro loc v hv r hr
    obtain ⟨hk, hn, hc⟩ := hv.container
    rcases visit_picks (a := rewriting f) rfl false before picks h rest r hr with
      hvisit | ⟨hstrict, -⟩
    · have hsub := containers_sublist (chosen g doc v)
      have hstep : ∀ e ∈ containers (chosen g doc v), v.step? e.1 = some e.2 :=
        fun e he => step?_of_mem_chosen hn (hsub.subset he)
      have hes : ∀ e ∈ containers (chosen g doc v), e ∈ v.entries :=
        fun e he => Value.mem_entries_of_step? hk (hstep e he)
      have onward := ih (fun g hg => hapart g (List.mem_cons_of_mem _ hg)) (before ++ [g])
      have all := inTurn_inward (Value.inward_rewriteWhere f) more doc _ _
        ((chosen_nodup apart doc hn).sublist (hsub.map _)) hk hn hes
        (fun e he => onward (loc ++ [e.1]) e.2 (hc e.1 e.2 (hstep e he))) r hr
      rw [hvisit, chosen_of_rootFree free r.doc doc v, more.downward.aims_through picks,
        more.handed_through picks hn hes]
      exact all
    · cases hstrict
  | descent flat more ih =>
    exact underneath_rewrites flat more
      (ih (fun g hg => hapart g (List.mem_cons_of_mem _ hg)) (before ++ [.descent]))

end Update

namespace Path

open Update (rewriting State)

/-- A path that goes nowhere rewrites the document. -/
theorem visit_itself_rewrites [Libraries] (hg : ¬g.moves) (f : Value → Option Value) (doc : Value) :
    Update.Exchanges (rewriting f) (Update.visit (rewriting f) false [] [g]) [] doc
      (doc.rewriteWhere f (aims doc [g] doc)) (handed f doc [g] doc) := by
  have only : aims doc [g] doc = fun l => decide (l ∈ [([] : Location)]) := by
    funext l
    rw [aims, locations, nodes_itself hg]
    rfl
  have nothing : ∀ l, decide (l ∈ [([] : Location)]) → l = [] := fun l hl =>
    List.mem_singleton.mp (of_decide_eq_true hl)
  have before : handed f doc [g] doc = [doc] := by
    rw [handed, nodes_itself hg, only]
    exact congrArg (fun w => [w]) (Value.rewriteBelow_eq_self nothing doc)
  have after : doc.rewriteWhere f (aims doc [g] doc) =
      Value.answered f true doc := by
    rw [only, Value.rewriteWhere, Value.rewriteBelow_eq_self nothing]
    rfl
  intro r hr
  obtain rfl := Option.some.inj hr
  refine Or.inl ⟨_, rfl, ?_⟩
  rw [before, after, Update.visit, Update.Progress.act]
  cases g with
  | root | current | bracket =>
    cases hf : f r.doc <;>
      simp [Update.apply, Update.applySelf, Update.actAt, Value.pointer?, Update.rewriteSelf,
        Value.answered, hf, Update.Progress.hand]
  | _ => exact absurd rfl hg

/-- Apart from a first fragment that stays at the document, foreseeable paths are steady. -/
theorem Foreseeable.steady_cases (hforeseeable : p.Foreseeable) (hp : p.Anchored)
    {last : Fragment} (hlast : p.getLast? = some last) (hdescent : last ≠ .descent)
    (hapart : ∀ g ∈ p, g.apart) :
    Steady p ∨ ∃ g q, ¬g.moves ∧ p = g :: q ∧ (q = [] ∨ Steady q) := by
  have picks : last.moves → last.picks := by
    intro hmoves
    refine picks_of_moves hmoves ?_
    cases last with
    | descent => exact absurd rfl hdescent
    | _ => rfl
  have early : ∀ g ∈ p.dropLast, g.apart := fun g hg => hapart g (List.dropLast_subset p hg)
  cases p with
  | nil => cases hlast
  | cons g rest =>
    by_cases hg : g.moves
    · have hmoves : ∀ f ∈ g :: rest, f.moves := List.forall_mem_cons.mpr ⟨hg, hp⟩
      exact Or.inl (hforeseeable.steady hmoves hlast
        (picks (hmoves last (List.mem_of_getLast? hlast))) early)
    · refine Or.inr ⟨g, rest, hg, rfl, ?_⟩
      cases rest with
      | nil => exact Or.inl rfl
      | cons h rest =>
        have hlast : (h :: rest).getLast? = some last := by simpa using hlast
        rw [List.dropLast_cons_cons, List.forall_mem_cons] at early
        exact Or.inr (hforeseeable.tail.steady hp hlast
          (picks (hp last (List.mem_of_getLast? hlast))) early.2)

section anchored

variable (hp : p.Anchored) {last : Fragment} (hlast : p.getLast? = some last)
  (hdescent : last ≠ .descent) (hapart : ∀ g ∈ p, g.apart) (hforeseeable : p.Foreseeable)
  (hd : doc.Plain)
include hp hlast hdescent hapart hforeseeable hd

/-- At the document itself, an anchored path rewrites what it selects there. -/
theorem visit_anchored_rewrites [Libraries] (f : Value → Option Value) :
    Update.Exchanges (rewriting f) (Update.visit (rewriting f) false [] p) [] doc
      (doc.rewriteWhere f (aims doc p doc)) (handed f doc p doc) := by
  rcases hforeseeable.steady_cases hp hlast hdescent hapart with
    hsteady | ⟨g, q, hg, rfl, rfl | hsteady⟩
  · exact Update.visit_rewrites f hsteady hapart doc [] [] doc (Or.inl hd)
  · exact visit_itself_rewrites hg f doc
  · have hrest := Update.visit_rewrites f hsteady
      (fun g hg => hapart g (List.mem_cons_of_mem _ hg)) doc [g] [] doc (Or.inl hd)
    obtain ⟨h, rest, rfl⟩ := List.exists_cons_of_ne_nil hsteady.ne_nil
    have same : aims doc (g :: h :: rest) doc = aims doc (h :: rest) doc := by
      funext l
      rw [aims, locations_of_not_moves hg]
    rw [handed, nodes_of_not_moves hg, same]
    cases g with
    | root | current | bracket => exact hrest
    | _ => exact absurd rfl hg

theorem locations_nodup [Libraries] : (locations doc p doc).Nodup := by
  rcases hforeseeable.steady_cases hp hlast hdescent hapart with
    hsteady | ⟨g, q, hg, rfl, rfl | hsteady⟩
  · exact hsteady.locations_nodup hapart hd.wellFormed
  · rw [locations, nodes_itself hg]
    exact List.nodup_singleton _
  · obtain ⟨h, rest, rfl⟩ := List.exists_cons_of_ne_nil hsteady.ne_nil
    rw [locations_of_not_moves hg]
    exact hsteady.locations_nodup (fun g hg => hapart g (List.mem_cons_of_mem _ hg))
      hd.wellFormed

end anchored

/-- Modifying asks the rewriting once about every place that the path selects in the document
as it was, about inner ones before those around them, and ends without an error. Each place
then holds the answer, or the value asked about where there is none, as long as no place around
it is rewritten too. What is neither selected nor inside a selected place keeps its shape. -/
theorem modify_eq_rewriteWhere [Libraries] {text : String} (hp : Path.parse text = .ok p)
    (hne : p ≠ []) (hdescent : p.getLast? ≠ some .descent) (hapart : ∀ g ∈ p, g.apart)
    (hforeseeable : p.Foreseeable) (hd : doc.Plain) (f : Value → Option Value) :
    let selected := nodes .childrenFirst doc p ([], doc)
    let asked : Location → Bool := fun l => decide (l ∈ selected.map (·.1))
    let result := doc.rewriteWhere f asked
    let seen := selected.map fun n => n.2.rewriteBelow f fun l => asked (n.1 ++ l)
    (selected.map (·.1)).Nodup ∧ (selected.map (·.2)).Perm (p.get doc) ∧
      (∀ n ∈ selected, doc.pointer? n.1 = some n.2) ∧
      p.modify (fun _ v => f v) doc = ⟨result, seen, none⟩ ∧
      State.Ends (rewriting f) false ⟨doc, [], [⟨[], p, false, [[]]⟩]⟩ ⟨result, seen, none⟩ ∧
      (∀ l v, doc.pointer? l = some v → (∀ m, m <+: l → m ≠ l → asked m = false) →
        result.pointer? l = some (v.rewriteWhere f fun m => asked (l ++ m))) ∧
      ∀ l v, doc.pointer? l = some v → (∀ m, m <+: l → asked m = false) →
        ∃ w, result.pointer? l = some w ∧ w.kind = v.kind ∧ w.steps = v.steps ∧
          (v.isContainer = false → w = v) := by
  intro selected asked result seen
  obtain ⟨last, hlast⟩ := Option.ne_none_iff_exists'.mp (mt List.getLast?_eq_none_iff.mp hne)
  have hnot : last ≠ .descent := fun h => hdescent (h ▸ hlast)
  have hanchored := anchored_of_parseBytes hp
  have hperm := nodes_perm doc p ([], doc)
  have hplaces : (selected.map (·.1)).Perm (locations doc p doc) := hperm.map _
  have hasked : aims doc p doc = asked :=
    funext fun l => decide_eq_decide.mpr hplaces.mem_iff.symm
  have hallows : (rewriting f).allows last := by
    cases last with
    | descent => exact absurd rfl hnot
    | _ => rfl
  have hvisit : Update.visit (rewriting f) false [] p [] ⟨doc, []⟩ =
      some (.ok (Update.Progress.hand ⟨result, []⟩ seen)) := by
    rcases visit_anchored_rewrites hanchored hlast hnot hapart hforeseeable hd f ⟨doc, []⟩ rfl with
      ⟨d, hput, hvisit⟩ | ⟨hstrict, -⟩
    · obtain rfl : _ = d := Option.some.inj ((Value.put?_nil _ _).symm.trans hput)
      have hseen : handed f doc p doc = seen := List.map_congr_left fun n _ =>
        congrArg (fun a => n.2.rewriteBelow f fun l => a (n.1 ++ l)) hasked
      rw [hvisit, hseen, hasked]
    · cases hstrict
  have hend : Update.Visited.outcome (.ok (Update.Progress.hand ⟨result, []⟩ seen)) =
      ⟨result, seen, none⟩ := by
    simp [Update.Visited.outcome, Update.Progress.finish, Update.Progress.hand]
  have hstays : ∀ l v, doc.pointer? l = some v → (∀ m, m <+: l → m ≠ l → asked m = false) →
      result.pointer? l = some (v.rewriteWhere f fun m => asked (l ++ m)) :=
    fun l v hv houter => Value.pointer?_rewriteWhere hd hv houter
  refine ⟨hplaces.nodup_iff.mpr ?_, ?_, fun n hn => ?_, ?_, ?_, hstays, fun l v hv hasked => ?_⟩
  · exact locations_nodup hanchored hlast hnot hapart hforeseeable hd
  · have hget : p.get doc = (nodes .parentsFirst doc p ([], doc)).map (·.2) :=
      (nodes_values p doc).symm
    rw [hget]
    exact hperm.map _
  · have hroot : Node.At doc ([], doc) := rfl
    exact at_of_mem_nodes hd.wellFormed .childrenFirst p hroot hn
  · exact (update_of_visit hlast hallows hvisit).trans hend
  · exact hend ▸ Update.ends_of_visit hvisit
  · refine ⟨_, hstays l v hv fun m hm _ => hasked m hm, ?_⟩
    have here : asked (l ++ []) = false := (List.append_nil l).symm ▸ hasked l (List.prefix_refl l)
    rw [Value.rewriteWhere_of_not here]
    exact ⟨Value.rewriteBelow_kind f _ v, Value.rewriteBelow_steps (Value.formed_iff.mp
      (Value.formed_pointer? hd hv)).1 f _, fun h => Value.rewriteBelow_of_not_isContainer h⟩

/-- A selected list whose first element is selected too: what is put around the list is put
around what has become of it. -/
theorem modify_eq_rewriteWhere_of_nested :
    let p : Path := [.root, .descent, .nth 0]
    let doc : Value := .object [("a", .array [.array [.int 1, .int 2], .int 3])]
    let wrap : Value → Option Value := fun v => some (.array [v])
    let wrapped : Value := .array [.array [.int 1], .int 2]
    Path.parse "$..[0]" = .ok p ∧ p.Foreseeable ∧ doc.Plain ∧
      p.modify (fun _ v => wrap v) doc =
        ⟨.object [("a", .array [.array [wrapped], .int 3])], [.int 1, wrapped], none⟩ := by
  intro p doc wrap wrapped
  have hp : Path.parse "$..[0]" = .ok p := rfl
  have hforeseeable : p.Foreseeable := Or.inl ⟨by decide, by decide⟩
  have hd : doc.Plain := by decide
  have hapart : ∀ g ∈ p, g.apart := by simp [p, Fragment.apart]
  obtain ⟨-, -, -, hmodify, -⟩ := modify_eq_rewriteWhere hp (List.cons_ne_nil _ _)
    (by simp [p]) hapart hforeseeable hd wrap
  let inner : Value := .array [.int 1, .int 2]
  let outer : Value := .array [inner, .int 3]
  have hlast : ∀ n : Node, nodes .childrenFirst doc [.nth 0] n = Fragment.nodes doc n (.nth 0) :=
    fun n => by rw [nodes]
  have hinner : ∀ l, nodes .childrenFirst doc [.descent, .nth 0] (l, inner) =
      [(l ++ [.index 0], .int 1)] := by
    intro l
    rw [nodes_descent_childrenFirst, hlast]
    rfl
  have houter : ∀ l, nodes .childrenFirst doc [.descent, .nth 0] (l, outer) =
      [(l ++ [.index 0] ++ [.index 0], .int 1), (l ++ [.index 0], inner)] := by
    intro l
    rw [nodes_descent_childrenFirst, hlast]
    exact congrArg (· ++ _) (List.flatMap_singleton .. |>.trans (hinner _))
  have all : nodes .childrenFirst doc p ([], doc) =
      [([.key "a", .index 0, .index 0], .int 1), ([.key "a", .index 0], inner)] := by
    rw [nodes_root, nodes_descent_childrenFirst, hlast]
    exact congrArg (· ++ _) (List.flatMap_singleton .. |>.trans (houter _))
  rw [all] at hmodify
  exact ⟨hp, hforeseeable, hd, hmodify⟩

/-- The path without fragments selects nothing and is refused. -/
theorem modify_of_empty_path :
    let p : Path := []
    Path.parse "" = .ok p ∧ p.getLast? ≠ some .descent ∧ (∀ g ∈ p, g.apart) ∧ p.Foreseeable ∧
      (Value.object []).Plain ∧
      (p.modify (fun _ _ => none) (.object [])).error = some (.emptyPath "modify") := by
  refine ⟨rfl, nofun, nofun, Or.inr nofun, by decide, rfl⟩

end Path
end DocPath
