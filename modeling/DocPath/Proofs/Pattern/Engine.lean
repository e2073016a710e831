import DocPath.Builtin
import DocPath.Proofs.Pattern.Reading

/-!
# The laws of the pattern reader

A pattern in a group is read as it is read alone, and what stands beside the group is read apart
from it. So the patterns that are read as trees obey the laws that filter scripts rely on.
-/

namespace DocPath.Pattern

variable {cs : List Char} {n : Node}

def group (cs more : List Char) : List Char := '(' :: '?' :: ':' :: (cs ++ ')' :: more)

theorem closing_group {more : List Char} (noBreak : '\n' ∉ more) (noColon : ':' ∉ more) :
    Closing (')' :: more) where
  head := ⟨_, rfl⟩
  noBreak := by simp [noBreak]
  noColon := by simp [noColon]

/-- A pattern in a group is read as it is alone, whatever closing text follows, unless a comment
is open at its end and swallows the parenthesis. -/
theorem readItem?_group (h : read? cs = some n) :
    ∃ (commented : Bool) (names : List String), ∀ fuel ≥ 4 * cs.length + 4, ∀ {more},
      Closing (')' :: more) → readItem? (fuel + 2) ⟨{}, []⟩ (group cs more) =
        if commented then none else some (.node n, ⟨{}, names⟩, more) := by
  unfold read? at h
  split at h
  · rename_i scope hread
    cases h
    obtain ⟨commented, -, hbody⟩ := (readOn _).alternatives hread
    refine ⟨commented, scope.names, fun fuel hle {more} ht => ?_⟩
    change groupBody? fuel ⟨{}, []⟩ ⟨{}, []⟩ (cs ++ ')' :: more) = _
    rw [groupBody?, hbody hle ht]
    cases commented <;> rfl
  · cases h

def Node.stopped (n : Node) : Node := .seq n (.seq (.place .textEnd) .empty)

def Node.enclosed (n : Node) : Node := .seq (.place .textStart) n.stopped

/-- The readings of a pattern in a group, alone, before `$` and between `^` and `$`. Either there
are all three of them or, when a comment is open, none. -/
theorem read?_group (h : read? cs = some n) :
    ∃ commented : Bool,
      read? (group cs []) = (if commented then none else some (.seq n .empty)) ∧
      read? (group cs ['$']) = (if commented then none else some n.stopped) ∧
      read? ('^' :: group cs ['$']) = if commented then none else some n.enclosed := by
  obtain ⟨commented, names, hgroup⟩ := readItem?_group h
  have length_group : ∀ more, (group cs more).length = cs.length + more.length + 4 := by
    intro more
    simp only [group, List.length_cons, List.length_append]
    omega
  have behind : ∀ k ≥ 4 * cs.length + 4, ∀ {more}, Closing (')' :: more) →
      readSequence? (k + 3) ⟨{}, []⟩ (group cs more) =
        if commented then none else readBehind? (k + 2) ⟨{}, names⟩ more (.node n) := by
    intro k hk more ht
    rw [group, readSequence?_item rfl (by decide) (by decide), ← group, hgroup k hk ht]
    cases commented <;> rfl
  have alone : ∀ k ≥ 4 * cs.length + 4, readSequence? (k + 3) ⟨{}, []⟩ (group cs []) =
      if commented then none else some (.seq n .empty, ⟨{}, names⟩, []) :=
    fun k hk => behind k hk (closing_group (by decide) (by decide))
  have stopped : ∀ k ≥ 4 * cs.length + 4, readSequence? (k + 3) ⟨{}, []⟩ (group cs ['$']) =
      if commented then none else some (n.stopped, ⟨{}, names⟩, []) :=
    fun k hk => behind k hk (closing_group (by decide) (by decide))
  have enclosed : ∀ k ≥ 4 * cs.length + 4, readSequence? (k + 4) ⟨{}, []⟩ ('^' :: group cs ['$']) =
      if commented then none else some (n.enclosed, ⟨{}, names⟩, []) := by
    intro k hk
    change (readSequence? (k + 3) ⟨{}, []⟩ (group cs ['$'])).bind _ = _
    rw [stopped k hk]
    cases commented <;> rfl
  refine ⟨commented, ?_, ?_, ?_⟩
  · have hfuel : 4 * (group cs []).length + 4 = (4 * cs.length + 16) + 4 := by
      rw [length_group, List.length_nil]
      omega
    rw [read?, hfuel, readAlternatives?, alone _ (by omega)]
    cases commented <;> rfl
  · have hfuel : 4 * (group cs ['$']).length + 4 = (4 * cs.length + 20) + 4 := by
      rw [length_group, List.length_singleton]
      omega
    rw [read?, hfuel, readAlternatives?, stopped _ (by omega)]
    cases commented <;> rfl
  · have hfuel : 4 * ('^' :: group cs ['$']).length + 4 = (4 * cs.length + 23) + 5 := by
      rw [List.length_cons, length_group, List.length_singleton]
      omega
    rw [read?, hfuel, readAlternatives?, enclosed _ (by omega)]
    cases commented <;> rfl

theorem toList_grouped (p : String) : (Regex.grouped p).toList = group p.toList [] := by
  simp [Regex.grouped, group]

theorem toList_grouped_stop (p : String) :
    (Regex.grouped p ++ "$").toList = group p.toList ['$'] := by
  simp [Regex.grouped, group]

theorem toList_start_grouped_stop (p : String) :
    ("^" ++ (Regex.grouped p ++ "$")).toList = '^' :: group p.toList ['$'] := by
  simp [Regex.grouped, group]

theorem length_toList_toArray (s : String) : s.toList.toArray.size = s.length := by
  rw [List.size_toArray, String.length_toList]

/-- Whether a pattern matches a string from the position `i` to the position `j`. -/
def Spans (p s : String) (i j : Nat) : Prop :=
  ∃ n, read? p.toList = some n ∧ i ≤ s.length ∧ n.Spans s.toList.toArray i j

theorem spans_iff {p s : String} {i j : Nat} (h : read? p.toList = some n) :
    Spans p s i j ↔ i ≤ s.length ∧ n.Spans s.toList.toArray i j := by
  simp [Spans, h]

theorem spans_iff_mem_ends {p s : String} {i j : Nat} (h : read? p.toList = some n) :
    Spans p s i j ↔ i ≤ s.toList.toArray.size ∧ j ∈ n.ends s.toList.toArray i := by
  rw [spans_iff h, ← length_toList_toArray]
  exact and_congr_right fun hi => (Node.mem_ends (read?_ordered h) hi).symm

theorem engine_compiles_iff {p : String} : engine.compiles p ↔ ∃ n, read? p.toList = some n :=
  Option.isSome_iff_exists

/-- When a pattern compiles in a group, alone or beside the anchors, it does so in all three
places. -/
theorem read?_grouped {p : String} (h : read? p.toList = some n)
    (hsome : engine.compiles (Regex.grouped p) ∨ engine.compiles (Regex.grouped p ++ "$") ∨
      engine.compiles ("^" ++ (Regex.grouped p ++ "$"))) :
    read? (Regex.grouped p).toList = some (.seq n .empty) ∧
      read? (Regex.grouped p ++ "$").toList = some n.stopped ∧
      read? ("^" ++ (Regex.grouped p ++ "$")).toList = some n.enclosed := by
  obtain ⟨commented, halone, hstopped, henclosed⟩ := read?_group h
  rw [← toList_grouped] at halone
  rw [← toList_grouped_stop] at hstopped
  rw [← toList_start_grouped_stop] at henclosed
  cases commented with
  | true =>
    rcases hsome with hone | hone | hone
    all_goals obtain ⟨m, hm⟩ := engine_compiles_iff.mp hone
    · cases halone.symm.trans hm
    · cases hstopped.symm.trans hm
    · cases henclosed.symm.trans hm
  | false => exact ⟨halone, hstopped, henclosed⟩

theorem engine_isMatch (h : read? cs = some n) (s : String) :
    engine.isMatch (String.ofList cs) s = n.occursIn s := by
  simp [engine, h]

theorem spans_start {s : String} {i j : Nat} : Spans "^" s i j ↔ i = 0 ∧ j = 0 := by
  have h : read? "^".toList = some (.seq (.place .textStart) .empty) := rfl
  rw [spans_iff h, ← length_toList_toArray]
  constructor
  · rintro ⟨hi, k, ⟨hstart, rfl⟩, rfl⟩
    have h0 := Node.eq_zero_of_charBefore hi (Option.isNone_iff_eq_none.mp hstart)
    exact ⟨h0, h0⟩
  · rintro ⟨rfl, rfl⟩
    exact ⟨Nat.zero_le _, 0, ⟨rfl, rfl⟩, rfl⟩

theorem spans_stop {s : String} {i j : Nat} : Spans "$" s i j ↔ i = s.length ∧ j = s.length := by
  have h : read? "$".toList = some (.seq (.place .textEnd) .empty) := rfl
  rw [spans_iff h, ← length_toList_toArray]
  constructor
  · rintro ⟨hi, k, ⟨hstop, rfl⟩, rfl⟩
    have hsize := Array.getElem?_eq_none_iff.mp (Option.isNone_iff_eq_none.mp hstop)
    have heq := Nat.le_antisymm hi hsize
    exact ⟨heq, heq⟩
  · rintro ⟨rfl, rfl⟩
    refine ⟨Nat.le_refl _, _, ⟨?_, rfl⟩, rfl⟩
    rw [Place.holds, Array.getElem?_eq_none (Nat.le_refl _)]
    rfl

theorem Node.spans_seq_empty {text : Array Char} {i j : Nat} :
    (Node.seq n .empty).Spans text i j ↔ n.Spans text i j := by
  simp [Node.Spans]

/-- What is read as an item and more is matched as these are one after the other. -/
theorem spans_beside {p x y : String} {a b : Node} (hp : read? p.toList = some (.seq a b))
    (hx : read? x.toList = some (.seq a .empty)) (hy : read? y.toList = some b) {s : String}
    {i j : Nat} : Spans p s i j ↔ ∃ k, Spans x s i k ∧ Spans y s k j := by
  simp only [spans_iff hp, spans_iff hx, spans_iff hy, Node.spans_seq_empty,
    ← length_toList_toArray]
  constructor
  · rintro ⟨hi, k, ha, hb⟩
    exact ⟨k, ⟨hi, ha⟩, ha.le_size a hi, hb⟩
  · rintro ⟨k, ⟨hi, ha⟩, -, hb⟩
    exact ⟨hi, k, ha, hb⟩

/-- Patterns that are read as trees obey the laws. -/
theorem engine_laws : engine.Laws Spans where
  isMatch_iff {p s} h := by
    obtain ⟨n, hread⟩ := engine_compiles_iff.mp h
    have hmatch := engine_isMatch hread s
    rw [String.ofList_toList] at hmatch
    rw [hmatch, Node.occursIn_iff (read?_ordered hread)]
    simp only [spans_iff hread, length_toList_toArray]
  start_iff := spans_start
  stop_iff := spans_stop
  grouped_iff {p s i j} h hgroup := by
    obtain ⟨n, hread⟩ := engine_compiles_iff.mp h
    obtain ⟨halone, -, -⟩ := read?_grouped hread (.inl hgroup)
    rw [spans_iff halone, spans_iff hread, Node.spans_seq_empty]
  before_stop {p} h hstop := by
    obtain ⟨n, hread⟩ := engine_compiles_iff.mp h
    obtain ⟨halone, hstopped, -⟩ := read?_grouped hread (.inr (.inl hstop))
    exact ⟨engine_compiles_iff.mpr ⟨_, halone⟩, spans_beside hstopped halone rfl⟩
  after_start {p} h hstart := by
    obtain ⟨n, hread⟩ := engine_compiles_iff.mp h
    obtain ⟨-, hstopped, henclosed⟩ := read?_grouped hread (.inr (.inr hstart))
    exact ⟨engine_compiles_iff.mpr ⟨_, hstopped⟩, spans_beside henclosed rfl hstopped⟩

/-- A pattern whose form binds it to both ends of a text matches no stretch but the whole. -/
theorem spans_whole {p s : String} {i j : Nat} (h : read? p.toList = some n) (start : n.fixesStart)
    (stop : n.fixesEnd) (hspan : Spans p s i j) : i = 0 ∧ j = s.length := by
  rw [spans_iff h, ← length_toList_toArray] at hspan
  rw [← length_toList_toArray]
  exact ⟨hspan.2.start_eq n start hspan.1, hspan.2.stop_eq n stop hspan.1⟩

end DocPath.Pattern
