import DocPath.Path.Parser

/-!
# Where a path may start

A path that has been read goes back to the document, or stays at the value at hand, at most
with its first fragment. All later fragments go down into the value. No reader gives a bracket
without anything in it, or a union of a single member.
-/

namespace DocPath

/-- Fragments that lead from a value to what is below it. -/
def Fragment.moves : Fragment → Bool
  | .root | .current | .bracket => false
  | _ => true

def Fragment.isDescent : Fragment → Bool
  | .descent => true
  | _ => false

def Fragment.Proper : Fragment → Prop
  | .bracket => False
  | .union keys => 2 ≤ keys.length
  | _ => True

def Path.Anchored (p : Path) : Prop := ∀ f ∈ p.tail, f.moves

theorem Path.Anchored.beginning {p q : Path} (h : Path.Anchored p) (hq : q <+: p) :
    q.Anchored := by
  obtain ⟨rest, rfl⟩ := hq
  cases q with
  | nil => exact nofun
  | cons f q => exact fun g hg => h g (List.mem_append_left rest hg)

/-- A reader gives only what has a property, when it succeeds. -/
def Yields {α : Type} (P : α → Prop) (x : Except Failure (α × Cursor)) : Prop :=
  ∀ a c, x = .ok (a, c) → P a

namespace Yields

variable {α β : Type} {P : α → Prop}

theorem ok {a : α} (c : Cursor) (h : P a) : Yields P (.ok (a, c)) := by
  rintro _ _ ⟨⟩
  exact h

theorem fail (c : Cursor) (e : Fault) : Yields P (c.fail e : Except Failure (α × Cursor)) := nofun

theorem bind {x : Except Failure β} {k : β → Except Failure (α × Cursor)}
    (h : ∀ b, x = .ok b → Yields P (k b)) : Yields P (x >>= k) := by
  intro a c he
  cases x with
  | error e => cases he
  | ok b => exact h b rfl a c he

theorem ite {p : Prop} [Decidable p] {x y : Except Failure (α × Cursor)} (hx : Yields P x)
    (hy : Yields P y) : Yields P (if p then x else y) := by
  split
  · exact hx
  · exact hy

end Yields

def Fragment.IsPlain : Fragment → Prop
  | .child _ | .nth _ | .wildcard | .slice _ => True
  | .union keys => 2 ≤ keys.length
  | _ => False

namespace Fragment.IsPlain

variable {f : Fragment}

theorem moves (h : f.IsPlain) : f.moves := by
  cases f <;> first | rfl | exact h.elim

theorem proper (h : f.IsPlain) : f.Proper := by
  cases f <;> first | exact h | exact trivial

theorem not_isDescent (h : f.IsPlain) : f.isDescent = false := by
  cases f <;> first | rfl | exact h.elim

end Fragment.IsPlain

abbrev YieldsPlain (x : Except Failure (Fragment × Cursor)) : Prop := Yields Fragment.IsPlain x

theorem readName_plain (c : Cursor) : YieldsPlain (readName c) := .ok _ trivial

theorem readAfterPoint_plain (c : Cursor) :
    Yields (fun f => f.IsPlain ∨ f = .descent) (readAfterPoint c) := by
  unfold readAfterPoint
  split
  · exact .fail c _
  · exact .ite (.ok _ (.inl trivial)) (.ite (.ok _ (.inr rfl))
      (.ite (.ok _ (.inl trivial)) (.fail _ _)))

theorem readSliceStep_plain (start stop : Int64) (c : Cursor) :
    YieldsPlain (readSliceStep start stop c) := by
  unfold readSliceStep
  split
  · exact .fail c _
  · exact .ite (.ok _ trivial) (.bind fun _ _ => .ite (.ok _ trivial) (.fail _ _))

theorem readSlice_plain (start : Int64) (c : Cursor) : YieldsPlain (readSlice start c) := by
  unfold readSlice
  split
  · exact .fail c _
  · refine .ite (.ok _ trivial) ?_
    dsimp only
    split
    · exact .fail _ _
    · exact .ite (readSliceStep_plain _ _ _)
        (.bind fun _ _ => .ite (readSliceStep_plain _ _ _)
          (.ite (.ok _ trivial) (.fail _ _)))

theorem readUnionKeys_ne_nil (fuel : Nat) (c : Cursor) :
    Yields (· ≠ []) (readUnionKeys fuel c) := by
  cases fuel with
  | zero => exact .fail c _
  | succ fuel =>
    refine .bind fun b _ => ?_
    refine .ite (.bind fun _ _ => .ok _ (List.cons_ne_nil _ _)) (.ite ?_ (.fail _ _))
    exact .ok _ (List.cons_ne_nil _ _)

theorem readUnion_plain (first : UnionKey) (c : Cursor) : YieldsPlain (readUnion first c) := by
  unfold readUnion
  refine .ite (.fail c _) (.bind fun r hr => .ok _ ?_)
  have hpos := List.length_pos_iff.mpr (readUnionKeys_ne_nil _ c r.1 r.2 hr)
  exact Nat.succ_le_succ hpos

theorem readPlainBracket_plain (b : UInt8) (c : Cursor) :
    YieldsPlain (readPlainBracket b c) := by
  unfold readPlainBracket
  refine .ite (.ite (.ok _ trivial) (.fail _ _)) (.ite (.bind fun _ _ => ?_)
    (.ite ?_ (.ite ?_ (.ite (.bind fun _ _ => ?_) (.fail _ _)))))
  · exact .ite (.ok _ trivial) (.ite (readUnion_plain _ _) (.fail _ _))
  · exact readSlice_plain _ _
  · exact .fail _ _
  · exact .ite (.ok _ trivial) (.ite (readUnion_plain _ _)
      (.ite (readSlice_plain _ _) (.fail _ _)))

abbrev YieldsMoving (x : Except Failure (Fragment × Cursor)) : Prop :=
  Yields (fun f => f.moves ∧ f.Proper) x

abbrev YieldsStep (x : Except Failure (Fragment × Cursor)) : Prop :=
  Yields (fun f => (f.moves ∧ f.Proper) ∧ f.isDescent = false) x

theorem readName_moves (c : Cursor) : YieldsMoving (readName c) := .ok _ ⟨rfl, trivial⟩

theorem readAfterPoint_moves (c : Cursor) : YieldsMoving (readAfterPoint c) := by
  intro f c' h
  rcases readAfterPoint_plain c f c' h with hf | rfl
  · exact ⟨hf.moves, hf.proper⟩
  · exact ⟨rfl, trivial⟩

theorem readPlainBracket_isStep (b : UInt8) (c : Cursor) : YieldsStep (readPlainBracket b c) := by
  intro f c' h
  have hf := readPlainBracket_plain b c f c' h
  exact ⟨⟨hf.moves, hf.proper⟩, hf.not_isDescent⟩

theorem readFilter_isStep [Libraries] (fuel : Nat) (c : Cursor) :
    YieldsStep (readFilter fuel c) := by
  cases fuel with
  | zero => exact .fail c _
  | succ fuel =>
    unfold readFilter
    split
    · exact .fail c _
    · exact .bind fun _ _ => .ite (.ok _ ⟨⟨rfl, trivial⟩, rfl⟩) (.fail _ _)

theorem readBracket_isStep [Libraries] (fuel : Nat) (c : Cursor) : YieldsStep
    (readBracket fuel c) := by
  cases fuel with
  | zero => exact .fail c _
  | succ fuel =>
    unfold readBracket
    refine .ite (.fail c _) ?_
    dsimp only
    split
    · exact .fail _ _
    · exact .ite (readFilter_isStep fuel _) (readPlainBracket_isStep _ _)

/-- A reader of a whole path goes on like this once it has read the fragments that follow. -/
def Prepends (f : Fragment) (k : Path × Cursor → Except Failure (Path × Cursor)) : Prop :=
  ∀ fs c, k (fs, c) = .ok (f :: fs, c)

/-- After the first fragment, all that are read lead down. -/
theorem readFragments_moves [Libraries] (fuel : Nat) (afterDescent : Bool) (c : Cursor) :
    Yields (fun p : Path => ∀ f ∈ p, f.moves ∧ f.Proper)
      (readFragments fuel false afterDescent c) := by
  induction fuel generalizing afterDescent c with
  | zero => exact .fail c _
  | succ fuel ih =>
    have next : ∀ {f : Fragment} {descent : Bool} {c : Cursor} {k}, f.moves ∧ f.Proper →
        Prepends f k → Yields (fun p : Path => ∀ f ∈ p, f.moves ∧ f.Proper)
          (readFragments fuel false descent c >>= k) := by
      intro f descent c k hf hk
      refine .bind fun rest hrest => ?_
      obtain ⟨fs, c'⟩ := rest
      rw [hk]
      exact .ok c' (List.forall_mem_cons.mpr ⟨hf, ih descent c fs c' hrest⟩)
    unfold readFragments
    split
    · exact .ok c nofun
    · dsimp only
      split
      · exact absurd (And.right ‹_›) Bool.false_ne_true
      · split
        · exact absurd (And.right ‹_›) Bool.false_ne_true
        · refine .ite (.bind fun r hr => next ?_ fun _ _ => rfl) (.ite
            (next (f := .wildcard) ⟨rfl, trivial⟩ fun _ _ => rfl) (.ite
              (.bind fun r hr => next ?_ fun _ _ => rfl) (.ite
                (.bind fun r hr => next ?_ fun _ _ => rfl) (.ok _ nofun))))
          · exact readAfterPoint_moves _ r.1 r.2 hr
          · exact (readBracket_isStep fuel _ r.1 r.2 hr).1
          · exact readName_moves _ r.1 r.2 hr

theorem readFragments_anchored [Libraries] (fuel : Nat) (first afterDescent : Bool) (c : Cursor) :
    Yields (fun p : Path => p.Anchored ∧ ∀ f ∈ p, f.Proper)
      (readFragments fuel first afterDescent c) := by
  cases fuel with
  | zero => exact .fail c _
  | succ fuel =>
    have next : ∀ {f : Fragment} {descent : Bool} {c : Cursor} {k}, f.Proper → Prepends f k →
        Yields (fun p : Path => p.Anchored ∧ ∀ f ∈ p, f.Proper)
          (readFragments fuel false descent c >>= k) := by
      intro f descent c k hf hk
      refine .bind fun rest hrest => ?_
      obtain ⟨fs, c'⟩ := rest
      rw [hk]
      have hmore := readFragments_moves fuel descent c fs c' hrest
      exact .ok c' ⟨fun g hg => (hmore g hg).1,
        List.forall_mem_cons.mpr ⟨hf, fun g hg => (hmore g hg).2⟩⟩
    have none : Path.Anchored [] ∧ ∀ f ∈ ([] : Path), f.Proper := ⟨nofun, nofun⟩
    unfold readFragments
    split
    · exact .ok c none
    · refine .ite (next (f := .root) trivial fun _ _ => rfl) (.ite
        (next (f := .current) trivial fun _ _ => rfl) (.ite
          (.bind fun r hr => next ?_ fun _ _ => rfl) (.ite
            (next (f := .wildcard) trivial fun _ _ => rfl) (.ite
              (.bind fun r hr => next ?_ fun _ _ => rfl) (.ite
                (.bind fun r hr => next ?_ fun _ _ => rfl) (.ok _ none))))))
      · exact (readAfterPoint_moves _ r.1 r.2 hr).2
      · exact (readBracket_isStep fuel _ r.1 r.2 hr).1.2
      · exact (readName_moves _ r.1 r.2 hr).2

/-- A path that has been read stood there to the last byte. -/
theorem Path.exists_of_parseBytes [Libraries] {bytes : List UInt8} {p : Path}
    (h : Path.parseBytes bytes = .ok p) :
    ∃ c, readFragments (readingDepth bytes.length) true false (.start bytes) = .ok (p, c) ∧
      c.rest = [] := by
  unfold parseBytes readAll at h
  cases hread : readFragments (readingDepth bytes.length) true false (.start bytes) with
  | error e =>
    simp only [hread, bind, Except.bind] at h
    cases h
  | ok r =>
    obtain ⟨q, c⟩ := r
    simp only [hread, bind, Except.bind] at h
    split at h
    · cases h
      exact ⟨c, rfl, List.isEmpty_iff.mp ‹_›⟩
    · cases h

theorem Path.fragments_of_parseBytes [Libraries] {bytes : List UInt8} {p : Path}
    (h : Path.parseBytes bytes = .ok p) : p.Anchored ∧ ∀ f ∈ p, f.Proper := by
  obtain ⟨c, hread, -⟩ := exists_of_parseBytes h
  exact readFragments_anchored _ _ _ _ p c hread

/-- A path that has been read is anchored. -/
theorem Path.anchored_of_parseBytes [Libraries] {bytes : List UInt8} {p : Path}
    (h : Path.parseBytes bytes = .ok p) : p.Anchored :=
  (fragments_of_parseBytes h).1

end DocPath
