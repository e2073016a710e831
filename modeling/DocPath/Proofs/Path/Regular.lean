import DocPath.Proofs.Path.Parentheses
import DocPath.Proofs.Path.Patterns
import DocPath.Proofs.Path.Throughout

/-!
# The shape of what has been read

A path may hold scripts, a script paths and lists, and so on to any depth. Whatever the input, all
that is read has the shape that evaluation relies on, at every depth: `$` and `@` come first only,
unions have at least two members, a path in a script begins with `$` or `@`, the template of a
filter is the whole code of one tree, with an operator at its top, and what a pattern escapes is
never a slash.
-/

namespace DocPath

variable [Libraries]

/-- Whether a template is the code of an operation, and of no other tree. -/
def Script.CodesOperation (s : Script) : Prop :=
  ∃ e : Equation, s.IsCode e ∧ e.isOperation ∧ ∀ e', s.IsCode e' → e' = e

def Path.BeginsAtOrigin (p : Path) : Prop := p.head? = some .root ∨ p.head? = some .current

mutual

/-- Fragments as they are read, with all that is in their scripts. -/
def Fragment.Regular : Fragment → Prop
  | .bracket => False
  | .union keys => 2 ≤ keys.length
  | .filter template => Script.CodesOperation template ∧ SlotsRegular template
  | _ => True

def FragmentsRegular : List Fragment → Prop
  | [] => True
  | f :: fs => f.Regular ∧ FragmentsRegular fs

def SlotsRegular : List Slot → Prop
  | [] => True
  | .operand o :: rest => o.Regular ∧ SlotsRegular rest
  | .op _ :: rest => SlotsRegular rest

def Operand.Regular : Operand → Prop
  | .path p => Path.BeginsAtOrigin p ∧ Path.Anchored p ∧ FragmentsRegular p
  | .list items => OperandsRegular items
  | _ => True

def OperandsRegular : List Operand → Prop
  | [] => True
  | o :: os => o.Regular ∧ OperandsRegular os

end

def Path.Regular (p : Path) : Prop := p.Anchored ∧ FragmentsRegular p

/-- Fragments that can be read, whatever their scripts hold. -/
def Fragment.Readable : Fragment → Prop
  | .bracket => False
  | .union keys => 2 ≤ keys.length
  | .filter template => Script.CodesOperation template
  | _ => True

def Operand.Readable : Operand → Prop
  | .path p => Path.BeginsAtOrigin p ∧ Path.Anchored p
  | .regex r => r.Readable
  | _ => True

abbrev Fragment.AsRead (f : Fragment) : Prop := f.Throughout Readable Operand.Readable

abbrev FragmentsAsRead (fs : List Fragment) : Prop :=
  FragmentsThroughout Fragment.Readable Operand.Readable fs

abbrev SlotsAsRead (s : List Slot) : Prop :=
  SlotsThroughout Fragment.Readable Operand.Readable s

abbrev Operand.AsRead (o : Operand) : Prop := o.Throughout Fragment.Readable Readable

abbrev OperandsAsRead (os : List Operand) : Prop :=
  OperandsThroughout Fragment.Readable Operand.Readable os

abbrev Equation.AsRead (e : Equation) : Prop := e.Throughout Fragment.Readable Operand.Readable

mutual

theorem Fragment.AsRead.regular (f : Fragment) (h : f.AsRead) : f.Regular := by
  cases f with
  | filter template => exact ⟨h.1, slotsRegular_of_asRead template h.2⟩
  | bracket => exact h
  | union keys => exact h
  | _ => trivial

theorem fragmentsRegular_of_asRead (fs : List Fragment) (h : FragmentsAsRead fs) :
    FragmentsRegular fs := by
  cases fs with
  | nil => trivial
  | cons f fs =>
    exact ⟨Fragment.AsRead.regular f h.1, fragmentsRegular_of_asRead fs h.2⟩

theorem slotsRegular_of_asRead (s : List Slot) (h : SlotsAsRead s) :
    SlotsRegular s := by
  match s with
  | [] => trivial
  | .op op :: rest => exact slotsRegular_of_asRead rest h
  | .operand o :: rest =>
    exact ⟨Operand.AsRead.regular o h.1, slotsRegular_of_asRead rest h.2⟩

theorem Operand.AsRead.regular (o : Operand) (h : o.AsRead) : o.Regular := by
  cases o with
  | path p => exact ⟨h.1.1, h.1.2, fragmentsRegular_of_asRead p h.2⟩
  | list items => exact operandsRegular_of_asRead items h.2
  | _ => trivial

theorem operandsRegular_of_asRead (os : List Operand) (h : OperandsAsRead os) :
    OperandsRegular os := by
  cases os with
  | nil => trivial
  | cons o os =>
    exact ⟨Operand.AsRead.regular o h.1, operandsRegular_of_asRead os h.2⟩

end

theorem Fragment.IsPlain.asRead {f : Fragment} (h : f.IsPlain) : f.AsRead := by
  cases f <;> first | exact h | exact trivial | exact h.elim

namespace Equation

variable {e : Equation}

omit [Libraries] in
theorem isOperation_saturate (e : Equation) : e.saturate.isOperation = e.isOperation := by
  cases e with
  | value o => rfl
  | unary op left => unfold saturate apply; split <;> rfl
  | binary op left right => unfold saturate apply; split <;> rfl

omit [Libraries] in
theorem codesOperation_compile (h : e.isOperation) : Script.CodesOperation e.compile :=
  have hcode := Script.isCode_compile e
  ⟨e.saturate, hcode, (isOperation_saturate e).trans h, fun _ he' => he'.unique hcode⟩

end Equation

theorem Bracketing.asRead_equation {t : Bracketing} (hfirst : t.first.AsRead)
    (hrun : ∀ r ∈ t.run, r.2.AsRead) : t.equation.AsRead := by
  induction t with
  | leaf e => exact hfirst
  | node op left right ihl ihr =>
    rw [run, List.forall_mem_append, List.forall_mem_cons] at hrun
    exact ⟨ihl hfirst hrun.1, ihr hrun.2.1 hrun.2.2⟩

theorem asRead_foldOperations {left : Equation} {run : List (Operator × Equation)}
    (hleft : left.AsRead) (hrun : ∀ r ∈ run, r.2.AsRead) :
    (foldOperations left run).AsRead := by
  obtain ⟨t, hlawful, rfl, rfl⟩ := Bracketing.exists_lawful left run
  rw [Bracketing.foldOperations_eq hlawful]
  exact t.asRead_equation hleft hrun

theorem readWord_asRead (word : String) (v : Operand) (hv : v.AsRead) (c : Cursor) :
    Yields Equation.AsRead (readWord word v c) := by
  intro e c' h
  rw [(readWord_eq h).1]
  exact hv

theorem readNumber_asRead (c : Cursor) : Yields Operand.AsRead (readNumber c) := by
  refine .bind fun _ _ => .ite ?_ ?_
  · split
    · exact .ok _ trivial
    · exact .fail _ _
    · exact .fail _ _
    · exact .fail _ _
  · split
    · exact .ok _ trivial
    · exact .fail _ _

theorem readFragments_origin {fuel : Nat} {c : Cursor} {b : UInt8} (hpeek : c.peek? = some b)
    (hb : b = byteOf '$' ∨ b = byteOf '@') :
    Yields Path.BeginsAtOrigin (readFragments fuel true false c) := by
  cases fuel with
  | zero => exact .fail c _
  | succ fuel =>
    unfold readFragments
    simp only [hpeek, and_true]
    rcases hb with rfl | rfl
    · exact .bind fun _ _ => .ok _ (.inl rfl)
    · exact .bind fun _ _ => .ok _ (.inr rfl)

/-- With so much fuel, what is read has the right shape. -/
structure ReadsRegular (fuel : Nat) : Prop where
  fragments (first after : Bool) (c : Cursor) :
    Yields FragmentsAsRead (readFragments fuel first after c)
  bracket (c : Cursor) : Yields Fragment.AsRead (readBracket fuel c)
  filter (c : Cursor) : Yields Fragment.AsRead (readFilter fuel c)
  equation (c : Cursor) : Yields Equation.AsRead (readEquation fuel c)
  run (c : Cursor) : Yields (fun run => ∀ r ∈ run, r.2.AsRead) (readRun fuel c)
  value (c : Cursor) : Yields Equation.AsRead (readValue fuel c)
  list (c : Cursor) : Yields OperandsAsRead (readList fuel c)
  call (op : Operator) (c : Cursor) : Yields Equation.AsRead (readFunction fuel op c)

namespace ReadsRegular

variable {fuel : Nat}

theorem fragments_step (ih : ReadsRegular fuel) (first after : Bool) (c : Cursor) :
    Yields FragmentsAsRead (readFragments (fuel + 1) first after c) := by
  have next : ∀ {f : Fragment} {descent : Bool} {c : Cursor} {k}, f.AsRead → Prepends f k →
      Yields FragmentsAsRead (readFragments fuel false descent c >>= k) := by
    intro f descent c k hf hk
    refine .bind fun rest hrest => ?_
    obtain ⟨fs, c'⟩ := rest
    rw [hk]
    exact .ok c' ⟨hf, ih.fragments false descent c fs c' hrest⟩
  unfold readFragments
  split
  · exact .ok c trivial
  · refine .ite (next (f := .root) trivial fun _ _ => rfl) (.ite
      (next (f := .current) trivial fun _ _ => rfl) (.ite
        (.bind fun r hr => next ?_ fun _ _ => rfl) (.ite
          (next (f := .wildcard) trivial fun _ _ => rfl) (.ite
            (.bind fun r hr => next ?_ fun _ _ => rfl) (.ite
              (.bind fun r hr => next ?_ fun _ _ => rfl) (.ok _ trivial))))))
    · rcases readAfterPoint_plain _ r.1 r.2 hr with hf | hf
      · exact hf.asRead
      · exact hf ▸ trivial
    · exact ih.bracket _ r.1 r.2 hr
    · exact (readName_plain _ r.1 r.2 hr).asRead

theorem bracket_step (ih : ReadsRegular fuel) (c : Cursor) :
    Yields Fragment.AsRead (readBracket (fuel + 1) c) := by
  unfold readBracket
  refine .ite (.fail c _) ?_
  dsimp only
  split
  · exact .fail _ _
  · refine .ite (ih.filter _) fun f c' h => ?_
    exact (readPlainBracket_plain _ _ f c' h).asRead

theorem filter_step (ih : ReadsRegular fuel) (c : Cursor) :
    Yields Fragment.AsRead (readFilter (fuel + 1) c) := by
  unfold readFilter
  split
  · exact .fail c _
  · refine .bind fun r hr => .ite (.ok _ ?_) (.fail _ _)
    have hop : r.1.isOperation := ((reads fuel).equation hr).2
    exact ⟨Equation.codesOperation_compile hop, (ih.equation _ r.1 r.2 hr).compile trivial⟩

theorem equation_step (ih : ReadsRegular fuel) (c : Cursor) :
    Yields Equation.AsRead (readEquation (fuel + 1) c) := by
  unfold readEquation
  dsimp only
  split
  · exact .fail _ _
  · refine .bind fun left hleft => ?_
    replace hleft := ih.value _ left.1 left.2 hleft
    split
    · refine .bind fun op _ => ?_
      split
      · refine .bind fun right hright => .bind fun run hrun => .ok _ ?_
        exact asRead_foldOperations hleft (List.forall_mem_cons.mpr
          ⟨ih.value _ right.1 right.2 hright, ih.run _ run.1 run.2 hrun⟩)
      · refine .bind fun run hrun => .ok _ ?_
        exact asRead_foldOperations hleft (List.forall_mem_cons.mpr
          ⟨trivial, ih.run _ run.1 run.2 hrun⟩)
    · refine .bind fun run hrun => .ok _ ?_
      exact asRead_foldOperations hleft (ih.run _ run.1 run.2 hrun)

theorem run_step (ih : ReadsRegular fuel) (c : Cursor) :
    Yields (fun run => ∀ r ∈ run, r.2.AsRead) (readRun (fuel + 1) c) := by
  unfold readRun
  dsimp only
  split
  · exact .ok _ nofun
  · refine .ite (.ok _ nofun) (.ite (.ok _ nofun) (.bind fun op _ => ?_))
    split
    · exact .fail _ _
    · refine .bind fun right hright => .bind fun run hrun => .ok _ ?_
      exact List.forall_mem_cons.mpr
        ⟨ih.value _ right.1 right.2 hright, ih.run _ run.1 run.2 hrun⟩

theorem value_path (ih : ReadsRegular fuel) {c : Cursor} {b : UInt8} (hpeek : c.peek? = some b)
    (hb : b = byteOf '$' ∨ b = byteOf '@') :
    Yields Equation.AsRead
      (readFragments fuel true false c >>= fun r => .ok (.value (.path r.1), r.2)) := by
  refine .bind fun r hr => .ok _ ?_
  exact ⟨⟨readFragments_origin hpeek hb r.1 r.2 hr,
    (readFragments_anchored _ _ _ _ r.1 r.2 hr).1⟩, ih.fragments _ _ _ r.1 r.2 hr⟩

theorem value_step (ih : ReadsRegular fuel) (c : Cursor) :
    Yields Equation.AsRead (readValue (fuel + 1) c) := by
  unfold readValue
  dsimp only
  split
  · exact .fail _ _
  · rename_i b hpeek
    refine .ite (.bind fun r hr => .ok _ (readNumber_asRead _ r.1 r.2 hr)) (.ite
      (.bind fun _ _ => .ok _ trivial) ?_)
    -- the byte is known by its character
    have peek_of : ∀ {ch : Char}, charOf b = ch → b = byteOf ch := by
      rintro ch rfl
      exact (byteOf_charOf b).symm
    split
    · exact readWord_asRead "null" .null trivial _
    · exact readWord_asRead "Nothing" .nothing trivial _
    · exact readWord_asRead "true" (.bool true) trivial _
    · exact readWord_asRead "false" (.bool false) trivial _
    · exact ih.value_path hpeek (.inr (peek_of ‹_›))
    · exact ih.value_path hpeek (.inl (peek_of ‹_›))
    · exact ih.equation _
    · exact .ite (.ok _ ⟨trivial, trivial⟩) (.bind fun items hitems =>
        .ok _ ⟨trivial, ih.list _ items.1 items.2 hitems⟩)
    · exact .bind fun r hr => .ok _ (readPattern_readable hr)
    · exact .bind fun e he => .ok _ (ih.value _ e.1 e.2 he)
    · exact ih.call _ _
    · exact ih.call _ _
    · exact ih.call _ _
    · exact ih.call _ _
    · exact .fail _ _

theorem list_step (ih : ReadsRegular fuel) (c : Cursor) :
    Yields OperandsAsRead (readList (fuel + 1) c) := by
  rw [readList]
  refine .bind fun e he => ?_
  replace he := ih.value _ e.1 e.2 he
  dsimp only
  split
  · rename_i v hv
    rw [hv] at he
    split
    · exact .fail _ _
    · refine .ite (.bind fun vs hvs => .ok _ ⟨he, ih.list _ vs.1 vs.2 hvs⟩)
        (.ite (.ok _ ⟨he, trivial⟩) (.fail _ _))
  · exact .fail _ _

theorem call_step (ih : ReadsRegular fuel) (op : Operator) (c : Cursor) :
    Yields Equation.AsRead (readFunction (fuel + 1) op c) := by
  rw [readFunction]
  refine .ite (.bind fun left hleft => ?_) (.fail _ _)
  replace hleft := ih.value _ left.1 left.2 hleft
  have closed : ∀ {e : Equation} {c : Cursor}, e.AsRead → Yields Equation.AsRead
      (if c.peek? = some (byteOf ')') then .ok (e, c.skip 1) else c.fail .notTerminated) :=
    fun he => .ite (.ok _ he) (.fail _ _)
  exact .ite (.bind fun right hright => closed ⟨hleft, ih.value _ right.1 right.2 hright⟩)
    (closed hleft)

end ReadsRegular

theorem readsRegular (fuel : Nat) : ReadsRegular fuel := by
  induction fuel with
  | zero => exact ⟨nofun, nofun, nofun, nofun, nofun, nofun, nofun, nofun⟩
  | succ fuel ih =>
    exact {
      fragments := ih.fragments_step
      bracket := ih.bracket_step
      filter := ih.filter_step
      equation := ih.equation_step
      run := ih.run_step
      value := ih.value_step
      list := ih.list_step
      call := ih.call_step }

/-- Whatever the bytes, reading them fails or gives a path of that shape. -/
theorem Path.parseBytes_regular (bytes : List UInt8) :
    (∃ e, Path.parseBytes bytes = .error e) ∨
      ∃ p : Path, Path.parseBytes bytes = .ok p ∧ p.Regular := by
  cases h : Path.parseBytes bytes with
  | error e => exact .inl ⟨e, rfl⟩
  | ok p =>
    obtain ⟨c, hread, -⟩ := exists_of_parseBytes h
    exact .inr ⟨p, rfl, anchored_of_parseBytes h, fragmentsRegular_of_asRead p
      ((readsRegular _).fragments _ _ _ p c hread)⟩

/-- A script that has been read is the template of the tree that stood there. -/
theorem Script.exists_of_parse {text : String} {s : Script} (h : Script.parse text = .ok s) :
    ∃ fuel c e c', readEquation fuel c = .ok (e, c') ∧ e.compile = s := by
  let bytes := Text.Utf8.encode text.toList
  cases hread : readEquation (readingDepth bytes.length) (.start bytes) with
  | error f =>
    rw [parse, readAll, hread] at h
    cases h
  | ok r =>
    refine ⟨_, _, r.1, r.2, hread, ?_⟩
    simp only [parse, readAll, bytes, hread, bind, Except.bind] at h
    split at h
    · cases h
      rfl
    · cases h

/-- A script that has been read has that shape to any depth. -/
theorem Script.asRead_of_parse {text : String} {s : Script} (h : Script.parse text = .ok s) :
    s.CodesOperation ∧ SlotsAsRead s := by
  obtain ⟨fuel, c, e, c', hread, rfl⟩ := exists_of_parse h
  exact ⟨Equation.codesOperation_compile ((reads fuel).equation hread).2,
    ((readsRegular fuel).equation c e c' hread).compile trivial⟩

end DocPath
