import DocPath.Builtin
import DocPath.Proofs.Path.Balance
import DocPath.Proofs.Script.Joining

/-!
# Which parentheses a path may leave open

A script ends alike at a closing parenthesis, at a closing bracket and at the end of the input, and
the reader of a filter asks for the bracket only. So a group is closed by the bracket around it as
well, and a script without a parenthesis in front may have one behind it. Nothing else is passed
over: every path that is read has the form of the grammar, each of its filters with the parentheses
that it leaves open counted, and at most one that it closes too many.
-/

namespace DocPath

/-- Whether a filter closes at most one parenthesis that it has not opened. -/
def Tolerated (excess : Int) : Prop := -1 ≤ excess

theorem Tolerated.natCast (n : Nat) : Tolerated n := by
  unfold Tolerated
  omega

/-- A script together with the parenthesis that closes it, or up to a bracket or the end. -/
def ScriptText (bytes rest : List UInt8) : Prop :=
  EquationText Tolerated 0 bytes (byteOf ')' :: rest) ∨
    ∃ n, EquationText Tolerated n bytes rest ∧ AtBracket rest

namespace AtBracket

variable {bytes : List UInt8}

theorem head?_eq (h : AtBracket bytes) {b : UInt8} (hb : bytes.head? = some b) : b = byteOf ']' :=
  h b hb

theorem trim_eq (h : AtBracket bytes) : trim bytes = bytes :=
  trim_of_head? fun b hb => h.head?_eq hb ▸ by decide

end AtBracket

theorem ValueText.of_trim {allowed : Int → Prop} {n : Nat} {bytes rest : List UInt8}
    (h : ValueText allowed n (trim bytes) rest) : ValueText allowed n bytes rest := by
  induction bytes with
  | nil => exact h
  | cons b bytes ih =>
    by_cases hb : b = 0x20
    · subst hb
      exact .blank (ih h)
    · rwa [trim, List.dropWhile_cons_of_neg (by simpa using hb)] at h

theorem ItemsText.of_trim {allowed : Int → Prop} {bytes rest : List UInt8}
    (h : ItemsText allowed (trim bytes) rest) : ItemsText allowed bytes rest := by
  cases h with
  | last h hclose => exact .last (.of_trim h) hclose
  | more h hcomma hmore => exact .more (.of_trim h) hcomma hmore

theorem ScriptText.more {op : Operator} {name : String} {bytes behind next rest : List UInt8}
    (h : ValueText Tolerated 0 bytes behind) (hname : Operator.ofName? name = some op)
    (hop : op.isBinary ∧ !op.isFunction) (hnext : trim behind = name.toList.map byteOf ++ next)
    (hmore : ScriptText next rest) : ScriptText bytes rest := by
  rcases hmore with hclosed | ⟨n, hopen, hrest⟩
  · exact .inl (.more h hname hop hnext hclosed)
  · exact .inr ⟨n, .more h hname hop hnext hopen, hrest⟩

namespace Equation

def isOperation : Equation → Bool
  | value _ => false
  | _ => true

end Equation

theorem isOperation_foldOperations {left : Equation} {run : List (Operator × Equation)}
    (h : left.isOperation ∨ run ≠ []) : (foldOperations left run).isOperation := by
  cases run with
  | nil => exact h.resolve_right (absurd rfl)
  | cons r run =>
    obtain ⟨t, hlawful, rfl, hrun⟩ := Bracketing.exists_lawful left (r :: run)
    rw [← hrun, Bracketing.foldOperations_eq hlawful]
    cases t with
    | leaf e => cases hrun
    | node op left right => rfl

/-- A value has been read that is left open only as an operation, before a bracket or the end. A
byte that does not begin a lone value has begun an operation. -/
structure ValueRead (e : Equation) (bytes rest : List UInt8) : Prop where
  text : ∃ n, ValueText Tolerated n bytes rest ∧ (n = 0 ∨ AtBracket rest ∧ e.isOperation)
  operation : ∀ b ∈ (trim bytes).head?, mayBeginAlone b = false → e.isOperation

/-- Bytes with a property that no first byte of an operation has may begin a lone value. -/
theorem mayBeginAlone_of {p : UInt8 → Bool} {b : UInt8} (h : p b)
    (hmarks : "!lcms".toList.all fun mark => !p (byteOf mark)) : mayBeginAlone b := by
  have hb : charOf b ∉ "!lcms".toList := fun hmem => by
    have hmark := List.all_eq_true.mp hmarks _ hmem
    simp [byteOf_charOf, h] at hmark
  simpa [mayBeginAlone] using hb

namespace ValueRead

variable {e : Equation} {bytes rest : List UInt8}

theorem of_value {b : UInt8} (hpeek : (trim bytes).head? = some b) (hb : mayBeginAlone b)
    (h : ValueText Tolerated 0 (trim bytes) rest) : ValueRead e bytes rest := by
  refine ⟨⟨0, .of_trim h, .inl rfl⟩, fun b' hb' hlone => ?_⟩
  obtain rfl : b = b' := Option.some.inj (hpeek.symm.trans hb')
  exact absurd (hb.symm.trans hlone) nofun

theorem of_operation {n : Nat} (he : e.isOperation) (hn : n = 0 ∨ AtBracket rest)
    (h : ValueText Tolerated n (trim bytes) rest) : ValueRead e bytes rest :=
  ⟨⟨n, .of_trim h, hn.imp_right fun hbracket => ⟨hbracket, he⟩⟩, fun _ _ _ => he⟩

end ValueRead

/-- With so much fuel, what is read has the form of the grammar. -/
structure Reads [Libraries] (fuel : Nat) : Prop where
  fragments {first after : Bool} {c c' : Cursor} {p : Path}
    (h : readFragments fuel first after c = .ok (p, c')) :
    FragmentsText Tolerated first after c.rest c'.rest
  bracket {c c' : Cursor} {f : Fragment} (h : readBracket fuel c = .ok (f, c')) :
    BracketText Tolerated c.rest c'.rest
  filter {c c' : Cursor} {f : Fragment} (h : readFilter fuel c = .ok (f, c')) :
    ∃ excess, FilterText Tolerated excess c.rest c'.rest ∧ Tolerated excess
  equation {c c' : Cursor} {e : Equation} (h : readEquation fuel c = .ok (e, c')) :
    ScriptText c.rest c'.rest ∧ e.isOperation
  run {c c' : Cursor} {run : List (Operator × Equation)} {n : Nat} {bytes behind : List UInt8}
    (h : readRun fuel c = .ok (run, c')) (hfirst : ValueText Tolerated n bytes behind)
    (hn : n = 0 ∨ AtBracket behind) (hbehind : trim behind = trim c.rest) :
    ScriptText bytes c'.rest
  value {c c' : Cursor} {e : Equation} (h : readValue fuel c = .ok (e, c')) :
    ValueRead e c.rest c'.rest
  list {c c' : Cursor} {items : List Operand} (h : readList fuel c = .ok (items, c')) :
    ItemsText Tolerated c.rest c'.rest
  call {op : Operator} {c c' : Cursor} {e : Equation} (hop : op.isFunction)
    (h : readFunction fuel op c = .ok (e, c')) :
    ValueText Tolerated 0 c.rest c'.rest ∧ e.isOperation

section fragments

variable {allowed : Int → Prop} {first after : Bool} {c c' : Cursor} {f : Fragment}
  {rest : List UInt8}

theorem readName_text {b : UInt8} (hpeek : c.peek? = some b) (hb : isNameByte b)
    (h : readName c = .ok (f, c')) :
    c'.rest = (c.skip 1).rest.dropWhile isNameByte ∧ f.isDescent = false := by
  cases h
  refine ⟨?_, rfl⟩
  change c.rest.dropWhile isNameByte = _
  rw [Cursor.rest_of_peek? hpeek, List.dropWhile_cons_of_pos hb]

theorem readAfterPoint_text (h : readAfterPoint c = .ok (f, c'))
    (more : FragmentsText allowed false f.isDescent c'.rest rest) :
    FragmentsText allowed first after (byteOf '.' :: c.rest) rest := by
  unfold readAfterPoint at h
  split at h
  · cases h
  · rename_i b hpeek
    rw [Cursor.rest_of_peek? hpeek]
    split_ifs at h with hstar hpoint hname
    · cases h
      exact hstar ▸ .pointStar more
    · cases h
      rw [hpoint]
      exact .descent more
    · obtain ⟨hrest, hdescent⟩ := readName_text hpeek hname h
      rw [hrest, hdescent] at more
      exact .pointName hname more
    · cases h

end fragments

namespace Reads

variable {fuel : Nat} {c c' : Cursor}
variable [Libraries]

/-- After a fragment has been read, the others are. -/
theorem next (ih : Reads fuel) {f : Fragment} {descent : Bool} {p : Path}
    {k : Path × Cursor → Except Failure (Path × Cursor)}
    (h : (readFragments fuel false descent c >>= k) = .ok (p, c')) (hk : Prepends f k) :
    FragmentsText Tolerated false descent c.rest c'.rest := by
  obtain ⟨⟨fs, c₁⟩, hmore, h⟩ := exists_of_bind h
  rw [hk] at h
  cases h
  exact ih.fragments hmore

theorem fragments_step (ih : Reads fuel) {first after : Bool} {p : Path}
    (h : readFragments (fuel + 1) first after c = .ok (p, c')) :
    FragmentsText Tolerated first after c.rest c'.rest := by
  unfold readFragments at h
  split at h
  · rename_i hpeek
    cases h
    rw [List.head?_eq_none_iff.mp hpeek]
    exact .stop nofun
  · rename_i b hpeek
    have hrest := Cursor.rest_of_peek? hpeek
    dsimp only at h
    split_ifs at h with hroot hcurrent hpoint hstar hbracket hname
    · obtain ⟨rfl, rfl⟩ := hroot
      exact hrest ▸ .origin (.inl rfl) (ih.next h fun _ _ => rfl)
    · obtain ⟨rfl, rfl⟩ := hcurrent
      exact hrest ▸ .origin (.inr rfl) (ih.next h fun _ _ => rfl)
    · obtain ⟨⟨f, c₁⟩, hread, h⟩ := exists_of_bind h
      rw [hrest, hpoint]
      exact readAfterPoint_text hread (ih.next h fun _ _ => rfl)
    · rw [hrest, hstar]
      exact .star (ih.next h fun _ _ => rfl)
    · obtain ⟨⟨f, c₁⟩, hread, h⟩ := exists_of_bind h
      have more : FragmentsText Tolerated false f.isDescent c₁.rest c'.rest :=
        ih.next h fun _ _ => rfl
      rw [(readBracket_isStep fuel _ f c₁ hread).2] at more
      rw [hrest, hbracket]
      exact .bracket (ih.bracket hread) more
    · obtain ⟨⟨f, c₁⟩, hread, h⟩ := exists_of_bind h
      obtain ⟨hafter, hdescent⟩ := readName_text hpeek hname.1 hread
      have more : FragmentsText Tolerated false f.isDescent c₁.rest c'.rest :=
        ih.next h fun _ _ => rfl
      rw [hdescent, hafter] at more
      rw [hrest]
      exact .name hname.1 hname.2 more
    · cases h
      refine .stop fun b' hb' => ?_
      obtain rfl : b = b' := Option.some.inj (hpeek.symm.trans hb')
      exact ⟨hroot, hcurrent, hpoint, hstar, hbracket, hname⟩

theorem bracket_step (ih : Reads fuel) {f : Fragment}
    (h : readBracket (fuel + 1) c = .ok (f, c')) : BracketText Tolerated c.rest c'.rest := by
  unfold readBracket at h
  split at h
  · cases h
  · dsimp only at h
    split at h
    · cases h
    · rename_i b hpeek
      split at h
      · rename_i hb
        obtain ⟨excess, hfilter, hexcess⟩ := ih.filter h
        exact .filter (hb ▸ Cursor.rest_of_peek? hpeek) hfilter hexcess
      · rename_i hb
        refine .selector (fun hquery => hb ?_)
          ((Passes.trim c.rest).selector (readPlainBracket_selector hpeek h))
        exact Option.some.inj (hpeek.symm.trans hquery)

theorem filter_step (ih : Reads fuel) {f : Fragment} (h : readFilter (fuel + 1) c = .ok (f, c')) :
    ∃ excess, FilterText Tolerated excess c.rest c'.rest ∧ Tolerated excess := by
  unfold readFilter at h
  split at h
  · cases h
  · rename_i b hpeek
    obtain ⟨⟨e, c₁⟩, hscript, h⟩ := exists_of_bind h
    have script := (ih.equation hscript).1
    dsimp only at h
    split at h
    · rename_i hclose
      cases h
      rw [Cursor.rest_of_peek? hclose] at script
      by_cases hb : b = byteOf '('
      · subst hb
        rw [if_pos rfl] at script
        rw [Cursor.rest_of_peek? hpeek]
        rcases script with hclosed | ⟨n, hopen, -⟩
        · exact ⟨0, .enclosed hclosed, .natCast 0⟩
        · exact ⟨n + 1, .unclosed hopen, .natCast (n + 1)⟩
      · rw [if_neg hb] at script
        have hbare : c.rest.head? ≠ some (byteOf '(') := fun hopen =>
          hb (Option.some.inj (hpeek.symm.trans hopen))
        rcases script with hclosed | ⟨n, hopen, -⟩
        · exact ⟨-1, .surplus hbare hclosed, Int.le_refl (-1)⟩
        · exact ⟨n, .bare hbare hopen, .natCast n⟩
    · cases h

/-- An operand goes on with an operator, the operand after it and the rest of the run. -/
theorem after_operator (ih : Reads fuel) {c₁ c₂ : Cursor} {op : Operator} {right : Equation}
    {run : List (Operator × Equation)} {bytes behind : List UInt8}
    (hop : readOperation c = .ok (some op, c₁)) (hright : readValue fuel c₁ = .ok (right, c₂))
    (hrun : readRun fuel c₂ = .ok (run, c')) (hfirst : ValueText Tolerated 0 bytes behind)
    (hbehind : trim behind = trim c.rest) : ScriptText bytes c'.rest := by
  obtain ⟨name, hname, hinner, hnext⟩ := readOperation_some hop
  obtain ⟨n, hvalue, hn⟩ := (ih.value hright).text
  exact .more hfirst hname hinner (hbehind.trans hnext)
    (ih.run hrun hvalue (hn.imp_right And.left) rfl)

theorem run_step (ih : Reads fuel) {run : List (Operator × Equation)} {n : Nat}
    {bytes behind : List UInt8} (h : readRun (fuel + 1) c = .ok (run, c'))
    (hfirst : ValueText Tolerated n bytes behind) (hn : n = 0 ∨ AtBracket behind)
    (hbehind : trim behind = trim c.rest) : ScriptText bytes c'.rest := by
  have ended : EquationText Tolerated n bytes c.skipSpaces.rest := by
    have hlast := EquationText.last hfirst
    rwa [hbehind] at hlast
  -- what is left open is followed by a bracket or the end
  have closed : ∀ b, c.skipSpaces.peek? = some b → b ≠ byteOf ']' → n = 0 := by
    intro b hpeek hb
    refine hn.resolve_right fun hbracket => hb (hbracket.head?_eq ?_)
    rw [← hbracket.trim_eq, hbehind]
    exact hpeek
  unfold readRun at h
  dsimp only at h
  split at h
  · rename_i hpeek
    cases h
    exact .inr ⟨n, ended, fun b hb => absurd (hpeek.symm.trans hb) nofun⟩
  · rename_i b hpeek
    split_ifs at h with hparen hbracket
    · cases h
      obtain rfl := closed b hpeek (by rw [hparen]; decide)
      rw [Cursor.rest_of_peek? hpeek, hparen] at ended
      exact .inl ended
    · cases h
      refine .inr ⟨n, ended, fun b' hb' => ?_⟩
      rw [← hbracket]
      exact Option.some.inj (hb'.symm.trans hpeek)
    · obtain rfl := closed b hpeek hbracket
      obtain ⟨⟨op?, c₁⟩, hop, h⟩ := exists_of_bind h
      cases op? with
      | none => cases h
      | some op =>
        obtain ⟨⟨right, c₂⟩, hright, h⟩ := exists_of_bind h
        obtain ⟨⟨run', c₃⟩, hrun, h⟩ := exists_of_bind h
        cases h
        exact ih.after_operator hop hright hrun hfirst
          (hbehind.trans (trim_trim c.rest).symm)

theorem equation_step (ih : Reads fuel) {e : Equation}
    (h : readEquation (fuel + 1) c = .ok (e, c')) : ScriptText c.rest c'.rest ∧ e.isOperation := by
  unfold readEquation at h
  dsimp only at h
  split at h
  · cases h
  · rename_i b hpeek
    obtain ⟨⟨left, c₁⟩, hleft, h⟩ := exists_of_bind h
    obtain ⟨⟨n, hfirst, hn⟩, hlone⟩ := ih.value hleft
    replace hfirst := ValueText.of_trim hfirst
    dsimp only at h
    split at h
    · obtain rfl : n = 0 := hn.resolve_right fun hopen => Bool.false_ne_true hopen.2
      obtain ⟨⟨op?, c₂⟩, hop, h⟩ := exists_of_bind h
      cases op? with
      | some op =>
        obtain ⟨⟨right, c₃⟩, hright, h⟩ := exists_of_bind h
        obtain ⟨⟨run, c₄⟩, hrun, h⟩ := exists_of_bind h
        cases h
        exact ⟨ih.after_operator hop hright hrun hfirst rfl,
          isOperation_foldOperations (.inr (List.cons_ne_nil _ _))⟩
      | none =>
        obtain ⟨⟨run, c₃⟩, hrun, h⟩ := exists_of_bind h
        cases h
        have hbehind : trim c₁.rest = trim c₂.rest := by
          rw [readOperation_none hop, trim_trim]
        exact ⟨ih.run hrun hfirst (.inl rfl) hbehind,
          isOperation_foldOperations (.inr (List.cons_ne_nil _ _))⟩
    · rename_i left' _ _ hvalue
      obtain ⟨⟨run, c₂⟩, hrun, h⟩ := exists_of_bind h
      cases h
      refine ⟨ih.run hrun hfirst (hn.imp_right And.left) rfl, isOperation_foldOperations (.inl ?_)⟩
      cases hb : mayBeginAlone b with
      | false =>
        exact hlone b ((congrArg List.head? (trim_trim c.rest)).trans hpeek) hb
      | true =>
        cases left' with
        | value o => exact absurd rfl (hvalue o hb)
        | unary op left => rfl
        | binary op left right => rfl

theorem list_step (ih : Reads fuel) {items : List Operand}
    (h : readList (fuel + 1) c = .ok (items, c')) : ItemsText Tolerated c.rest c'.rest := by
  rw [readList] at h
  obtain ⟨⟨e, c₁⟩, hvalue, h⟩ := exists_of_bind h
  obtain ⟨n, hfirst, hn⟩ := (ih.value hvalue).text
  dsimp only at h
  split at h
  · obtain rfl : n = 0 := hn.resolve_right fun hopen => Bool.false_ne_true hopen.2
    split at h
    · cases h
    · rename_i v b c₂ hnext
      have hrest := Cursor.trim_rest_of_nextSolid hnext
      split_ifs at h with hcomma hbracket
      · obtain ⟨⟨vs, c₃⟩, hmore, h⟩ := exists_of_bind h
        cases h
        exact .more hfirst (hcomma ▸ hrest) (ih.list hmore)
      · cases h
        exact .last hfirst (hbracket ▸ hrest)
      · cases h
  · cases h

theorem call_step (ih : Reads fuel) {op : Operator} {e : Equation} (hop : op.isFunction)
    (h : readFunction (fuel + 1) op c = .ok (e, c')) :
    ValueText Tolerated 0 c.rest c'.rest ∧ e.isOperation := by
  rw [readFunction] at h
  dsimp only at h
  split at h
  · rename_i hopening
    obtain ⟨⟨left, c₁⟩, hleft, h⟩ := exists_of_bind h
    obtain ⟨n, hfirst, hn⟩ := (ih.value hleft).text
    rw [rest_of_callOpening hopening]
    have closed : ∀ {n : Nat} {c₁ : Cursor} {e : Equation} {b : UInt8},
        (n = 0 ∨ AtBracket c₁.rest ∧ e.isOperation) → c₁.skipSpaces.peek? = some b →
          b ≠ byteOf ']' → n = 0 := by
      intro n c₁ e b hn hpeek hb
      refine hn.resolve_right fun hopen => hb (hopen.1.head?_eq ?_)
      rw [← hopen.1.trim_eq]
      exact hpeek
    dsimp only at h
    split at h
    · rename_i hcomma
      obtain ⟨⟨right, c₂⟩, hright, h⟩ := exists_of_bind h
      obtain ⟨m, hsecond, hm⟩ := (ih.value hright).text
      dsimp only [bind, Except.bind] at h
      split at h
      · rename_i hclose
        cases h
        obtain rfl := closed hn hcomma (by decide)
        obtain rfl := closed hm hclose (by decide)
        exact ⟨.callTwo hop hfirst (Cursor.rest_of_peek? hcomma) hsecond
          (Cursor.rest_of_peek? hclose), rfl⟩
      · cases h
    · dsimp only [bind, Except.bind] at h
      split at h
      · rename_i hclose
        cases h
        obtain rfl := closed hn hclose (by decide)
        exact ⟨.call hop hfirst (Cursor.rest_of_peek? hclose), rfl⟩
      · cases h
  · cases h

section operands

variable {b : UInt8} {e : Equation}

omit [Libraries] in
theorem value_word {w : String} {v : Operand} (hpeek : c.skipSpaces.peek? = some b)
    (hb : mayBeginAlone b) (hw : w ∈ literalWords)
    (h : readWord w v c.skipSpaces = .ok (e, c')) : ValueRead e c.rest c'.rest := by
  have hsplit : trim c.rest = w.toList.map byteOf ++ c'.rest := (readWord_eq h).2
  exact .of_value hpeek hb (hsplit ▸ .word hw _)

theorem value_path (ih : Reads fuel) (hpeek : c.skipSpaces.peek? = some b)
    (hb : b = byteOf '$' ∨ b = byteOf '@')
    (h : (readFragments fuel true false c.skipSpaces >>= fun r =>
      .ok (.value (.path r.1), r.2)) = .ok (e, c')) : ValueRead e c.rest c'.rest := by
  obtain ⟨⟨p, c₁⟩, hpath, h⟩ := exists_of_bind h
  cases h
  have halone : mayBeginAlone b := by rcases hb with rfl | rfl <;> decide
  have hrest : trim c.rest = b :: (c.skipSpaces.skip 1).rest := Cursor.rest_of_peek? hpeek
  have htext := ih.fragments hpath
  rw [show c.skipSpaces.rest = _ from hrest] at htext
  exact .of_value hpeek halone (hrest ▸ .path hb htext)

theorem value_group (ih : Reads fuel) (hpeek : c.skipSpaces.peek? = some (byteOf '('))
    (h : readEquation fuel (c.skipSpaces.skip 1) = .ok (e, c')) : ValueRead e c.rest c'.rest := by
  have hrest : trim c.rest = byteOf '(' :: (c.skipSpaces.skip 1).rest :=
    Cursor.rest_of_peek? hpeek
  obtain ⟨script, he⟩ := ih.equation h
  rcases script with hclosed | ⟨n, hopen, hbracket⟩
  · exact .of_operation he (.inl rfl) (hrest ▸ .group hclosed)
  · have htext : ValueText Tolerated (n + 1) (trim c.rest) c'.rest :=
      hrest ▸ .unclosed hopen hbracket
    exact .of_operation he (.inr hbracket) htext

theorem value_list (ih : Reads fuel) (hpeek : c.skipSpaces.peek? = some (byteOf '['))
    (h : (if ((c.skipSpaces.skip 1).skipSpaces).peek? = some (byteOf ']') then
        .ok (.value (.list []), (c.skipSpaces.skip 1).skipSpaces.skip 1)
      else readList fuel (c.skipSpaces.skip 1).skipSpaces >>= fun r =>
        .ok (.value (.list r.1), r.2)) = .ok (e, c')) : ValueRead e c.rest c'.rest := by
  have hrest : trim c.rest = byteOf '[' :: (c.skipSpaces.skip 1).rest :=
    Cursor.rest_of_peek? hpeek
  split at h
  · rename_i hclose
    cases h
    exact .of_value hpeek (by decide) (hrest ▸ .emptyList (Cursor.rest_of_peek? hclose))
  · obtain ⟨⟨items, c₁⟩, hitems, h⟩ := exists_of_bind h
    cases h
    exact .of_value hpeek (by decide) (hrest ▸ .list (.of_trim (ih.list hitems)))

theorem value_pattern (hpeek : c.skipSpaces.peek? = some (byteOf '/'))
    (h : (readPattern (c.skipSpaces.skip 1) >>= fun r => .ok (.value (.regex r.1), r.2)) =
      .ok (e, c')) : ValueRead e c.rest c'.rest := by
  have hrest : trim c.rest = byteOf '/' :: (c.skipSpaces.skip 1).rest :=
    Cursor.rest_of_peek? hpeek
  obtain ⟨⟨r, c₁⟩, hpattern, h⟩ := exists_of_bind h
  cases h
  exact .of_value hpeek (by decide) (hrest ▸ .pattern (readPattern_delimited hpattern))

theorem value_negation (ih : Reads fuel) (hpeek : c.skipSpaces.peek? = some (byteOf '!'))
    (h : (readValue fuel (c.skipSpaces.skip 1) >>= fun r => .ok (.unary .lnot r.1, r.2)) =
      .ok (e, c')) : ValueRead e c.rest c'.rest := by
  have hrest : trim c.rest = byteOf '!' :: (c.skipSpaces.skip 1).rest :=
    Cursor.rest_of_peek? hpeek
  obtain ⟨⟨e', c₁⟩, hnegated, h⟩ := exists_of_bind h
  cases h
  obtain ⟨n, htext, hn⟩ := (ih.value hnegated).text
  exact .of_operation rfl (hn.imp_right And.left) (hrest ▸ .negation htext)

theorem value_call (ih : Reads fuel) {op : Operator} (hop : op.isFunction)
    (h : readFunction fuel op c.skipSpaces = .ok (e, c')) : ValueRead e c.rest c'.rest := by
  obtain ⟨htext, he⟩ := ih.call hop h
  exact .of_operation he (.inl rfl) htext

theorem value_step (ih : Reads fuel) (h : readValue (fuel + 1) c = .ok (e, c')) :
    ValueRead e c.rest c'.rest := by
  unfold readValue at h
  dsimp only at h
  split at h
  · cases h
  · rename_i b hpeek
    split at h
    · rename_i hb
      obtain ⟨⟨v, c₁⟩, hnumber, h⟩ := exists_of_bind h
      cases h
      obtain ⟨text, hsplit, hnumeral⟩ := readNumber_numeral hpeek hb hnumber
      have hsplit' : trim c.rest = text ++ c₁.rest := hsplit
      exact .of_value hpeek (mayBeginAlone_of hb (by decide)) (hsplit' ▸ .number hnumeral _)
    · split at h
      · rename_i hquote
        have hrest : trim c.rest = b :: (c.skipSpaces.skip 1).rest := Cursor.rest_of_peek? hpeek
        obtain ⟨⟨s, c₁⟩, hstring, h⟩ := exists_of_bind h
        cases h
        exact .of_value hpeek (mayBeginAlone_of hquote (by decide))
          (hrest ▸ .quoted hquote (readQuoted_delimited hquote hstring))
      · -- the byte is known by its character
        have peek_of : ∀ {ch : Char}, charOf b = ch → c.skipSpaces.peek? = some (byteOf ch) := by
          rintro ch rfl
          rwa [byteOf_charOf]
        split at h
        · exact value_word (peek_of ‹_›) (by decide) (by decide) h
        · exact value_word (peek_of ‹_›) (by decide) (by decide) h
        · exact value_word (peek_of ‹_›) (by decide) (by decide) h
        · exact value_word (peek_of ‹_›) (by decide) (by decide) h
        · exact ih.value_path (peek_of ‹_›) (.inr rfl) h
        · exact ih.value_path (peek_of ‹_›) (.inl rfl) h
        · exact ih.value_group (peek_of ‹_›) h
        · exact ih.value_list (peek_of ‹_›) h
        · exact value_pattern (peek_of ‹_›) h
        · exact ih.value_negation (peek_of ‹_›) h
        · exact ih.value_call rfl h
        · exact ih.value_call rfl h
        · exact ih.value_call rfl h
        · exact ih.value_call rfl h
        · cases h

end operands

end Reads

theorem reads [Libraries] (fuel : Nat) : Reads fuel := by
  induction fuel with
  | zero => exact ⟨nofun, nofun, nofun, nofun, nofun, nofun, nofun, nofun⟩
  | succ fuel ih =>
    exact {
      fragments := ih.fragments_step
      bracket := ih.bracket_step
      filter := ih.filter_step
      equation := ih.equation_step
      run := ih.run_step
      value := ih.value_step
      list := ih.list_step
      call := ih.call_step }

/-- Every path that is read has the form of the grammar. Its filters may leave parentheses open at
their closing bracket, and may have one before it that nothing has opened; outside of quoted names
and patterns all other parentheses are balanced. -/
theorem Path.text_of_parseBytes [Libraries] {bytes : List UInt8} {p : Path}
    (h : Path.parseBytes bytes = .ok p) : PathText Tolerated bytes := by
  obtain ⟨c, hread, hempty⟩ := exists_of_parseBytes h
  have text := (reads _).fragments hread
  rwa [hempty] at text

/-- Two groups that the first filter leaves open, one parenthesis too many in the second, and one
in a quoted name that does not count. -/
theorem Path.text_of_parseBytes_of_loose_filters :
    let bytes := Text.Utf8.encode "$[?((@['('] == 1][?@.b)]".toList
    (∃ p, Path.parseBytes bytes = .ok p) ∧ PathText Tolerated bytes := by
  intro bytes
  have hread : (Path.parseBytes bytes).isOk := by decide +kernel
  obtain ⟨p, hp⟩ : ∃ p, Path.parseBytes bytes = .ok p := by
    cases h : Path.parseBytes bytes with
    | error e => exact absurd hread (by rw [h]; exact Bool.false_ne_true)
    | ok p => exact ⟨p, rfl⟩
  exact ⟨⟨p, hp⟩, text_of_parseBytes hp⟩

/-- A filter is read although its parenthesis is never closed. -/
theorem Path.parse_of_unclosed_filter :
    let text := "$[?(@.x == 1]"
    (Path.parse text).isOk ∧ ¬PathText (· = 0) (Text.Utf8.encode text.toList) := by
  refine ⟨by decide +kernel, fun h => ?_⟩
  have hbare : Bare (Text.Utf8.encode "$[?(@.x == 1]".toList) := by
    unfold Bare
    decide +kernel
  exact absurd (h.level_eq hbare) (by decide +kernel)

end DocPath
