import DocPath.Builtin
import DocPath.Proofs.Decimal.Doubles
import DocPath.Proofs.Path.Regular
import DocPath.Proofs.Script.RoundTrip

/-!
# Scripts that have been read and written

A script that has been read is read again from its own text, with all the paths, lists and filters
in it, as long as two kinds of operands stand nowhere in it: a pattern match directly below `!`, and
an infix operator that is itself the argument of a function. Their parentheses are not written.
-/

namespace DocPath

/-- Whether the text tells an operator from the one above it. Between infix operators parentheses
stand where they are needed. -/
def Operator.keepsApart (parent child : Operator) : Bool :=
  !(parent = .lnot && child = .pattern) && !(parent.isFunction && child.isInfix)

/-- Whether the text tells every operator of a tree from the one above it. -/
def Equation.keepsApart : Equation → Bool
  | .value _ => true
  | .unary op left => left.top?.all op.keepsApart && left.keepsApart
  | .binary op left right =>
    left.top?.all op.keepsApart && left.keepsApart &&
      (right.top?.all op.keepsApart && right.keepsApart)

/-- The same of the tree of a template. -/
def Script.keepsApart (s : Script) : Bool := (inspect s).keepsApart

/-- Filters whose text keeps their operators apart, and all other fragments. -/
def Fragment.KeepsApart : Fragment → Prop
  | .filter template => Script.keepsApart template
  | _ => True

/-- Floats that are finite and what their text denotes, and all other operands. -/
def Operand.Reproducible : Operand → Prop
  | .float x => x.isFinite ∧ Decimal.readFloat? (Decimal.writeFloat x) = some x
  | _ => True

instance : DecidablePred Fragment.KeepsApart
  | .filter template => inferInstanceAs (Decidable (Script.keepsApart template = true))
  | .root | .current | .bracket | .child _ | .nth _ | .wildcard | .descent | .slice _
  | .union _ => .isTrue trivial

instance : DecidablePred Operand.Reproducible
  | .float x =>
    inferInstanceAs (Decidable (x.isFinite = true ∧
      Decimal.readFloat? (Decimal.writeFloat x) = some x))
  | .null | .nothing | .bool _ | .int _ | .str _ | .list _ | .regex _ | .path _ => .isTrue trivial

namespace Equation

variable {e left right : Equation} {op : Operator}

theorem isRun_eq_false_of_keepsApart (h : left.top?.all op.keepsApart) (hop : op.isFunction) :
    left.isRun = false := by
  cases left with
  | binary op' left right =>
    simp only [top?, Option.all_some, Operator.keepsApart, hop, Bool.true_and, Bool.and_eq_true,
      Bool.not_eq_true'] at h
    exact h.2
  | _ => rfl

theorem top?_ne_pattern_of_keepsApart (h : left.top?.all Operator.lnot.keepsApart) :
    left.top? ≠ some .pattern := by
  intro hpattern
  rw [hpattern] at h
  cases h

/-- A tree is legible if its operands are read back and its text keeps its operators apart. -/
theorem Saturated.legible [Libraries] (hsat : e.Saturated) (hapart : e.keepsApart)
    (hoperands : ∀ o, .operand o ∈ e.compile → o.ReadsBack) : e.Legible := by
  induction e with
  | value o => exact .value (hoperands o List.mem_cons_self)
  | unary op left ih =>
    obtain ⟨htop, hleft⟩ := Bool.and_eq_true_iff.mp hapart
    rw [hsat.compile_unary] at hoperands
    have legible := ih hsat.2 hleft fun o ho => hoperands o (List.mem_cons_of_mem _ ho)
    cases hop : op.isFunction with
    | true => exact .call hop hsat.1 legible (isRun_eq_false_of_keepsApart htop hop)
    | false =>
      obtain rfl : op = .lnot := by
        have hone := hsat.1
        cases op <;> first | rfl | exact absurd hop (by decide) | exact absurd hone (by decide)
      exact .negation legible (top?_ne_pattern_of_keepsApart htop)
  | binary op left right ihl ihr =>
    simp only [keepsApart, Bool.and_eq_true] at hapart
    rw [hsat.compile_binary] at hoperands
    have legibleL := ihl hsat.2.1 hapart.1.2 fun o ho =>
      hoperands o (List.mem_cons_of_mem _ (List.mem_append_left _ ho))
    have legibleR := ihr hsat.2.2 hapart.2.2 fun o ho =>
      hoperands o (List.mem_cons_of_mem _ (List.mem_append_right _ ho))
    cases hop : op.isFunction with
    | true =>
      exact .callTwo hop hsat.1 legibleL legibleR (isRun_eq_false_of_keepsApart hapart.1.1 hop)
        (isRun_eq_false_of_keepsApart hapart.2.1 hop)
    | false => exact .between (by simp [Operator.isInfix, hsat.1, hop]) legibleL legibleR

end Equation

/-- A template that is the code of an operation is that of a legible tree. -/
theorem Script.CodesOperation.exists_legible [Libraries] {s : Script} (h : s.CodesOperation)
    (hapart : s.keepsApart) (hoperands : ∀ o, .operand o ∈ s → o.ReadsBack) :
    ∃ e : Equation, e.Legible ∧ e.top? ≠ none ∧ e.compile = s := by
  obtain ⟨e, ⟨hsat, rfl⟩, hop, -⟩ := h
  have hread := readTree_compile e []
  rw [List.append_nil, hsat.saturate_eq] at hread
  rw [keepsApart, inspect_eq_readTree, hread] at hapart
  refine ⟨e, hsat.legible hapart hoperands, ?_, rfl⟩
  cases e <;> first | exact Option.some_ne_none _ | cases hop

theorem Operand.readsBack_of_beginsAtOrigin [Libraries] {p : Path} (horigin : p.BeginsAtOrigin)
    (hanchored : p.Anchored) (hall : ∀ f ∈ p, f.ReadsBack) : ReadsBack (.path p) := by
  cases p with
  | nil => rcases horigin with h | h <;> cases h
  | cons f fs =>
    have hf : f = .root ∨ f = .current := by simpa [Path.BeginsAtOrigin] using horigin
    exact readsBack_path hf (List.forall_mem_cons.mp hall).2 hanchored

-- A filter is read back through the tree of its template, whose operands lie deeper than itself.
mutual

theorem Fragment.AsRead.readsBack [Libraries] (f : Fragment) (h : f.AsRead)
    (hkept : f.Throughout Fragment.KeepsApart Operand.Reproducible) : f.ReadsBack := by
  cases f with
  | bracket => exact h.elim
  | filter template =>
    obtain ⟨e, he, htop, rfl⟩ :=
      h.1.exists_legible hkept.1 (slots_readBack template h.2 hkept.2)
    exact Fragment.readsBack_filter he htop
  | union keys => exact Fragment.Unambiguous.readsBack h
  | _ => exact Fragment.Unambiguous.readsBack trivial

theorem fragments_readBack [Libraries] (fs : List Fragment) (h : FragmentsAsRead fs)
    (hkept : FragmentsThroughout Fragment.KeepsApart Operand.Reproducible fs) :
    ∀ f ∈ fs, f.ReadsBack := by
  cases fs with
  | nil => exact nofun
  | cons f fs =>
    exact List.forall_mem_cons.mpr ⟨Fragment.AsRead.readsBack f h.1 hkept.1,
      fragments_readBack fs h.2 hkept.2⟩

theorem slots_readBack [Libraries] (s : List Slot) (h : SlotsAsRead s)
    (hkept : SlotsThroughout Fragment.KeepsApart Operand.Reproducible s) :
    ∀ o, .operand o ∈ s → o.ReadsBack := by
  match s with
  | [] => exact nofun
  | .op op :: rest =>
    intro o ho
    exact slots_readBack rest h hkept o (by simpa using ho)
  | .operand o' :: rest =>
    intro o ho
    rcases List.mem_cons.mp ho with heq | ho
    · cases heq
      exact Operand.AsRead.readsBack o' h.1 hkept.1
    · exact slots_readBack rest h.2 hkept.2 o ho

theorem Operand.AsRead.readsBack [Libraries] (o : Operand) (h : o.AsRead)
    (hkept : o.Throughout Fragment.KeepsApart Operand.Reproducible) : o.ReadsBack := by
  cases o with
  | null => exact Operand.readsBack_null
  | nothing => exact Operand.readsBack_nothing
  | bool b => exact Operand.readsBack_bool b
  | int n => exact Operand.readsBack_int n
  | float x => exact Operand.readsBack_float hkept.1 hkept.2
  | str s => exact Operand.readsBack_str s
  | list items => exact Operand.readsBack_list (operands_readBack items h.2 hkept.2)
  | regex r => exact Operand.readsBack_regex h
  | path p =>
    exact Operand.readsBack_of_beginsAtOrigin h.1.1 h.1.2 (fragments_readBack p h.2 hkept.2)

theorem operands_readBack [Libraries] (os : List Operand) (h : OperandsAsRead os)
    (hkept : OperandsThroughout Fragment.KeepsApart Operand.Reproducible os) :
    ∀ o ∈ os, o.ReadsBack := by
  cases os with
  | nil => exact nofun
  | cons o os =>
    exact List.forall_mem_cons.mpr ⟨Operand.AsRead.readsBack o h.1 hkept.1,
      operands_readBack os h.2 hkept.2⟩

end

-- Only a float that is no number does not equal itself, and what holds one cannot be written and
-- read.

theorem Decimal.isNaN_of_isFinite {x : Float} (h : x.isFinite) : x.isNaN = false := by
  change x.toModel.unpack.isFinite at h
  change x.toModel.unpack.isNaN = false
  cases hx : x.toModel.unpack with
  | notANumber =>
    rw [hx] at h
    cases h
  | _ => rfl

/-- Templates are compared slot by slot. -/
theorem beqTemplates_eq (s s' : Script) : beqTemplates s s' = (s == s') := by
  induction s generalizing s' with
  | nil => cases s' <;> simp [beqTemplates]
  | cons slot s ih =>
    cases s' with
    | nil => simp [beqTemplates]
    | cons slot' s' =>
      rw [beqTemplates, ih, List.cons_beq_cons]
      rfl

mutual

theorem Fragment.Throughout.beq_self (f : Fragment)
    (h : f.Throughout Fragment.KeepsApart Operand.Reproducible) : f.beq f = true := by
  cases f with
  | filter template =>
    rw [Fragment.beq]
    exact slotsThroughout_beq_self template h.2
  | _ => simp [Fragment.beq]

theorem fragmentsThroughout_beq_self (fs : List Fragment)
    (h : FragmentsThroughout Fragment.KeepsApart Operand.Reproducible fs) :
    beqFragments fs fs = true := by
  cases fs with
  | nil => rw [beqFragments]
  | cons f fs =>
    rw [beqFragments, Fragment.Throughout.beq_self f h.1, fragmentsThroughout_beq_self fs h.2]
    rfl

theorem slotsThroughout_beq_self (s : List Slot)
    (h : SlotsThroughout Fragment.KeepsApart Operand.Reproducible s) :
    beqTemplates s s = true := by
  match s with
  | [] => rw [beqTemplates]
  | .op op :: rest =>
    rw [beqTemplates, Slot.beq, slotsThroughout_beq_self rest h, beq_self_eq_true]
    rfl
  | .operand o :: rest =>
    rw [beqTemplates, Slot.beq, Operand.Throughout.beq_self o h.1,
      slotsThroughout_beq_self rest h.2]
    rfl

theorem Operand.Throughout.beq_self (o : Operand)
    (h : o.Throughout Fragment.KeepsApart Operand.Reproducible) : o.beq o = true := by
  cases o with
  | float x =>
    rw [Operand.beq]
    exact Decimal.double_beq_self (Decimal.isNaN_of_isFinite h.1)
  | list items =>
    rw [Operand.beq]
    exact operandsThroughout_beq_self items h.2
  | path p =>
    rw [Operand.beq]
    exact fragmentsThroughout_beq_self p h.2
  | _ => simp [Operand.beq]

theorem operandsThroughout_beq_self (os : List Operand)
    (h : OperandsThroughout Fragment.KeepsApart Operand.Reproducible os) :
    beqOperands os os = true := by
  cases os with
  | nil => rw [beqOperands]
  | cons o os =>
    rw [beqOperands, Operand.Throughout.beq_self o h.1, operandsThroughout_beq_self os h.2]
    rfl

end

/-- A script that has been read is read again from its own text, and equals itself, if its floats
are reproducible and its text keeps operators apart, in it and in all filters inside it. -/
theorem Script.parse_text_of_parse [Libraries] {text : String} {s : Script} (h : parse text = .ok s)
    (hapart : s.keepsApart) (hinside : SlotsThroughout Fragment.KeepsApart Operand.Reproducible s) :
    parse s.text = .ok s ∧ (s == s) = true := by
  obtain ⟨hcode, hread⟩ := asRead_of_parse h
  obtain ⟨e, he, htop, rfl⟩ := hcode.exists_legible hapart (slots_readBack s hread hinside)
  exact ⟨parse_text_of_legible he htop,
    (beqTemplates_eq _ _).symm.trans (slotsThroughout_beq_self _ hinside)⟩

/-- A path that has been read is read again from its own text, on the same terms. -/
theorem Path.parse_text_of_parseBytes [Libraries] {bytes : List UInt8} {p : Path}
    (h : parseBytes bytes = .ok p)
    (hinside : FragmentsThroughout Fragment.KeepsApart Operand.Reproducible p) :
    Path.parse p.text = .ok p := by
  obtain ⟨c, hread, -⟩ := exists_of_parseBytes h
  have hshape := (readsRegular _).fragments _ _ _ p c hread
  exact parse_text_of_readsBack (fragments_readBack p hshape hinside) (anchored_of_parseBytes h)

/-- What has been read can be tested. -/
theorem exists_ok_of_any {ε α : Type} {x : Except ε α} {p : α → Bool} (h : x.toOption.any p) :
    ∃ a, x = .ok a ∧ p a := by
  cases x with
  | error e => cases h
  | ok a => exact ⟨a, rfl, h⟩

/-- Blanks, a missing parenthesis and a lone value are read, and not written. -/
theorem Script.parse_text_of_parse_of_nested :
    let text := "@.a[?@.b>1.5 ] ==[1,'x',2e300]&&!(length( @.c )<3)||match(@.d,/a\\/b/)"
    ∃ s, parse text = .ok s ∧ (s.keepsApart ∧
      SlotsThroughout Fragment.KeepsApart Operand.Reproducible s) ∧
      s.text = "(@.a[?(@.b > 1.5)] == [1,'x',2e300] && !(length(@.c) < 3) || match(@.d, /a\\/b/))" ∧
      parse s.text = .ok s ∧ (s == s) = true := by
  intro text
  have tested : (parse text).toOption.any fun s : Script => decide ((s.keepsApart ∧
      SlotsThroughout Fragment.KeepsApart Operand.Reproducible s) ∧ s.text =
        "(@.a[?(@.b > 1.5)] == [1,'x',2e300] && !(length(@.c) < 3) || match(@.d, /a\\/b/))") := by
    decide +kernel
  obtain ⟨s, hread, htest⟩ := exists_ok_of_any tested
  obtain ⟨⟨hapart, hinside⟩, htext⟩ := of_decide_eq_true htest
  exact ⟨s, hread, ⟨hapart, hinside⟩, htext, parse_text_of_parse hread hapart hinside⟩

/-- Without their parentheses, a pattern match below `!` is read as one of its negation, and a sum
as argument of a function is refused. -/
theorem Script.parse_text_of_missing_parentheses :
    (∃ s s', parse "(!(@.a ~= /x/))" = .ok s ∧ s.text = "(!@.a ~= /x/)" ∧ parse s.text = .ok s' ∧
      (s' == s) = false) ∧
    ∃ s, parse "(length((1 + 2)) == 3)" = .ok s ∧ s.text = "(length(1 + 2) == 3)" ∧
      (parse s.text).isOk = false := by
  have negated : (parse "(!(@.a ~= /x/))").toOption.any fun s : Script =>
      s.text = "(!@.a ~= /x/)" && (parse s.text).toOption.any fun s' => (s' == s) = false := by
    decide +kernel
  have argument : (parse "(length((1 + 2)) == 3)").toOption.any fun s : Script =>
      s.text = "(length(1 + 2) == 3)" && (parse s.text).isOk = false := by
    decide +kernel
  obtain ⟨s, hread, htest⟩ := exists_ok_of_any negated
  obtain ⟨htext, hagain⟩ := Bool.and_eq_true_iff.mp htest
  obtain ⟨s', hread', hne⟩ := exists_ok_of_any hagain
  obtain ⟨s₂, hread₂, htest₂⟩ := exists_ok_of_any argument
  obtain ⟨htext₂, hrefused⟩ := Bool.and_eq_true_iff.mp htest₂
  exact ⟨⟨s, s', hread, of_decide_eq_true htext, hread', of_decide_eq_true hne⟩,
    s₂, hread₂, of_decide_eq_true htext₂, of_decide_eq_true hrefused⟩

end DocPath
