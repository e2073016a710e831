import DocPath.Proofs.Path.Lexemes

/-!
# Counting parentheses

In a text in which no quoted name and no pattern begins, what the grammar says about open
parentheses is what counting them gives. A balanced path has as many of either kind.
-/

namespace DocPath

/-- How many more parentheses are opened in a text than closed. -/
def level (bytes : List UInt8) : Int := bytes.count (byteOf '(') - bytes.count (byteOf ')')

def Bare (bytes : List UInt8) : Prop := ∀ b ∈ bytes, ¬isQuote b ∧ b ≠ byteOf '/'

theorem level_cons (b : UInt8) (bytes : List UInt8) :
    level (b :: bytes) = level [b] + level bytes := by
  simp only [level, List.count_cons, List.count_nil]
  omega

/-- Between two places so many more parentheses are opened than closed, if all of them count. -/
def Opens (n : Int) (bytes rest : List UInt8) : Prop :=
  Bare bytes → level bytes = n + level rest ∧ Bare rest

namespace Opens

variable {m n : Int} {b : UInt8} {bytes behind rest : List UInt8}

theorem refl (bytes : List UInt8) : Opens 0 bytes bytes := fun h => ⟨(Int.zero_add _).symm, h⟩

theorem trans (h : Opens m bytes behind) (h' : Opens n behind rest) : Opens (m + n) bytes rest := by
  intro hbytes
  obtain ⟨hlevel, hbehind⟩ := h hbytes
  obtain ⟨hlevel', hrest⟩ := h' hbehind
  exact ⟨by rw [hlevel, hlevel', Int.add_assoc], hrest⟩

theorem cons (b : UInt8) (h : Opens n bytes rest) : Opens (level [b] + n) (b :: bytes) rest := by
  intro hbytes
  obtain ⟨hlevel, hrest⟩ := h (List.forall_mem_cons.mp hbytes).2
  exact ⟨by rw [level_cons, hlevel, Int.add_assoc], hrest⟩

theorem opening (h : Opens n bytes rest) : Opens (1 + n) (byteOf '(' :: bytes) rest :=
  h.cons (byteOf '(')

theorem closing (rest : List UInt8) : Opens (-1) (byteOf ')' :: rest) rest :=
  (refl rest).cons (byteOf ')')

theorem byte (hb : b ≠ byteOf '(' ∧ b ≠ byteOf ')') (h : Opens n bytes rest) :
    Opens n (b :: bytes) rest := by
  have hlevel : level [b] = 0 := by
    simp [level, hb]
  have hcons := h.cons b
  rwa [hlevel, Int.zero_add] at hcons

/-- Nothing is counted where a literal begins. -/
theorem literal (hb : isQuote b ∨ b = byteOf '/') : Opens n (b :: bytes) rest := by
  intro hbytes
  obtain ⟨hquote, hslash⟩ := (List.forall_mem_cons.mp hbytes).1
  exact absurd hb (not_or.mpr ⟨hquote, hslash⟩)

theorem passed (hpasses : Passes bytes behind) (h : Opens n behind rest) : Opens n bytes rest := by
  obtain ⟨text, rfl, hplain⟩ := hpasses
  induction text with
  | nil => exact h
  | cons b text ih =>
    obtain ⟨hb, hplain⟩ := List.forall_mem_cons.mp hplain
    exact .byte ⟨ne_mark hb (by decide), ne_mark hb (by decide)⟩ (ih hplain)

theorem name (hb : isNameByte b) (h : Opens n (bytes.dropWhile isNameByte) rest) :
    Opens n (b :: bytes) rest :=
  .passed (.cons (isPlain_of hb (by decide)) (.dropWhile (by decide) bytes)) h

theorem of_eq (h : Opens m bytes rest) (hmn : m = n) : Opens n bytes rest := hmn ▸ h

/-- What has been counted stays so after a byte that is no parenthesis. -/
theorem next (hb : b ≠ byteOf '(' ∧ b ≠ byteOf ')') (h : Opens n bytes (b :: rest)) :
    Opens n bytes rest :=
  (h.trans (.byte hb (.refl rest))).of_eq (Int.add_zero n)

theorem closed (h : Opens n bytes (byteOf ')' :: rest)) : Opens (n - 1) bytes rest :=
  h.trans (.closing rest)

theorem untilTrim (h : Opens n bytes rest) : Opens n bytes (trim rest) :=
  (h.trans (.passed (.trim rest) (.refl _))).of_eq (Int.add_zero n)

theorem trimmed (h : Opens n (trim bytes) rest) : Opens n bytes rest := .passed (.trim bytes) h

theorem append {text : List UInt8} (htext : text.all isPlain) (h : Opens n bytes rest) :
    Opens n (text ++ bytes) rest :=
  .passed ⟨text, rfl, List.all_eq_true.mp htext⟩ h

theorem operator {name : String} {op : Operator} (hname : Operator.ofName? name = some op)
    (h : Opens n bytes rest) : Opens n (name.toList.map byteOf ++ bytes) rest := by
  unfold Operator.ofName? at hname
  split at hname
  · rename_i htilde
    subst htilde
    exact .append (by decide) h
  · have hfound := List.find?_some hname
    obtain rfl : op.name = name := of_decide_eq_true hfound
    cases op
    case divide => exact .literal (.inr rfl)
    all_goals exact .append (by decide) h

theorem word {w : String} (hw : w ∈ literalWords) (h : Opens n bytes rest) :
    Opens n (w.toList.map byteOf ++ bytes) rest := by
  have hplain : literalWords.all fun w => (w.toList.map byteOf).all isPlain := by decide
  exact .append (List.all_eq_true.mp hplain w hw) h

theorem call {op : Operator} (hop : op.isFunction) (h : Opens n bytes rest) :
    Opens (1 + n) (callOpening op ++ bytes) rest := by
  have htext : callOpening op ++ bytes = op.name.toList.map byteOf ++ byteOf '(' :: bytes := by
    simp [callOpening]
  rw [htext]
  cases op
  case length | count | wholeMatch | search => exact .append (by decide) h.opening
  all_goals cases hop

end Opens

theorem SelectorText.opens {bytes rest : List UInt8} (h : SelectorText bytes rest) :
    Opens 0 bytes rest := by
  induction h with
  | close rest => exact .byte (by decide) (.refl rest)
  | byte hb _ ih => exact .byte ⟨ne_mark hb (by decide), ne_mark hb (by decide)⟩ ih
  | quoted hquote _ _ _ => exact .literal (.inl hquote)

mutual

theorem FragmentsText.opens {first after : Bool} {bytes rest : List UInt8} :
    FragmentsText (· = 0) first after bytes rest → Opens 0 bytes rest
  | .stop _ => .refl _
  | .origin hb more => by
    have := more.opens
    rcases hb with rfl | rfl
    · exact .byte (by decide) this
    · exact .byte (by decide) this
  | .descent more => .byte (by decide) (.byte (by decide) more.opens)
  | .pointStar more => .byte (by decide) (.byte (by decide) more.opens)
  | .pointName hb more => .byte (by decide) (.name hb more.opens)
  | .star more => .byte (by decide) more.opens
  | .name hb _ more => .name hb more.opens
  | .bracket inside more => .byte (by decide) (inside.opens.trans more.opens)

theorem BracketText.opens {bytes rest : List UInt8} :
    BracketText (· = 0) bytes rest → Opens 0 bytes rest
  | .selector _ h => h.opens
  | .filter hopen h hexcess => by
    have hfilter := h.opens
    rw [hexcess] at hfilter
    exact .trimmed (hopen ▸ .byte (by decide) hfilter)

theorem FilterText.opens {n : Int} {bytes rest : List UInt8} :
    FilterText (· = 0) n bytes rest → Opens n bytes rest
  | .enclosed h => .next (by decide) h.opens.opening.closed
  | .unclosed h => (Opens.next (by decide) h.opens.opening).of_eq (by omega)
  | .bare _ h => .next (by decide) h.opens
  | .surplus _ h => .next (by decide) h.opens.closed

theorem EquationText.opens {n : Nat} {bytes rest : List UInt8} :
    EquationText (· = 0) n bytes rest → Opens n bytes rest
  | .last h => h.opens.untilTrim
  | .more h hname _ hnext hmore =>
    ((hnext ▸ h.opens.untilTrim).trans (.operator hname hmore.opens)).of_eq (by omega)

theorem ValueText.opens {n : Nat} {bytes rest : List UInt8} :
    ValueText (· = 0) n bytes rest → Opens n bytes rest
  | .blank h => .byte (by decide) h.opens
  | .number h rest => .passed ⟨_, rfl, h.1⟩ (.refl rest)
  | .word h rest => .word h (.refl rest)
  | .quoted hquote _ => .literal (.inl hquote)
  | .pattern _ => .literal (.inr rfl)
  | .path _ h => h.opens
  | .group h => h.opens.opening.closed
  | .unclosed h _ => h.opens.opening.of_eq (by omega)
  | .negation h => .byte (by decide) h.opens
  | .emptyList h => .byte (by decide) (.trimmed (h ▸ .byte (by decide) (.refl _)))
  | .list h => .byte (by decide) h.opens
  | .call hop h hclose => (hclose ▸ (h.opens.untilTrim.call hop)).closed
  | .callTwo hop h hcomma h' hclose => by
    have hfirst := (hcomma ▸ h.opens.untilTrim).next (by decide)
    have hboth := hclose ▸ (hfirst.trans h'.opens).untilTrim
    exact (hboth.call hop).closed

theorem ItemsText.opens {bytes rest : List UInt8} :
    ItemsText (· = 0) bytes rest → Opens 0 bytes rest
  | .last h hclose => (hclose ▸ h.opens.untilTrim).next (by decide)
  | .more h hcomma hmore => ((hcomma ▸ h.opens.untilTrim).next (by decide)).trans hmore.opens

end

/-- In a balanced path without quoted names and patterns as many parentheses are closed as are
opened. -/
theorem PathText.level_eq {bytes : List UInt8} (h : PathText (· = 0) bytes) (hbytes : Bare bytes) :
    level bytes = 0 :=
  (h.opens hbytes).1

end DocPath
