import DocPath.Proofs.Pattern.Classes
import DocPath.Proofs.Pattern.Spans

/-!
# Patterns inside of groups

A reader that comes to an end within its text reads the same when a closing parenthesis follows,
and stops there. Only a comment that is open at the end hides the parenthesis, and then nothing is
left of the text. What is read has the bounds of its repetitions the right way round.
-/

namespace DocPath.Pattern

variable {t cs rest : List Char} {c : Char} {flags : Flags}

theorem readCount?_append {n : Option Nat} (h : readCount? cs = (n, c :: rest)) :
    readCount? (cs ++ t) = (n, c :: (rest ++ t)) := by
  unfold readCount? at h ⊢
  dsimp only at h ⊢
  obtain ⟨hcount, hrest⟩ := Prod.mk.inj h
  cases hblank : cs.dropWhile Text.isBlankChar with
  | nil =>
    rw [hblank] at hrest
    cases hrest
  | cons d ds =>
    rw [hblank] at hcount hrest
    rw [(dropWhile_append_of_cons hblank).1]
    cases hdigit : (d :: ds).dropWhile Char.isDigit with
    | nil =>
      rw [hdigit] at hrest
      cases hrest
    | cons e es =>
      rw [hdigit] at hrest
      obtain ⟨hdrop, htake⟩ := dropWhile_append_of_cons (t := t) hdigit
      rw [List.cons_append] at hdrop htake
      rw [hdrop, htake, ← List.cons_append, (dropWhile_append_of_cons hrest).1, hcount]

def readHigh? (low : Nat) (cs : List Char) : Option ((Nat × Option Nat) × List Char) := do
  let (high, rest) := readCount? cs
  let high ← high
  match rest with
  | '\x7d' :: rest => if low ≤ high then some ((low, some high), rest) else none
  | _ => none

theorem readHigh?_append {low : Nat} {bounds : Nat × Option Nat}
    (h : readHigh? low cs = some (bounds, rest)) :
    readHigh? low (cs ++ t) = some (bounds, rest ++ t) := by
  unfold readHigh? at h ⊢
  cases hcount : readCount? cs with
  | mk high afterHigh =>
    rw [hcount] at h
    obtain ⟨high', rfl, h⟩ := Option.bind_eq_some_iff.mp h
    dsimp only at h
    split at h
    · rw [readCount?_append hcount]
      dsimp only [Option.bind_eq_bind, Option.bind_some] at h ⊢
      split at h
      · cases h
        exact if_pos ‹_›
      · cases h
    · cases h

def readAfterComma? (flags : Flags) (low : Nat) (cs : List Char) :
    Option ((Nat × Option Nat) × List Char) :=
  match flags.skip cs with
  | '\x7d' :: rest => some ((low, none), rest)
  | rest => readHigh? low rest

theorem readAfterComma?_append {low : Nat} {bounds : Nat × Option Nat}
    (h : readAfterComma? flags low cs = some (bounds, rest)) :
    readAfterComma? flags low (cs ++ t) = some (bounds, rest ++ t) := by
  unfold readAfterComma? at h ⊢
  cases hskip : flags.skip cs with
  | nil =>
    rw [hskip] at h
    cases h
  | cons d ds =>
    rw [hskip] at h
    rw [Flags.skip_append hskip]
    split at h
    · rename_i heq
      cases heq
      cases h
      rfl
    · rename_i hbrace
      split
      · rename_i heq
        cases heq
        exact absurd rfl (hbrace _)
      · exact readHigh?_append h

theorem readBounds?_append {bounds : Nat × Option Nat}
    (h : readBounds? flags cs = some (bounds, rest)) :
    readBounds? flags (cs ++ t) = some (bounds, rest ++ t) := by
  unfold readBounds? at h ⊢
  cases hskip : flags.skip cs with
  | nil =>
    rw [hskip] at h
    cases h
  | cons d ds =>
    rw [hskip] at h
    rw [Flags.skip_append hskip]
    cases hcount : readCount? (d :: ds) with
    | mk low afterLow =>
      rw [hcount] at h
      obtain ⟨low', rfl, h⟩ := Option.bind_eq_some_iff.mp h
      cases afterLow with
      | nil => cases h
      | cons e es =>
        have hcount' := readCount?_append (t := t) hcount
        rw [List.cons_append] at hcount'
        rw [hcount']
        dsimp only at h
        split at h
        · rename_i heq
          cases heq
          cases h
          rfl
        · rename_i heq
          cases heq
          exact readAfterComma?_append h
        · cases h

/-- A mark that is not there is no parenthesis either. -/
theorem skipLazyMark_append (ht : Closing t) :
    skipLazyMark flags (cs ++ t) = skipLazyMark flags cs ++ t := by
  unfold skipLazyMark
  cases hskip : flags.skip cs with
  | nil =>
    obtain ⟨more, rfl⟩ := ht.head
    obtain ⟨commented, hnext⟩ := Flags.skip_closing hskip
    rw [hnext ht]
    cases commented <;> rfl
  | cons d ds =>
    rw [Flags.skip_append hskip]
    split
    · rename_i heq
      cases heq
      rfl
    · rename_i hmark
      split
      · rename_i heq
        cases heq
        exact absurd rfl (hmark _)
      · rfl

/-- Nothing is repeated where no mark follows. -/
theorem readRepetitions?_unmarked {fuel : Nat} {n : Node}
    (h : ∀ d ds, flags.skip cs = d :: ds → d ≠ '*' ∧ d ≠ '+' ∧ d ≠ '?' ∧ d ≠ '\x7b') :
    readRepetitions? flags (fuel + 1) n cs = some (n, cs) := by
  unfold readRepetitions?
  dsimp only
  split
  · exact absurd rfl (h _ _ ‹_›).1
  · exact absurd rfl (h _ _ ‹_›).2.1
  · exact absurd rfl (h _ _ ‹_›).2.2.1
  · exact absurd rfl (h _ _ ‹_›).2.2.2
  · rfl

theorem readRepetitions?_append {fuel fuel' : Nat} {n m : Node} (ht : Closing t)
    (hle : fuel ≤ fuel') (h : readRepetitions? flags fuel n cs = some (m, rest)) :
    readRepetitions? flags fuel' n (cs ++ t) = some (m, rest ++ t) := by
  induction fuel generalizing fuel' n cs with
  | zero => cases h
  | succ fuel ih =>
    obtain ⟨fuel', rfl⟩ := Nat.exists_eq_add_of_le' (Nat.le_trans (Nat.succ_pos fuel) hle)
    have again : ∀ {n cs}, readRepetitions? flags fuel n (skipLazyMark flags cs) = some (m, rest) →
        readRepetitions? flags fuel' n (skipLazyMark flags (cs ++ t)) = some (m, rest ++ t) := by
      intro n cs h
      rw [skipLazyMark_append ht]
      exact ih (Nat.le_of_succ_le_succ hle) h
    unfold readRepetitions? at h
    dsimp only at h
    cases hskip : flags.skip cs with
    | nil =>
      rw [hskip] at h
      cases h
      refine readRepetitions?_unmarked fun d ds hnext => ?_
      obtain ⟨more, rfl⟩ := ht.head
      obtain ⟨commented, hclosing⟩ := Flags.skip_closing hskip
      rw [hclosing ht] at hnext
      cases commented <;> cases hnext
      decide
    | cons d ds =>
      have hnext : flags.skip (cs ++ t) = d :: (ds ++ t) := Flags.skip_append hskip
      rw [hskip] at h
      split at h
      case h_1 heq | h_2 heq | h_3 heq =>
        cases heq
        rw [readRepetitions?, hnext]
        exact again h
      case h_4 heq =>
        cases heq
        rw [readRepetitions?, hnext]
        cases hbounds : readBounds? flags ds with
        | none =>
          rw [hbounds] at h
          cases h
        | some p =>
          rw [hbounds] at h
          simp only [readBounds?_append hbounds]
          exact again h
      case h_5 hstar hplus hquery hbrace =>
        cases h
        refine readRepetitions?_unmarked fun e es heq => ?_
        obtain ⟨rfl, -⟩ := List.cons.inj (hnext.symm.trans heq)
        exact ⟨fun h => hstar ds (h ▸ rfl), fun h => hplus ds (h ▸ rfl),
          fun h => hquery ds (h ▸ rfl), fun h => hbrace ds (h ▸ rfl)⟩

theorem readName?_append {name : String} (h : readName? cs = some (name, rest)) :
    readName? (cs ++ t) = some (name, rest ++ t) := by
  unfold readName? at h ⊢
  dsimp only at h ⊢
  split at h
  · rename_i hname hdrop
    obtain ⟨hdrop', htake'⟩ := dropWhile_append_of_cons (t := t) hdrop
    split at h
    · rename_i hchars
      cases h
      rw [hdrop', htake', hname]
      exact if_pos hchars
    · cases h
  · cases h

theorem readFlags?_append {on groups : Bool} {seen : List Char} {after : Flags}
    (h : readFlags? flags on seen cs = some (after, groups, rest)) :
    readFlags? flags on seen (cs ++ t) = some (after, groups, rest ++ t) := by
  induction cs generalizing flags on seen with
  | nil => cases h
  | cons c cs ih =>
    have done : ∀ here, (if seen.head? = some '-' ∨ (seen.isEmpty ∧ !here) then none
          else some (flags, here, cs)) = some (after, groups, rest) →
        (if seen.head? = some '-' ∨ (seen.isEmpty ∧ !here) then none
          else some (flags, here, cs ++ t)) = some (after, groups, rest ++ t) := by
      intro here h
      split at h
      · cases h
      · cases h
        exact if_neg ‹_›
    rw [readFlags?] at h
    rw [List.cons_append, readFlags?]
    dsimp only at h ⊢
    split at h
    · rw [if_pos ‹_›]
      exact done true h
    · rw [if_neg ‹_›]
      split at h
      · rw [if_pos ‹_›]
        exact done false h
      · rw [if_neg ‹_›]
        split at h
        · cases h
        · rw [if_neg ‹_›]
          split at h
          · rw [if_pos ‹_›]
            exact ih h
          · rw [if_neg ‹_›]
            cases hset : flags.set? on c with
            | none =>
              rw [hset] at h
              cases h
            | some f =>
              rw [hset] at h
              exact ih h

/-- What a reader finds with some fuel it finds as well, with more fuel, in front of closing text.
That text is left behind what was left before, or nothing is, when a comment swallows it. -/
def ReadsOn (read : Nat → Scope → List Char → Option (Node × Scope × List Char)) (fuel : Nat)
    (scope : Scope) (cs : List Char) (n : Node) (scope' : Scope) (rest : List Char) : Prop :=
  ∃ commented : Bool, (commented → rest = []) ∧
    ∀ {fuel'}, fuel ≤ fuel' → ∀ {t}, Closing t →
      read fuel' scope (cs ++ t) = some (n, scope', if commented then [] else rest ++ t)

/-- The readers with some fuel read on in front of closing text. -/
structure ReadOn (fuel : Nat) : Prop where
  alternatives {scope scope' : Scope} {cs rest : List Char} {n : Node}
    (h : readAlternatives? fuel scope cs = some (n, scope', rest)) :
    ReadsOn readAlternatives? fuel scope cs n scope' rest
  sequence {scope scope' : Scope} {cs rest : List Char} {n : Node}
    (h : readSequence? fuel scope cs = some (n, scope', rest)) :
    ReadsOn readSequence? fuel scope cs n scope' rest
  item {fuel' : Nat} {scope scope' : Scope} {t cs rest : List Char} {x : Item} (ht : Closing t)
    (hle : fuel ≤ fuel') (h : readItem? fuel scope cs = some (x, scope', rest)) :
    readItem? fuel' scope (cs ++ t) = some (x, scope', rest ++ t)
  group {fuel' : Nat} {scope scope' : Scope} {t cs rest : List Char} {x : Item} (ht : Closing t)
    (hle : fuel ≤ fuel') (h : readGroup? fuel scope cs = some (x, scope', rest)) :
    readGroup? fuel' scope (cs ++ t) = some (x, scope', rest ++ t)

section steps

variable {fuel fuel' : Nat} {scope scope' : Scope} {n : Node} {x : Item}

theorem ReadOn.alternatives_step (ih : ReadOn fuel)
    (h : readAlternatives? (fuel + 1) scope cs = some (n, scope', rest)) :
    ReadsOn readAlternatives? (fuel + 1) scope cs n scope' rest := by
  obtain ⟨⟨n₁, scope₁, rest₁⟩, hfirst, h⟩ := Option.bind_eq_some_iff.mp h
  obtain ⟨commented, hempty, hfirst'⟩ := ih.sequence hfirst
  dsimp only at h
  split at h
  · -- a comment that is open leaves no bar
    obtain rfl : commented = false := by
      cases commented with
      | false => rfl
      | true => cases hempty rfl
    obtain ⟨⟨m, scope₂, rest₂⟩, hmore, h⟩ := Option.bind_eq_some_iff.mp h
    cases h
    obtain ⟨commented, hempty, hmore'⟩ := ih.alternatives hmore
    refine ⟨commented, hempty, fun {fuel'} hle {t} ht => ?_⟩
    obtain ⟨fuel', rfl⟩ := Nat.exists_eq_add_of_le' (Nat.le_trans (Nat.succ_pos fuel) hle)
    have hle := Nat.le_of_succ_le_succ hle
    rw [readAlternatives?, hfirst' hle ht]
    exact congrArg (Option.bind · _) (hmore' hle ht)
  · rename_i hbar
    cases h
    refine ⟨commented, hempty, fun {fuel'} hle {t} ht => ?_⟩
    obtain ⟨fuel', rfl⟩ := Nat.exists_eq_add_of_le' (Nat.le_trans (Nat.succ_pos fuel) hle)
    rw [readAlternatives?, hfirst' (Nat.le_of_succ_le_succ hle) ht]
    dsimp only [Option.bind_eq_bind, Option.bind_some]
    split
    · rename_i more heq
      -- neither what was left nor the parenthesis is a bar
      exfalso
      cases commented with
      | false =>
        obtain ⟨cs', hcs⟩ := ht.cons_of_append (by decide : '|' ≠ ')') heq
        exact hbar cs' hcs
      | true => cases heq
    · rfl

def readBehind? (fuel : Nat) (scope : Scope) (rest : List Char) :
    Item → Option (Node × Scope × List Char)
  | .flags f => readSequence? fuel { scope with flags := f } rest
  | .node n =>
    (readRepetitions? scope.flags (rest.length + 1) n rest).bind fun (n, rest) =>
      (readSequence? fuel scope rest).bind fun (m, scope, rest) => some (.seq n m, scope, rest)

theorem readSequence?_item {ds : List Char} (hskip : scope.flags.skip cs = c :: ds) (hbar : c ≠ '|')
    (hparen : c ≠ ')') :
    readSequence? (fuel + 1) scope cs = (readItem? fuel scope (c :: ds)).bind
      fun (x, scope, rest) => readBehind? fuel scope rest x := by
  rw [readSequence?, hskip]
  split
  · rename_i heq
    cases heq
  · rename_i heq
    exact absurd (List.cons.inj heq).1 hbar
  · rename_i heq
    exact absurd (List.cons.inj heq).1 hparen
  · cases readItem? fuel scope (c :: ds) with
    | none => rfl
    | some p =>
      obtain ⟨item, scope₁, rest₁⟩ := p
      cases item <;> rfl

theorem ReadOn.readBehind? (ih : ReadOn fuel) (h : readBehind? fuel scope cs x =
    some (n, scope', rest)) : ∃ commented : Bool, (commented → rest = []) ∧
      ∀ {fuel'}, fuel ≤ fuel' → ∀ {t}, Closing t →
        readBehind? fuel' scope (cs ++ t) x =
          some (n, scope', if commented then [] else rest ++ t) := by
  cases x with
  | flags f => exact ih.sequence h
  | node n₁ =>
    obtain ⟨⟨n₂, rest₂⟩, hrepeat, h⟩ := Option.bind_eq_some_iff.mp h
    obtain ⟨⟨m, scope₃, rest₃⟩, hmore, h⟩ := Option.bind_eq_some_iff.mp h
    obtain ⟨commented, hempty, hmore'⟩ := ih.sequence hmore
    cases h
    refine ⟨commented, hempty, fun {fuel'} hle {t} ht => ?_⟩
    have hlength : cs.length + 1 ≤ (cs ++ t).length + 1 := by
      rw [List.length_append]
      omega
    rw [Pattern.readBehind?, readRepetitions?_append ht hlength hrepeat]
    exact congrArg (Option.bind · _) (hmore' hle ht)

theorem ReadOn.sequence_step (ih : ReadOn fuel)
    (h : readSequence? (fuel + 1) scope cs = some (n, scope', rest)) :
    ReadsOn readSequence? (fuel + 1) scope cs n scope' rest := by
  -- with more fuel there is some left for the items
  suffices ∃ commented : Bool, (commented → rest = []) ∧
      ∀ {fuel'}, fuel ≤ fuel' → ∀ {t}, Closing t → readSequence? (fuel' + 1) scope (cs ++ t) =
        some (n, scope', if commented then [] else rest ++ t) by
    obtain ⟨commented, hempty, h⟩ := this
    refine ⟨commented, hempty, fun {fuel'} hle {t} ht => ?_⟩
    obtain ⟨fuel', rfl⟩ := Nat.exists_eq_add_of_le' (Nat.le_trans (Nat.succ_pos fuel) hle)
    exact h (Nat.le_of_succ_le_succ hle) ht
  cases hskip : scope.flags.skip cs with
  | nil =>
    rw [readSequence?, hskip] at h
    cases h
    obtain ⟨commented, hnext⟩ := Flags.skip_closing hskip
    refine ⟨commented, fun _ => rfl, fun {fuel'} hle {t} ht => ?_⟩
    obtain ⟨more, rfl⟩ := ht.head
    rw [readSequence?, hnext ht]
    cases commented <;> rfl
  | cons c ds =>
    by_cases hstop : c = '|' ∨ c = ')'
    · refine ⟨false, nofun, fun {fuel'} hle {t} ht => ?_⟩
      rw [readSequence?, hskip] at h
      rw [readSequence?, Flags.skip_append hskip]
      rcases hstop with rfl | rfl <;> cases h <;> rfl
    · obtain ⟨hbar, hparen⟩ := not_or.mp hstop
      rw [readSequence?_item hskip hbar hparen] at h
      obtain ⟨⟨item, scope₁, rest₁⟩, hitem, h⟩ := Option.bind_eq_some_iff.mp h
      obtain ⟨commented, hempty, hbehind⟩ := ih.readBehind? h
      refine ⟨commented, hempty, fun {fuel'} hle {t} ht => ?_⟩
      rw [readSequence?_item (Flags.skip_append hskip) hbar hparen, ← List.cons_append,
        ih.item ht hle hitem, Option.bind_some]
      exact hbehind hle ht

theorem readGroup?_nil (fuel : Nat) (scope : Scope) : readGroup? fuel scope [] = none := by
  have hskip : scope.flags.skip [] = [] := by
    unfold Flags.skip
    split <;> rfl
  cases fuel with
  | zero => rfl
  | succ fuel =>
    cases fuel with
    | zero => rfl
    | succ fuel =>
      cases fuel with
      | zero => rfl
      | succ fuel =>
        rw [readGroup?]
        · simp [readAlternatives?, readSequence?, hskip]
        all_goals simp

theorem readItem?_escape (ht : Closing t)
    (h : readItem? (fuel + 1) scope ('\\' :: cs) = some (x, scope', rest)) :
    readItem? (fuel' + 1) scope ('\\' :: (cs ++ t)) = some (x, scope', rest ++ t) := by
  simp only [readItem?] at h ⊢
  cases hescape : readEscape? cs with
  | none =>
    rw [hescape] at h
    cases h
  | some p =>
    obtain ⟨e, rest₁⟩ := p
    rw [hescape] at h
    rw [readEscape?_append ht hescape]
    cases e <;> cases h <;> rfl

theorem readItem?_class (ht : Closing t)
    (h : readItem? (fuel + 1) scope ('[' :: cs) = some (x, scope', rest)) :
    readItem? (fuel' + 1) scope ('[' :: (cs ++ t)) = some (x, scope', rest ++ t) := by
  simp only [readItem?] at h ⊢
  cases hclass : bracketed? scope.flags cs with
  | none =>
    simp only [bracketed?, nestedMember?] at hclass
    rw [hclass] at h
    cases h
  | some p =>
    have hclass' := bracketed?_append ht hclass
    simp only [bracketed?, nestedMember?] at hclass hclass'
    rw [hclass] at h
    simp only [hclass']
    cases h
    rfl

theorem ReadOn.readItem?_group (ih : ReadOn fuel) (ht : Closing t) (hle : fuel ≤ fuel')
    (h : readItem? (fuel + 1) scope ('(' :: cs) = some (x, scope', rest)) :
    readItem? (fuel' + 1) scope ('(' :: (cs ++ t)) = some (x, scope', rest ++ t) := by
  change readGroup? fuel scope (scope.flags.skip cs) = _ at h
  change readGroup? fuel' scope (scope.flags.skip (cs ++ t)) = _
  cases hskip : scope.flags.skip cs with
  | nil =>
    rw [hskip, readGroup?_nil] at h
    cases h
  | cons d ds =>
    rw [hskip] at h
    rw [Flags.skip_append hskip]
    exact ih.group ht hle h

theorem ReadOn.item_step (ih : ReadOn fuel) (ht : Closing t) (hle : fuel ≤ fuel')
    (h : readItem? (fuel + 1) scope cs = some (x, scope', rest)) :
    readItem? (fuel' + 1) scope (cs ++ t) = some (x, scope', rest ++ t) := by
  cases cs with
  | nil => cases h
  | cons c cs =>
    rw [List.cons_append]
    by_cases hescape : c = '\\'
    · subst hescape
      exact readItem?_escape ht h
    by_cases hclass : c = '['
    · subst hclass
      exact readItem?_class ht h
    by_cases hgroup : c = '('
    · subst hgroup
      exact ih.readItem?_group ht hle h
    -- any other item is a single character
    unfold readItem? at h ⊢
    dsimp only at h ⊢
    split at h
    all_goals try (cases h; done)
    · rename_i heq
      cases heq
      cases h
      rfl
    · rename_i heq
      cases heq
      cases h
      rfl
    · rename_i heq
      cases heq
      cases h
      rfl
    · rename_i heq
      cases heq
      exact absurd rfl hescape
    · rename_i heq
      cases heq
      exact absurd rfl hclass
    · rename_i heq
      cases heq
      exact absurd rfl hgroup
    · rename_i heq
      cases heq
      cases h
      split <;> first | rfl | simp_all

def groupBody? (fuel : Nat) (scope inner : Scope) (cs : List Char) :
    Option (Item × Scope × List Char) := do
  let (n, after, rest) ← readAlternatives? fuel inner cs
  match rest with
  | ')' :: rest => some (Item.node n, { scope with names := after.names }, rest)
  | _ => none

theorem ReadOn.groupBody? (ih : ReadOn fuel) (ht : Closing t) (hle : fuel ≤ fuel') {inner : Scope}
    (h : groupBody? fuel scope inner cs = some (x, scope', rest)) :
    groupBody? fuel' scope inner (cs ++ t) = some (x, scope', rest ++ t) := by
  obtain ⟨⟨n, after, rest₁⟩, hbody, h⟩ := Option.bind_eq_some_iff.mp h
  obtain ⟨commented, hempty, hbody'⟩ := ih.alternatives hbody
  rw [Pattern.groupBody?, hbody' hle ht]
  dsimp only at h
  split at h
  · cases h
    cases commented with
    | false => rfl
    | true => cases hempty rfl
  · cases h

def namedGroup? (fuel : Nat) (scope : Scope) (cs : List Char) :
    Option (Item × Scope × List Char) := do
  let (name, rest) ← readName? cs
  if scope.names.contains name then none
  else groupBody? fuel scope { scope with names := name :: scope.names } rest

theorem ReadOn.namedGroup? (ih : ReadOn fuel) (ht : Closing t) (hle : fuel ≤ fuel')
    (h : namedGroup? fuel scope cs = some (x, scope', rest)) :
    namedGroup? fuel' scope (cs ++ t) = some (x, scope', rest ++ t) := by
  obtain ⟨⟨name, rest₁⟩, hname, h⟩ := Option.bind_eq_some_iff.mp h
  rw [Pattern.namedGroup?, readName?_append hname]
  dsimp only [Option.bind_eq_bind, Option.bind_some] at h ⊢
  split at h
  · cases h
  · rw [if_neg ‹_›]
    exact ih.groupBody? ht hle h

/-- A group with flags, or a change of flags, behind the question mark. -/
def flagGroup? (fuel : Nat) (scope : Scope) (cs : List Char) :
    Option (Item × Scope × List Char) :=
  match readFlags? scope.flags true [] cs with
  | some (f, true, rest) => groupBody? fuel scope { scope with flags := f } rest
  | some (f, false, rest) => some (.flags f, scope, rest)
  | none => none

theorem ReadOn.flagGroup? (ih : ReadOn fuel) (ht : Closing t) (hle : fuel ≤ fuel')
    (h : flagGroup? fuel scope cs = some (x, scope', rest)) :
    flagGroup? fuel' scope (cs ++ t) = some (x, scope', rest ++ t) := by
  unfold Pattern.flagGroup? at h ⊢
  cases hflags : readFlags? scope.flags true [] cs with
  | none =>
    rw [hflags] at h
    cases h
  | some p =>
    obtain ⟨f, groups, rest₁⟩ := p
    rw [hflags] at h
    rw [readFlags?_append hflags]
    cases groups with
    | true => exact ih.groupBody? ht hle h
    | false =>
      cases h
      rfl

theorem readGroup?_name (hlookbehind : ∀ more, cs ≠ '=' :: more)
    (hnegated : ∀ more, cs ≠ '!' :: more) :
    readGroup? (fuel + 1) scope ('?' :: '<' :: cs) = namedGroup? fuel scope cs := by
  unfold readGroup?
  split
  · rename_i heq
    cases heq
  · rename_i heq
    cases heq
    exact absurd rfl (hlookbehind _)
  · rename_i heq
    cases heq
    exact absurd rfl (hnegated _)
  · rename_i heq
    cases heq
    rfl
  · rename_i hname heq
    cases heq
    exact absurd rfl (hname cs)
  · rename_i hmark
    exact absurd rfl (hmark _)

theorem readGroup?_flags (hnamed : ∀ more, cs ≠ 'P' :: '<' :: more)
    (hname : ∀ more, cs ≠ '<' :: more) :
    readGroup? (fuel + 1) scope ('?' :: cs) = flagGroup? fuel scope cs := by
  unfold readGroup?
  split
  · rename_i heq
    cases heq
    exact absurd rfl (hnamed _)
  · rename_i heq
    cases heq
    exact absurd rfl (hname _)
  · rename_i heq
    cases heq
    exact absurd rfl (hname _)
  · rename_i heq
    cases heq
    exact absurd rfl (hname _)
  · rename_i heq
    cases heq
    rfl
  · rename_i hmark
    exact absurd rfl (hmark _)

theorem readGroup?_plain (hmark : ∀ more, cs ≠ '?' :: more) :
    readGroup? (fuel + 1) scope cs = groupBody? fuel scope scope cs := by
  unfold readGroup?
  split
  all_goals first | exact absurd rfl (hmark _) | rfl

theorem ReadOn.group_step (ih : ReadOn fuel) (ht : Closing t) (hle : fuel ≤ fuel')
    (h : readGroup? (fuel + 1) scope cs = some (x, scope', rest)) :
    readGroup? (fuel' + 1) scope (cs ++ t) = some (x, scope', rest ++ t) := by
  -- the parenthesis makes no other mark of what begins a group
  have opening : ∀ {c : Char} {more cs : List Char}, c ≠ ')' → (∀ more, cs ≠ c :: more) →
      cs ++ t ≠ c :: more := by
    intro c more cs hc hne heq
    obtain ⟨cs', rfl⟩ := ht.cons_of_append hc heq
    exact hne cs' rfl
  by_cases hmark : ∀ more, cs ≠ '?' :: more
  · rw [readGroup?_plain hmark] at h
    rw [readGroup?_plain fun more => opening (by decide) hmark]
    exact ih.groupBody? ht hle h
  · obtain ⟨cs, rfl⟩ := not_forall_not.mp hmark
    by_cases hname : ∀ more, cs ≠ '<' :: more
    · by_cases hnamed : ∀ more, cs ≠ 'P' :: '<' :: more
      · rw [readGroup?_flags hnamed hname] at h
        rw [List.cons_append, readGroup?_flags (fun more heq => ?_) fun more =>
          opening (by decide) hname]
        · exact ih.flagGroup? ht hle h
        · obtain ⟨cs', rfl⟩ := ht.cons_of_append (by decide) heq
          refine opening (by decide) (fun more heq => ?_) (List.cons.inj heq).2
          exact hnamed more (congrArg _ heq)
      · obtain ⟨cs, rfl⟩ := not_forall_not.mp hnamed
        exact ih.namedGroup? ht hle h
    · obtain ⟨cs, rfl⟩ := not_forall_not.mp hname
      by_cases hlookbehind : ∀ more, cs ≠ '=' :: more
      · by_cases hnegated : ∀ more, cs ≠ '!' :: more
        · rw [readGroup?_name hlookbehind hnegated] at h
          rw [List.cons_append, List.cons_append,
            readGroup?_name (fun more => opening (by decide) hlookbehind)
              fun more => opening (by decide) hnegated]
          exact ih.namedGroup? ht hle h
        · obtain ⟨cs, rfl⟩ := not_forall_not.mp hnegated
          cases h
      · obtain ⟨cs, rfl⟩ := not_forall_not.mp hlookbehind
        cases h

end steps

theorem readOn (fuel : Nat) : ReadOn fuel := by
  induction fuel with
  | zero => exact ⟨nofun, nofun, nofun, nofun⟩
  | succ fuel ih =>
    refine ⟨ih.alternatives_step, ih.sequence_step, fun ht hle h => ?_, fun ht hle h => ?_⟩
    all_goals obtain ⟨fuel', rfl⟩ := Nat.exists_eq_add_of_le' (Nat.le_trans (Nat.succ_pos fuel) hle)
    · exact ih.item_step ht (Nat.le_of_succ_le_succ hle) h
    · exact ih.group_step ht (Nat.le_of_succ_le_succ hle) h

theorem readBounds?_ordered {low : Nat} {high : Option Nat}
    (h : readBounds? flags cs = some ((low, high), rest)) : ∀ b ∈ high, low ≤ b := by
  have upper : ∀ {least cs}, readHigh? least cs = some ((low, high), rest) →
      ∀ b ∈ high, low ≤ b := by
    intro least cs h
    unfold readHigh? at h
    obtain ⟨most, -, h⟩ := Option.bind_eq_some_iff.mp h
    split at h
    · split at h
      · rename_i hle
        cases h
        rintro b ⟨⟩
        exact hle
      · cases h
    · cases h
  obtain ⟨least, -, h⟩ := Option.bind_eq_some_iff.mp h
  split at h
  · cases h
    rintro b ⟨⟩
    exact Nat.le_refl _
  · split at h
    · cases h
      rintro b ⟨⟩
    · exact upper h
  · cases h

theorem readRepetitions?_ordered {fuel : Nat} {n m : Node} (ordered : n.Ordered)
    (h : readRepetitions? flags fuel n cs = some (m, rest)) : m.Ordered := by
  induction fuel generalizing n cs with
  | zero => cases h
  | succ fuel ih =>
    rw [readRepetitions?] at h
    split at h
    · exact ih (n := .times n 0 none) ⟨ordered, nofun⟩ h
    · exact ih (n := .times n 1 none) ⟨ordered, nofun⟩ h
    · exact ih (n := .times n 0 (some 1)) ⟨ordered, fun _ _ => Nat.zero_le _⟩ h
    · split at h
      · rename_i hbounds
        exact ih (n := .times n _ _) ⟨ordered, readBounds?_ordered hbounds⟩ h
      · cases h
    · cases h
      exact ordered

/-- An item whose repetitions have their bounds the right way round. -/
def Item.Ordered : Item → Prop
  | .node n => n.Ordered
  | .flags _ => True

/-- What the readers find with some fuel has the bounds of its repetitions the right way round. -/
structure ReadsOrdered (fuel : Nat) : Prop where
  alternatives {scope scope' : Scope} {cs rest : List Char} {n : Node}
    (h : readAlternatives? fuel scope cs = some (n, scope', rest)) : n.Ordered
  sequence {scope scope' : Scope} {cs rest : List Char} {n : Node}
    (h : readSequence? fuel scope cs = some (n, scope', rest)) : n.Ordered
  item {scope scope' : Scope} {cs rest : List Char} {x : Item}
    (h : readItem? fuel scope cs = some (x, scope', rest)) : x.Ordered
  group {scope scope' : Scope} {cs rest : List Char} {x : Item}
    (h : readGroup? fuel scope cs = some (x, scope', rest)) : x.Ordered

section steps

variable {fuel : Nat} {scope scope' : Scope} {n : Node} {x : Item}

theorem ReadsOrdered.alternatives_step (ih : ReadsOrdered fuel)
    (h : readAlternatives? (fuel + 1) scope cs = some (n, scope', rest)) : n.Ordered := by
  obtain ⟨⟨n₁, scope₁, rest₁⟩, hfirst, h⟩ := Option.bind_eq_some_iff.mp h
  dsimp only at h
  split at h
  · obtain ⟨⟨m, scope₂, rest₂⟩, hmore, h⟩ := Option.bind_eq_some_iff.mp h
    cases h
    exact ⟨ih.sequence hfirst, ih.alternatives hmore⟩
  · cases h
    exact ih.sequence hfirst

theorem ReadsOrdered.sequence_step (ih : ReadsOrdered fuel)
    (h : readSequence? (fuel + 1) scope cs = some (n, scope', rest)) : n.Ordered := by
  rw [readSequence?] at h
  split at h
  · cases h
    trivial
  · cases h
    trivial
  · cases h
    trivial
  · obtain ⟨⟨item, scope₁, rest₁⟩, hitem, h⟩ := Option.bind_eq_some_iff.mp h
    cases item with
    | flags f => exact ih.sequence h
    | node n₁ =>
      obtain ⟨⟨n₂, rest₂⟩, hrepeat, h⟩ := Option.bind_eq_some_iff.mp h
      obtain ⟨⟨m, scope₃, rest₃⟩, hmore, h⟩ := Option.bind_eq_some_iff.mp h
      cases h
      exact ⟨readRepetitions?_ordered (ih.item hitem) hrepeat, ih.sequence hmore⟩

theorem ReadsOrdered.item_step (ih : ReadsOrdered fuel)
    (h : readItem? (fuel + 1) scope cs = some (x, scope', rest)) : x.Ordered := by
  unfold readItem? at h
  dsimp only at h
  split at h
  all_goals try (cases h; done)
  all_goals try (cases h; trivial)
  · split at h
    all_goals cases h
    all_goals trivial
  · split at h
    all_goals cases h
    all_goals trivial
  · exact ih.group h

theorem ReadsOrdered.group_step (ih : ReadsOrdered fuel)
    (h : readGroup? (fuel + 1) scope cs = some (x, scope', rest)) : x.Ordered := by
  have body : ∀ {inner cs}, groupBody? fuel scope inner cs = some (x, scope', rest) →
      x.Ordered := by
    intro inner cs h
    obtain ⟨⟨n, after, rest₁⟩, hbody, h⟩ := Option.bind_eq_some_iff.mp h
    dsimp only at h
    split at h
    · cases h
      exact ih.alternatives hbody
    · cases h
  have named : ∀ {cs}, namedGroup? fuel scope cs = some (x, scope', rest) → x.Ordered := by
    intro cs h
    obtain ⟨⟨name, rest₁⟩, -, h⟩ := Option.bind_eq_some_iff.mp h
    dsimp only at h
    split at h
    · cases h
    · exact body h
  unfold readGroup? at h
  dsimp only at h
  split at h
  · exact named h
  · cases h
  · cases h
  · exact named h
  · split at h
    · exact body h
    · cases h
      trivial
    · cases h
  · exact body h

end steps

theorem readsOrdered (fuel : Nat) : ReadsOrdered fuel := by
  induction fuel with
  | zero => exact ⟨nofun, nofun, nofun, nofun⟩
  | succ fuel ih => exact ⟨ih.alternatives_step, ih.sequence_step, ih.item_step, ih.group_step⟩

theorem read?_ordered {n : Node} (h : read? cs = some n) : n.Ordered := by
  unfold read? at h
  split at h
  · rename_i hread
    cases h
    exact (readsOrdered _).alternatives hread
  · cases h

end DocPath.Pattern
