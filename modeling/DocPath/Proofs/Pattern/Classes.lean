import DocPath.Pattern.Reader
import Mathlib.Data.List.TakeWhile

/-!
# What is read inside of a pattern, with more text behind

Blanks, comments, escapes and classes are read alike whether or not a closing parenthesis follows
the text that they stand in: none of them ends with the text and could go on with a parenthesis.
A comment that is open at the end is the one exception. It swallows what follows.
-/

namespace DocPath.Pattern

/-- What may follow a pattern in a group: a closing parenthesis first, no line end that would end
a comment, and no colon that would end the name of a class. -/
structure Closing (t : List Char) : Prop where
  head : ∃ more, t = ')' :: more
  noBreak : '\n' ∉ t
  noColon : ':' ∉ t

variable {t cs rest : List Char} {c : Char} {flags : Flags}

/-- More text is skipped only when all before it is, and then from the state reached there. -/
theorem skipSpaced_append (comment : Bool) (cs : List Char) :
    ∃ left, ∀ t, skipSpaced comment (cs ++ t) =
      if skipSpaced comment cs = [] then skipSpaced left t else skipSpaced comment cs ++ t := by
  induction cs generalizing comment with
  | nil => exact ⟨comment, fun t => by rw [skipSpaced, if_pos rfl, List.nil_append]⟩
  | cons c cs ih =>
    cases comment with
    | true =>
      simp only [List.cons_append, skipSpaced]
      split
      · exact ih false
      · exact ih true
    | false =>
      simp only [List.cons_append, skipSpaced]
      split
      · exact ih false
      · split
        · exact ih true
        · exact ⟨false, fun _ => rfl⟩

theorem Flags.skip_append (h : flags.skip cs = c :: rest) :
    flags.skip (cs ++ t) = c :: (rest ++ t) := by
  unfold skip at h ⊢
  split at h
  · rw [if_pos ‹_›]
    obtain ⟨left, happend⟩ := skipSpaced_append false cs
    rw [happend, h, if_neg (List.cons_ne_nil _ _), List.cons_append]
  · rw [if_neg ‹_›, h, List.cons_append]

theorem Flags.length_skip_le (flags : Flags) (cs : List Char) :
    (flags.skip cs).length ≤ cs.length := by
  have spaced : ∀ comment, (skipSpaced comment cs).length ≤ cs.length := by
    induction cs with
    | nil => exact fun _ => Nat.le_refl 0
    | cons c cs ih =>
      intro comment
      cases comment with
      | true =>
        rw [skipSpaced]
        split
        · exact Nat.le_succ_of_le (ih false)
        · exact Nat.le_succ_of_le (ih true)
      | false =>
        rw [skipSpaced]
        split
        · exact Nat.le_succ_of_le (ih false)
        · split
          · exact Nat.le_succ_of_le (ih true)
          · exact Nat.le_refl _
  unfold skip
  split
  · exact spaced false
  · exact Nat.le_refl _

theorem skipSpaced_comment (h : '\n' ∉ t) : skipSpaced true t = [] := by
  induction t with
  | nil => rfl
  | cons d t ih =>
    obtain ⟨hd, ht⟩ := not_or.mp (mt List.mem_cons.mpr h)
    rw [skipSpaced, if_neg (Ne.symm hd), ih ht]

/-- Behind what does not count, closing text is found or, in a comment, lost. -/
theorem Flags.skip_closing (h : flags.skip cs = []) :
    ∃ commented : Bool, ∀ {t}, Closing t → flags.skip (cs ++ t) = if commented then [] else t := by
  unfold Flags.skip at h
  split at h
  · rename_i hspaced
    obtain ⟨commented, happend⟩ := skipSpaced_append false cs
    refine ⟨commented, fun {t} ht => ?_⟩
    rw [Flags.skip, if_pos hspaced, happend, if_pos h]
    cases commented with
    | true => exact skipSpaced_comment ht.noBreak
    | false =>
      obtain ⟨more, rfl⟩ := ht.head
      rfl
  · rename_i hspaced
    subst h
    exact ⟨false, fun _ => if_neg hspaced⟩

theorem dropWhile_append_of_cons {p : Char → Bool} (h : cs.dropWhile p = c :: rest) :
    (cs ++ t).dropWhile p = c :: (rest ++ t) ∧ (cs ++ t).takeWhile p = cs.takeWhile p := by
  induction cs with
  | nil => cases h
  | cons d cs ih =>
    rw [List.cons_append, List.dropWhile_cons, List.takeWhile_cons, List.takeWhile_cons]
    rw [List.dropWhile_cons] at h
    split
    · rw [if_pos ‹_›] at h
      obtain ⟨hdrop, htake⟩ := ih h
      exact ⟨hdrop, congrArg _ htake⟩
    · rw [if_neg ‹_›] at h
      cases h
      exact ⟨rfl, rfl⟩

theorem readHex?_append {width : Nat} (h : readHex? width cs = some (c, rest)) :
    readHex? width (cs ++ t) = some (c, rest ++ t) := by
  unfold readHex? at h
  split at h
  · rename_i more
    split at h
    · rename_i hdrop
      obtain ⟨hdrop', htake'⟩ := dropWhile_append_of_cons (t := t) hdrop
      obtain ⟨d, hd, heq⟩ := Option.map_eq_some_iff.mp h
      cases heq
      rw [List.cons_append, readHex?, hdrop', htake', hd]
      rfl
    · cases h
  · rename_i hbrace
    split at h
    · rename_i hwidth
      obtain ⟨d, hd, heq⟩ := Option.map_eq_some_iff.mp h
      cases heq
      cases cs with
      | nil => cases (List.take_nil ▸ hd : hexChar? [] = some c)
      | cons e cs =>
        have htake : (e :: cs ++ t).take width = (e :: cs).take width :=
          List.take_append_of_le_length hwidth
        have hdrop : (e :: cs ++ t).drop width = (e :: cs).drop width ++ t :=
          List.drop_append_of_le_length hwidth
        have hlength : width ≤ (e :: cs ++ t).length := by
          rw [List.length_append]
          omega
        unfold readHex?
        split
        · rename_i more hmore
          injection hmore with he
          exact absurd (congrArg (· :: cs) he) (hbrace cs)
        · rw [if_pos hlength, htake, hdrop, hd]
          rfl
    · cases h

theorem readWordEdge?_append {p : Place} (ht : Closing t) (h : readWordEdge? cs = some (p, rest)) :
    readWordEdge? (cs ++ t) = some (p, rest ++ t) := by
  unfold readWordEdge? at h
  split at h
  · rename_i d more
    split at h
    · rename_i hd
      split at h
      · rename_i hdrop
        obtain ⟨hdrop', htake'⟩ := dropWhile_append_of_cons (t := t) hdrop
        obtain ⟨q, hq, heq⟩ := Option.map_eq_some_iff.mp h
        cases heq
        rw [List.cons_append] at hdrop' htake'
        rw [List.cons_append, List.cons_append, readWordEdge?, if_pos hd, hdrop', htake', hq]
        rfl
      · cases h
    · rename_i hd
      cases h
      rw [List.cons_append, List.cons_append, readWordEdge?, if_neg hd]
  · rename_i hbrace
    cases h
    obtain ⟨more, rfl⟩ := ht.head
    unfold readWordEdge?
    split
    · -- a brace at the very end is followed by the parenthesis, which begins no name
      rename_i d rest heq
      cases cs with
      | nil => cases heq
      | cons e cs =>
        obtain ⟨rfl, htail⟩ := List.cons.inj heq
        cases cs with
        | cons f cs => exact absurd rfl (hbrace f cs)
        | nil =>
          obtain ⟨rfl, -⟩ := List.cons.inj htail
          rfl
    · rfl

theorem readEscape?_append {e : Escape} (ht : Closing t) (h : readEscape? cs = some (e, rest)) :
    readEscape? (cs ++ t) = some (e, rest ++ t) := by
  cases cs with
  | nil => cases h
  | cons c cs =>
    have edge : (readWordEdge? cs).map (fun p => (Escape.place p.1, p.2)) = some (e, rest) →
        (readWordEdge? (cs ++ t)).map (fun p => (Escape.place p.1, p.2)) =
          some (e, rest ++ t) := by
      intro h
      obtain ⟨q, hq, heq⟩ := Option.map_eq_some_iff.mp h
      cases heq
      rw [readWordEdge?_append ht hq]
      rfl
    have code : ∀ width, (readHex? width cs).map (fun p => (Escape.char p.1, p.2)) =
          some (e, rest) →
        (readHex? width (cs ++ t)).map (fun p => (Escape.char p.1, p.2)) =
          some (e, rest ++ t) := by
      intro width h
      obtain ⟨q, hq, heq⟩ := Option.map_eq_some_iff.mp h
      cases heq
      rw [readHex?_append hq]
      rfl
    rw [List.cons_append]
    unfold readEscape? at h ⊢
    dsimp only at h ⊢
    split at h
    all_goals try (cases h; rfl)
    · exact edge h
    · exact code 2 h
    · exact code 4 h
    · exact code 8 h
    · split at h
      · cases h
        simp [*]
      · cases h

theorem readClassItem?_append {x : Char ⊕ CharSet} (ht : Closing t)
    (h : readClassItem? cs = some (x, rest)) : readClassItem? (cs ++ t) = some (x, rest ++ t) := by
  unfold readClassItem? at h
  split at h
  · cases h
  · split at h
    · rename_i hescape
      cases h
      rw [List.cons_append, readClassItem?, readEscape?_append ht hescape]
    · rename_i hescape
      cases h
      rw [List.cons_append, readClassItem?, readEscape?_append ht hescape]
    · cases h
  · rename_i hbackslash
    cases h
    rw [List.cons_append, readClassItem?]
    exact hbackslash

def readRangeEnd? (first : Char ⊕ CharSet) (cs : List Char) : Option (CharSet × List Char) := do
  let (last, rest) ← readClassItem? cs
  match first, last with
  | .inl a, .inl b => if a ≤ b then some (.range a b, rest) else none
  | _, _ => none

theorem readRangeEnd?_append {first : Char ⊕ CharSet} {s : CharSet} (ht : Closing t)
    (h : readRangeEnd? first cs = some (s, rest)) :
    readRangeEnd? first (cs ++ t) = some (s, rest ++ t) := by
  obtain ⟨⟨last, afterLast⟩, hlast, h⟩ := Option.bind_eq_some_iff.mp h
  unfold readRangeEnd?
  rw [readClassItem?_append ht hlast, Option.bind_eq_bind, Option.bind_some]
  dsimp only at h ⊢
  split at h
  · split at h
    · cases h
      rw [if_pos ‹_›]
    · cases h
  · cases h

def aloneSet : Char ⊕ CharSet → CharSet
  | .inl c => .single c
  | .inr s => s

/-- What a hyphen behind the first member of a class leads to. Before the closing bracket or
another hyphen it is left to be read again. -/
def readHyphen? (flags : Flags) (first : Char ⊕ CharSet) (more : List Char) :
    Option (CharSet × List Char) :=
  match flags.skip more with
  | ']' :: _ | '-' :: _ => some (aloneSet first, '-' :: more)
  | more => readRangeEnd? first more

/-- In a class there is always more to come: its bracket still has to be closed. -/
theorem readHyphen?_append {first : Char ⊕ CharSet} {s : CharSet} (ht : Closing t)
    (h : readHyphen? flags first cs = some (s, c :: rest)) :
    readHyphen? flags first (cs ++ t) = some (s, c :: (rest ++ t)) := by
  unfold readHyphen? at h ⊢
  cases hskip : flags.skip cs with
  | nil =>
    rw [hskip] at h
    cases h
  | cons d more =>
    rw [hskip] at h
    rw [Flags.skip_append hskip]
    split at h
    · rename_i heq
      cases heq
      cases h
      rfl
    · rename_i heq
      cases heq
      cases h
      rfl
    · rename_i hbracket hhyphen
      split
      · rename_i heq
        cases heq
        exact absurd rfl (hbracket _)
      · rename_i heq
        cases heq
        exact absurd rfl (hhyphen _)
      · exact readRangeEnd?_append ht h

theorem readClassRange?_eq {first : Char ⊕ CharSet} {afterFirst more : List Char} {d : Char}
    (hfirst : readClassItem? cs = some (first, afterFirst))
    (hskip : flags.skip afterFirst = d :: more) :
    readClassRange? flags cs =
      if d = '-' then readHyphen? flags first more else some (aloneSet first, d :: more) := by
  unfold readClassRange?
  rw [hfirst]
  dsimp only [Option.bind_eq_bind, Option.bind_some]
  rw [hskip]
  split
  · rename_i heq
    cases heq
    rfl
  · rename_i hne
    rw [if_neg fun hd : d = '-' => hne more (hd ▸ rfl)]
    rfl

theorem readClassRange?_append {s : CharSet} (ht : Closing t)
    (h : readClassRange? flags cs = some (s, c :: rest)) :
    readClassRange? flags (cs ++ t) = some (s, c :: (rest ++ t)) := by
  obtain ⟨⟨first, afterFirst⟩, hfirst, htail⟩ := Option.bind_eq_some_iff.mp h
  cases hskip : flags.skip afterFirst with
  | nil =>
    dsimp only at htail
    rw [hskip] at htail
    cases htail
  | cons d more =>
    rw [readClassRange?_eq hfirst hskip] at h
    rw [readClassRange?_eq (readClassItem?_append ht hfirst) (Flags.skip_append hskip)]
    split at h
    · rw [if_pos ‹_›]
      exact readHyphen?_append ht h
    · rw [if_neg ‹_›]
      cases h
      rfl

/-- The sign of a negated class, if it stands first, and what comes after it. -/
def takeCaret : List Char → Bool × List Char
  | '^' :: more => (true, more)
  | more => (false, more)

theorem takeCaret_append (c : Char) (cs t : List Char) :
    takeCaret (c :: (cs ++ t)) = ((takeCaret (c :: cs)).1, (takeCaret (c :: cs)).2 ++ t) := by
  by_cases hc : c = '^'
  · subst hc
    rfl
  · have plain : ∀ cs, takeCaret (c :: cs) = (false, c :: cs) := by
      intro cs
      unfold takeCaret
      split
      · rename_i heq
        exact absurd (List.cons.inj heq).1 hc
      · rfl
    rw [plain, plain, List.cons_append]

def readClassName? (negated : Bool) (cs : List Char) : Option (CharSet × List Char) :=
  match cs.dropWhile (· ≠ ':') with
  | ':' :: ']' :: rest =>
    (CharSet.named? (String.ofList (cs.takeWhile (· ≠ ':')))).map fun s =>
      (.complIf negated s, rest)
  | _ => none

theorem readNamedClass?_eq (cs : List Char) :
    readNamedClass? cs = readClassName? (takeCaret cs).1 (takeCaret cs).2 := rfl

theorem readNamedClass?_append {s : CharSet} (h : readNamedClass? cs = some (s, rest)) :
    readNamedClass? (cs ++ t) = some (s, rest ++ t) := by
  cases cs with
  | nil => cases h
  | cons c cs =>
    rw [readNamedClass?_eq] at h
    rw [List.cons_append, readNamedClass?_eq, takeCaret_append]
    unfold readClassName? at h
    split at h
    · rename_i hdrop
      obtain ⟨hdrop', htake'⟩ := dropWhile_append_of_cons (t := t) hdrop
      obtain ⟨q, hq, heq⟩ := Option.map_eq_some_iff.mp h
      cases heq
      simp only [readClassName?, hdrop', htake', hq, List.cons_append, Option.map_some]
    · cases h

theorem takeHyphens_of_ne {fuel : Nat} (h : c ≠ '-') :
    takeHyphens flags fuel (c :: cs) = ([], c :: cs) := by
  unfold takeHyphens
  split
  · rfl
  · rename_i heq
    exact absurd (List.cons.inj heq).1 h
  · rfl

theorem takeHyphens_append {fuel fuel' : Nat} {sets : List CharSet} (hfuel : cs.length ≤ fuel)
    (hle : fuel ≤ fuel') (h : takeHyphens flags fuel cs = (sets, c :: rest)) :
    takeHyphens flags fuel' (cs ++ t) = (sets, c :: (rest ++ t)) := by
  induction fuel generalizing fuel' cs sets with
  | zero =>
    obtain rfl := List.length_eq_zero_iff.mp (Nat.le_zero.mp hfuel)
    cases h
  | succ fuel ih =>
    obtain ⟨fuel', rfl⟩ := Nat.exists_eq_add_of_le' (Nat.le_trans (Nat.succ_pos fuel) hle)
    cases cs with
    | nil => cases h
    | cons d cs =>
      by_cases hd : d = '-'
      · subst hd
        have hlength := Nat.le_trans (flags.length_skip_le cs) (Nat.le_of_succ_le_succ hfuel)
        rw [takeHyphens] at h
        rw [List.cons_append, takeHyphens]
        cases hskip : flags.skip cs with
        | nil =>
          rw [hskip] at h
          cases fuel <;> cases h
        | cons e more =>
          rw [hskip] at h hlength
          rw [Flags.skip_append hskip]
          cases htake : takeHyphens flags fuel (e :: more) with
          | mk sets' rest' =>
            rw [htake] at h
            cases h
            rw [← List.cons_append, ih hlength (Nat.le_of_succ_le_succ hle) htake]
      · rw [takeHyphens_of_ne hd] at h
        rw [List.cons_append, takeHyphens_of_ne hd]
        cases h
        rfl

theorem readClassName?_append_none {negated : Bool} (ht : Closing t)
    (h : readClassName? negated cs = none) : readClassName? negated (cs ++ t) = none := by
  unfold readClassName? at h
  cases hdrop : cs.dropWhile (· ≠ ':') with
  | nil =>
    have short : (cs ++ t).dropWhile (· ≠ ':') = [] := by
      refine List.dropWhile_eq_nil_iff.mpr fun c hc => ?_
      rcases List.mem_append.mp hc with hc | hc
      · exact List.dropWhile_eq_nil_iff.mp hdrop c hc
      · exact decide_eq_true fun he : c = ':' => ht.noColon (he ▸ hc)
    rw [readClassName?, short]
  | cons c rest =>
    obtain ⟨hdrop', htake'⟩ := dropWhile_append_of_cons (t := t) hdrop
    rw [hdrop] at h
    unfold readClassName?
    rw [hdrop', htake']
    split at h
    · rename_i heq
      cases heq
      exact Option.map_eq_none_iff.mpr (Option.map_eq_none_iff.mp h)
    · rename_i hne
      split
      · rename_i heq
        cases rest with
        | nil =>
          obtain ⟨more, rfl⟩ := ht.head
          cases heq
        | cons d rest =>
          cases heq
          exact absurd rfl (hne rest)
      · rfl

theorem readNamedClass?_append_none (ht : Closing t) (h : readNamedClass? cs = none) :
    readNamedClass? (cs ++ t) = none := by
  cases cs with
  | nil =>
    obtain ⟨more, rfl⟩ := ht.head
    have hname : readClassName? false [] = none := rfl
    exact readClassName?_append_none ht hname
  | cons c cs =>
    rw [readNamedClass?_eq] at h
    rw [List.cons_append, readNamedClass?_eq, takeCaret_append]
    exact readClassName?_append_none ht h

def openMembers (flags : Flags) (negated : Bool) (cs : List Char) : Bool × CharSet × List Char :=
  let (hyphens, cs) := takeHyphens flags cs.length cs
  match hyphens, cs with
  | [], ']' :: more => (negated, .single ']', more)
  | _, _ => (negated, .unionAll hyphens, cs)

theorem openMembers_append {sign negated : Bool} {s : CharSet}
    (h : openMembers flags sign cs = (negated, s, c :: rest)) :
    openMembers flags sign (cs ++ t) = (negated, s, c :: (rest ++ t)) := by
  have hlength : cs.length ≤ (cs ++ t).length := by
    rw [List.length_append]
    exact Nat.le_add_right _ _
  unfold openMembers at h ⊢
  cases htake : takeHyphens flags cs.length cs with
  | mk hyphens more =>
    rw [htake] at h
    dsimp only at h
    split at h
    · cases h
      rw [takeHyphens_append (Nat.le_refl _) hlength htake]
      rfl
    · rename_i hbracket
      cases h
      rw [takeHyphens_append (Nat.le_refl _) hlength htake]
      dsimp only
      split
      · rename_i heq
        cases heq
        exact absurd rfl (hbracket _ rfl)
      · rfl

theorem openClass_eq (flags : Flags) (cs : List Char) :
    openClass flags cs =
      let (negated, more) := takeCaret (flags.skip cs)
      openMembers flags negated (if negated then flags.skip more else more) := by
  have caret : ∀ l : List Char, (match l with
      | '^' :: more => (true, flags.skip more)
      | more => (false, more)) =
      ((takeCaret l).1,
        if (takeCaret l).1 then flags.skip (takeCaret l).2 else (takeCaret l).2) := by
    intro l
    unfold takeCaret
    split <;> rfl
  exact congrArg (fun p => openMembers flags p.1 p.2) (caret (flags.skip cs))

theorem openClass_append {negated : Bool} {s : CharSet}
    (h : openClass flags cs = (negated, s, c :: rest)) :
    openClass flags (cs ++ t) = (negated, s, c :: (rest ++ t)) := by
  rw [openClass_eq] at h ⊢
  cases hskip : flags.skip cs with
  | nil =>
    rw [hskip] at h
    cases h
  | cons d more =>
    rw [hskip] at h
    rw [Flags.skip_append hskip, takeCaret_append]
    cases hcaret : takeCaret (d :: more) with
    | mk sign more' =>
      rw [hcaret] at h
      cases sign with
      | false => exact openMembers_append h
      | true =>
        dsimp only [if_true] at h ⊢
        cases hmore : flags.skip more' with
        | nil =>
          rw [hmore] at h
          cases h
        | cons e members =>
          rw [hmore] at h
          rw [Flags.skip_append hmore]
          exact openMembers_append h

section members

variable {fuel fuel' : Nat} {negated : Bool} {left : Option (CharSet × SetOp)} {here s : CharSet}

/-- A class with a name inside of a class, behind its opening bracket. -/
def namedMember? : List Char → Option (CharSet × List Char)
  | ':' :: more => readNamedClass? more
  | _ => none

theorem namedMember?_of_ne (h : c ≠ ':') : namedMember? (c :: cs) = none := by
  unfold namedMember?
  split
  · rename_i heq
    exact absurd (List.cons.inj heq).1 h
  · rfl

theorem namedMember?_append (ht : Closing t) :
    namedMember? (cs ++ t) = (namedMember? cs).map fun p => (p.1, p.2 ++ t) := by
  cases cs with
  | nil =>
    obtain ⟨more, rfl⟩ := ht.head
    rfl
  | cons c cs =>
    by_cases hc : c = ':'
    · subst hc
      rw [List.cons_append, namedMember?, namedMember?]
      cases hnamed : readNamedClass? cs with
      | none => exact readNamedClass?_append_none ht hnamed
      | some p => exact readNamedClass?_append hnamed
    · rw [List.cons_append, namedMember?_of_ne hc, namedMember?_of_ne hc]
      rfl

def nestedMember? (flags : Flags) (fuel : Nat) (cs : List Char) : Option (CharSet × List Char) :=
  let (inner, first, rest) := openClass flags cs
  readClass? flags fuel inner none first rest

theorem readClass?_nil : readClass? flags fuel negated left here [] = none := by
  have hskip : flags.skip [] = [] := by
    unfold Flags.skip
    split <;> rfl
  cases fuel with
  | zero => rfl
  | succ fuel => rw [readClass?, hskip]

theorem nestedMember?_append
    (again : ∀ {negated first cs s rest},
      readClass? flags fuel negated none first cs = some (s, rest) →
        readClass? flags fuel' negated none first (cs ++ t) = some (s, rest ++ t))
    (h : nestedMember? flags fuel cs = some (s, rest)) :
    nestedMember? flags fuel' (cs ++ t) = some (s, rest ++ t) := by
  unfold nestedMember? at h ⊢
  cases hopen : openClass flags cs with
  | mk negated p =>
    obtain ⟨first, members⟩ := p
    rw [hopen] at h
    cases members with
    | nil =>
      dsimp only at h
      rw [readClass?_nil] at h
      cases h
    | cons c members =>
      rw [openClass_append hopen]
      exact again h

/-- One class in another, with a name or without. -/
theorem readClass?_bracket {more : List Char} (h : flags.skip cs = '[' :: more) :
    readClass? flags (fuel + 1) negated left here cs =
      ((namedMember? more).or (nestedMember? flags fuel more)).bind fun p =>
        readClass? flags fuel negated left (.union here p.1) p.2 := by
  rw [readClass?]
  simp only [h]
  cases more with
  | nil =>
    simp only [namedMember?, nestedMember?, Option.none_or]
    split <;> simp_all
  | cons c more =>
    by_cases hc : c = ':'
    · subst hc
      simp only [namedMember?, nestedMember?]
      cases readNamedClass? more with
      | none =>
        simp only [Option.none_or]
        split <;> simp_all
      | some p => rfl
    · rw [namedMember?_of_ne hc, nestedMember?, Option.none_or]
      split
      · rename_i heq
        exact absurd (List.cons.inj heq).1 hc
      · simp only
        split <;> simp_all

/-- A character that does not close a group is not found beyond the end of the text. -/
theorem Closing.cons_of_append {more : List Char} (ht : Closing t) (hc : c ≠ ')')
    (h : cs ++ t = c :: more) : ∃ cs', cs = c :: cs' := by
  cases cs with
  | nil =>
    obtain ⟨more, rfl⟩ := ht.head
    exact absurd (List.cons.inj h).1.symm hc
  | cons d cs => exact ⟨cs, by rw [(List.cons.inj h).1]⟩

/-- Members that go on with a character or a range of them: no bracket, no operator. -/
structure OpensRange (cs : List Char) : Prop where
  end_ne : ∀ more, cs ≠ ']' :: more
  class_ne : ∀ more, cs ≠ '[' :: more
  inter_ne : ∀ more, cs ≠ '&' :: '&' :: more
  diff_ne : ∀ more, cs ≠ '-' :: '-' :: more
  symmDiff_ne : ∀ more, cs ≠ '~' :: '~' :: more

/-- What follows the pattern does not complete an operator that the pattern leaves at one sign. -/
theorem OpensRange.append (ht : Closing t) (h : OpensRange (c :: cs)) :
    OpensRange (c :: (cs ++ t)) := by
  have operator : ∀ {o : Char}, o ≠ ')' → (∀ more, c :: cs ≠ o :: o :: more) →
      ∀ more, c :: (cs ++ t) ≠ o :: o :: more := by
    intro o ho hne more heq
    obtain ⟨rfl, htail⟩ := List.cons.inj heq
    obtain ⟨more', rfl⟩ := ht.cons_of_append ho htail
    exact hne more' rfl
  exact
    { end_ne := fun more heq => h.end_ne cs (by rw [(List.cons.inj heq).1])
      class_ne := fun more heq => h.class_ne cs (by rw [(List.cons.inj heq).1])
      inter_ne := operator (by decide) h.inter_ne
      diff_ne := operator (by decide) h.diff_ne
      symmDiff_ne := operator (by decide) h.symmDiff_ne }

/-- A character or a range of them is one member, and the class goes on behind it. -/
theorem readClass?_range (hskip : flags.skip cs = c :: more) (h : OpensRange (c :: more)) :
    readClass? flags (fuel + 1) negated left here cs =
      (readClassRange? flags (c :: more)).bind fun p =>
        readClass? flags fuel negated left (.union here p.1) p.2 := by
  rw [readClass?]
  simp only [hskip]
  split
  · rename_i heq
    cases heq
  · rename_i heq
    exact absurd heq (h.end_ne _)
  · rename_i heq
    exact absurd heq (h.class_ne _)
  · rename_i heq
    exact absurd heq (h.inter_ne _)
  · rename_i heq
    exact absurd heq (h.diff_ne _)
  · rename_i heq
    exact absurd heq (h.symmDiff_ne _)
  · cases readClassRange? flags (c :: more) <;> rfl

section again

-- what is read of a class with some fuel is read as well, with other fuel, when text follows
variable (again : ∀ {negated left here cs s rest},
  readClass? flags fuel negated left here cs = some (s, rest) →
    readClass? flags fuel' negated left here (cs ++ t) = some (s, rest ++ t))
include again

theorem readClass?_bracket_append (ht : Closing t) (hskip : flags.skip cs = '[' :: more)
    (h : readClass? flags (fuel + 1) negated left here cs = some (s, rest)) :
    readClass? flags (fuel' + 1) negated left here (cs ++ t) = some (s, rest ++ t) := by
  rw [readClass?_bracket hskip] at h
  obtain ⟨⟨s₁, rest₁⟩, hmember, h⟩ := Option.bind_eq_some_iff.mp h
  rw [readClass?_bracket (Flags.skip_append hskip), namedMember?_append ht]
  cases hnamed : namedMember? more with
  | some p =>
    rw [hnamed] at hmember
    cases hmember
    exact again h
  | none =>
    rw [hnamed, Option.none_or] at hmember
    rw [Option.map_none, Option.none_or, nestedMember?_append again hmember]
    exact again h

theorem readClass?_range_append (ht : Closing t) (hskip : flags.skip cs = c :: more)
    (hrange : OpensRange (c :: more))
    (h : readClass? flags (fuel + 1) negated left here cs = some (s, rest)) :
    readClass? flags (fuel' + 1) negated left here (cs ++ t) = some (s, rest ++ t) := by
  rw [readClass?_range hskip hrange] at h
  obtain ⟨⟨s₁, rest₁⟩, hmember, h⟩ := Option.bind_eq_some_iff.mp h
  cases rest₁ with
  | nil =>
    rw [readClass?_nil] at h
    cases h
  | cons e rest₁ =>
    rw [readClass?_range (Flags.skip_append hskip) (hrange.append ht), ← List.cons_append,
      readClassRange?_append ht hmember]
    exact again h

/-- The end of a class and its operators are read whole. -/
theorem readClass?_operator_append (hskip : flags.skip cs = c :: more) (hc : c ≠ '[')
    (hrange : ¬OpensRange (c :: more))
    (h : readClass? flags (fuel + 1) negated left here cs = some (s, rest)) :
    readClass? flags (fuel' + 1) negated left here (cs ++ t) = some (s, rest ++ t) := by
  unfold readClass? at h ⊢
  dsimp only at h ⊢
  rw [hskip] at h
  rw [Flags.skip_append hskip]
  split at h
  · rename_i heq
    cases heq
  · rename_i heq
    cases heq
    cases h
    rfl
  · rename_i heq
    exact absurd (List.cons.inj heq).1 hc
  · rename_i heq
    cases heq
    exact again h
  · rename_i heq
    cases heq
    exact again h
  · rename_i heq
    cases heq
    exact again h
  · rename_i hend hclass hinter hdiff hsymm
    exact absurd ⟨hend, hclass, hinter, hdiff, hsymm⟩ hrange

end again

theorem readClass?_append (ht : Closing t) (hle : fuel ≤ fuel')
    (h : readClass? flags fuel negated left here cs = some (s, rest)) :
    readClass? flags fuel' negated left here (cs ++ t) = some (s, rest ++ t) := by
  induction fuel generalizing fuel' negated left here cs s rest with
  | zero => cases h
  | succ fuel ih =>
    obtain ⟨fuel', rfl⟩ := Nat.exists_eq_add_of_le' (Nat.le_trans (Nat.succ_pos fuel) hle)
    have again : ∀ {negated left here cs s rest},
        readClass? flags fuel negated left here cs = some (s, rest) →
          readClass? flags fuel' negated left here (cs ++ t) = some (s, rest ++ t) :=
      fun h => ih (Nat.le_of_succ_le_succ hle) h
    cases hskip : flags.skip cs with
    | nil =>
      rw [readClass?, hskip] at h
      cases h
    | cons c more =>
      by_cases hc : c = '['
      · subst hc
        exact readClass?_bracket_append again ht hskip h
      · by_cases hrange : OpensRange (c :: more)
        · exact readClass?_range_append again ht hskip hrange h
        · exact readClass?_operator_append again hskip hc hrange h

def bracketed? (flags : Flags) (cs : List Char) : Option (CharSet × List Char) :=
  nestedMember? flags ((openClass flags cs).2.2.length + 1) cs

theorem bracketed?_append (ht : Closing t) (h : bracketed? flags cs = some (s, rest)) :
    bracketed? flags (cs ++ t) = some (s, rest ++ t) := by
  refine nestedMember?_append (fun hclass => readClass?_append ht ?_ hclass) h
  refine Nat.succ_le_succ ?_
  cases hopen : openClass flags cs with
  | mk negated p =>
    obtain ⟨first, members⟩ := p
    cases members with
    | nil => exact Nat.zero_le _
    | cons c members =>
      rw [openClass_append hopen]
      simp only [List.length_cons, List.length_append]
      omega

end members

end DocPath.Pattern
