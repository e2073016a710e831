import DocPath.Filter.Term
import DocPath.Proofs.Pattern.Engine

/-!
# Matching a whole string

A pattern is bound to both ends of a string by its text: it is put in a group between `^` and `$`,
unless it begins and ends with them already. The laws of patterns make the test one of the whole.
A pattern that is left as it stands need not be bound to both ends: its `^` and `$` may belong to
different alternatives, be escaped or match at line ends.
-/

namespace DocPath.Term

theorem anchored_of_kept {p : String} (start : p.startsWith "^") (stop : p.endsWith "$") :
    anchored p = p := if_pos ⟨start, stop⟩

theorem anchored_of_not_kept {p : String} (h : ¬(p.startsWith "^" ∧ p.endsWith "$")) :
    anchored p = "^" ++ (Regex.grouped p ++ "$") := by
  rw [anchored, if_neg h, Regex.grouped, ← String.toList_inj]
  simp

section

variable [Libraries] {Spans : (pattern text : String) → Nat → Nat → Prop}

/-- A group between `^` and `$` is found where its pattern matches all of the text. -/
theorem isMatch_between (laws : Libraries.patterns.Laws Spans) {p : String}
    (compiles : Libraries.patterns.compiles p)
    (between : Libraries.patterns.compiles ("^" ++ (Regex.grouped p ++ "$"))) (s : String) :
    Libraries.patterns.isMatch ("^" ++ (Regex.grouped p ++ "$")) s ↔ Spans p s 0 s.length := by
  obtain ⟨hstopped, hstart⟩ := laws.after_start compiles between
  obtain ⟨hgroup, hstop⟩ := laws.before_stop compiles hstopped
  simp only [laws.isMatch_iff between, hstart, hstop, laws.start_iff, laws.stop_iff,
    laws.grouped_iff compiles hgroup]
  constructor
  · rintro ⟨i, j, k, ⟨rfl, rfl⟩, l, hspan, rfl, rfl⟩
    exact hspan
  · intro hspan
    exact ⟨0, s.length, 0, ⟨rfl, rfl⟩, s.length, hspan, rfl, rfl⟩

/-- An anchored pattern, if it compiles, occurs in a string exactly when the given pattern matches
the whole of it, or is taken as it stands and matches some stretch of it. -/
theorem isMatch_anchored (laws : Libraries.patterns.Laws Spans) {p s : String}
    (compiles : Libraries.patterns.compiles p)
    (anchors : Libraries.patterns.compiles (anchored p)) :
    Libraries.patterns.isMatch (anchored p) s ↔
      Spans p s 0 s.length ∨ (p.startsWith "^" ∧ p.endsWith "$") ∧ ∃ i j, Spans p s i j := by
  by_cases kept : p.startsWith "^" ∧ p.endsWith "$"
  · rw [anchored_of_kept kept.1 kept.2, laws.isMatch_iff compiles]
    constructor
    · exact fun hspan => .inr ⟨kept, hspan⟩
    · rintro (hspan | ⟨-, hspan⟩)
      · exact ⟨0, s.length, hspan⟩
      · exact hspan
  · rw [anchored_of_not_kept kept] at anchors ⊢
    rw [isMatch_between laws compiles anchors]
    constructor
    · exact .inl
    · rintro (hspan | ⟨hkept, -⟩)
      · exact hspan
      · exact absurd hkept kept

theorem apply_wholeMatch_str {p s : String} (nonempty : p ≠ "") :
    apply .wholeMatch (.str s) (.str p) =
      (Regex.compile? (anchored p)).elim .nothing fun a => .bool (a.isMatch s) := by
  have hempty : p.isEmpty = false := by simpa using nonempty
  simp only [apply, testPattern, hempty, Bool.false_eq_true, if_false, if_true]
  cases Regex.compile? (anchored p) <;> rfl

/-- The function `match` tests whether a pattern matches the whole of a string, the pattern given
as a string or as a literal, provided that a pattern which begins with `^` and ends with `$` is
bound to both ends of the string. It is taken as it stands, and when it is not bound to them any
stretch will do. Any other pattern is put between the two ends, and gives nothing when that does
not compile, as with a comment that is open at its end. -/
theorem wholeMatch_eq (laws : Libraries.patterns.Laws Spans) {p s : String} {r : Regex}
    (nonempty : p ≠ "") (compiles : Regex.compile? p = some r) :
    ∃ found : Bool,
      ((p.startsWith "^" → p.endsWith "$" → ∀ i j, Spans p s i j → i = 0 ∧ j = s.length) →
        (found ↔ Spans p s 0 s.length)) ∧
      (found ↔
        Spans p s 0 s.length ∨ (p.startsWith "^" ∧ p.endsWith "$") ∧ ∃ i j, Spans p s i j) ∧
      ∀ pattern ∈ [Term.str p, .regex r], apply .wholeMatch (.str s) pattern =
        if (Regex.compile? (anchored p)).isSome then .bool found else .nothing := by
  obtain ⟨compiles, rfl⟩ := Regex.compile?_eq_some_iff.mp compiles
  obtain ⟨found, hfound, happly⟩ : ∃ found : Bool,
      (found ↔ Spans r.source s 0 s.length ∨
        (r.source.startsWith "^" ∧ r.source.endsWith "$") ∧ ∃ i j, Spans r.source s i j) ∧
      apply .wholeMatch (.str s) (.str r.source) =
        if (Regex.compile? (anchored r.source)).isSome then .bool found else .nothing := by
    rw [apply_wholeMatch_str nonempty]
    cases ha : Regex.compile? (anchored r.source) with
    | none =>
      classical
      exact ⟨decide _, decide_eq_true_iff, rfl⟩
    | some a =>
      obtain ⟨anchors, hsource⟩ := Regex.compile?_eq_some_iff.mp ha
      have hmatch := isMatch_anchored laws compiles anchors (s := s)
      rw [← hsource] at hmatch
      exact ⟨a.isMatch s, hmatch, rfl⟩
  refine ⟨found, fun bound => ?_, hfound, ?_⟩
  · rw [hfound]
    constructor
    · rintro (hspan | ⟨⟨start, stop⟩, i, j, hspan⟩)
      · exact hspan
      · obtain ⟨rfl, rfl⟩ := bound start stop i j hspan
        exact hspan
    · exact .inl
  · -- A literal is tested by its text.
    simpa [apply, testPattern] using happly

end

/-- `a|b` does not match the whole of `ab`, and `^A.$`, taken as it stands, matches all of `Ab`. -/
theorem wholeMatch_alternatives_and_anchors :
    (∃ r, Regex.compile? "a|b" = some r ∧ ¬Pattern.Spans "a|b" "ab" 0 2 ∧
      ∀ pattern ∈ [Term.str "a|b", .regex r],
        apply .wholeMatch (.str "ab") pattern = .bool false) ∧
    ∃ r, Regex.compile? "^A.$" = some r ∧ Pattern.Spans "^A.$" "Ab" 0 2 ∧
      ∀ pattern ∈ [Term.str "^A.$", .regex r],
        apply .wholeMatch (.str "Ab") pattern = .bool true := by
  constructor
  · have compiles : Regex.compile? "a|b" = some ⟨"a|b"⟩ := by decide +kernel
    have anchors : (Regex.compile? (anchored "a|b")).isSome := by decide +kernel
    have unkept : ¬"a|b".startsWith "^" := by decide +kernel
    have hread : Pattern.read? "a|b".toList =
        some (.alt (.seq (.char (.single 'a')) .empty) (.seq (.char (.single 'b')) .empty)) := by
      decide +kernel
    have hspan : ¬Pattern.Spans "a|b" "ab" 0 2 := by
      rw [Pattern.spans_iff_mem_ends hread]
      decide +kernel
    obtain ⟨found, hwhole, -, happly⟩ :=
      wholeMatch_eq (s := "ab") Pattern.engine_laws (by decide) compiles
    have hfound : found = false :=
      Bool.eq_false_iff.mpr fun h => hspan ((hwhole fun start => absurd start unkept).mp h)
    rw [if_pos anchors, hfound] at happly
    exact ⟨_, compiles, hspan, happly⟩
  · have compiles : Regex.compile? "^A.$" = some ⟨"^A.$"⟩ := by decide +kernel
    have anchors : (Regex.compile? (anchored "^A.$")).isSome := by decide +kernel
    have hread : Pattern.read? "^A.$".toList =
        some (.seq (.place .textStart) (.seq (.char (.single 'A'))
          (.seq (.char (.compl (.single '\n'))) (.seq (.place .textEnd) .empty)))) := by
      decide +kernel
    have hspan : Pattern.Spans "^A.$" "Ab" 0 2 := by
      rw [Pattern.spans_iff_mem_ends hread]
      decide +kernel
    obtain ⟨found, hwhole, -, happly⟩ :=
      wholeMatch_eq (s := "Ab") Pattern.engine_laws (by decide) compiles
    have hfound : found = true :=
      (hwhole fun _ _ _ _ h => Pattern.spans_whole hread rfl rfl h).mpr hspan
    rw [if_pos anchors, hfound] at happly
    exact ⟨_, compiles, hspan, happly⟩

/-- The first alternative of `^a|b$` is bound to the start only and the second to the end only, so
that it is found in `ax`, the whole of which it does not match. -/
theorem wholeMatch_of_half_bound :
    (Regex.compile? "^a|b$").isSome ∧ (apply .wholeMatch (.str "ax") (.str "^a|b$")).isTrue ∧
      ¬Pattern.Spans "^a|b$" "ax" 0 2 := by
  have hread : Pattern.read? "^a|b$".toList =
      some (.alt (.seq (.place .textStart) (.seq (.char (.single 'a')) .empty))
        (.seq (.char (.single 'b')) (.seq (.place .textEnd) .empty))) := by
    decide +kernel
  refine ⟨by decide +kernel, by decide +kernel, ?_⟩
  rw [Pattern.spans_iff_mem_ends hread]
  decide +kernel

end DocPath.Term
