import AllocGuard.Proofs.EditRanges

/-! A check that stands right behind an allocation is known for one. The result of the
allocation is followed to the first later place that names its lvalue. When the next
tokens are an `if`, a parenthesis and the words of the lvalue, that place is in the
condition: neither the `if` nor the parenthesis names the lvalue, unless the lvalue starts
with `if` or is made of nothing but opening parentheses. -/
namespace AllocGuard.TokenSeq

variable {ts : TokenSeq} {limit i : Nat} {word : String} {site : Site} {rest : List String}

/-! ## Words -/

theorem match_words_cons :
    (ts.matchWords limit (word :: rest) i).isSome = true ↔
      ∃ next, ts.nextSignificant i limit = some next ∧ ts.spelling next = word ∧
        (ts.matchWords limit rest (next + 1)).isSome = true := by
  rw [matchWords]
  cases ts.nextSignificant i limit with
  | none => simp
  | some next =>
    by_cases same : ts.spelling next = word
    · simp [same]
    · simp [same]

/-- Words that match at a place, with and without one more word in front of them, are all
the same as that word. -/
theorem match_words_shift (longer : (ts.matchWords limit (word :: rest) i).isSome = true)
    (shorter : (ts.matchWords limit rest i).isSome = true) : ∀ other ∈ rest, other = word := by
  induction rest generalizing i word with
  | nil => simp
  | cons second rest ih =>
    obtain ⟨next, follows, isWord, behind⟩ := match_words_cons.1 longer
    obtain ⟨next', follows', isSecond, behind'⟩ := match_words_cons.1 shorter
    cases Option.some.inj (follows.symm.trans follows')
    have same : second = word := isSecond.symm.trans isWord
    subst same
    intro other member
    rcases List.mem_cons.1 member with rfl | member
    · rfl
    · exact ih behind behind' other member

theorem match_subject_blank (words : List String) (blank : ts.isSignificant i = false) :
    ts.matchSubject limit words i = none := by
  rw [matchSubject, blank, if_neg Bool.false_ne_true]

theorem match_subject_cons (inside : i < limit) (names : (ts.matchSubject limit (word :: rest) i).isSome = true) :
    ts.spelling i = word ∧ (ts.matchWords limit rest (i + 1)).isSome = true := by
  rw [matchSubject] at names
  split at names
  · rename_i carries
    obtain ⟨next, follows, same, matched⟩ := match_words_cons.1 names
    rw [next_significant_here carries inside] at follows
    cases follows
    exact ⟨same, matched⟩
  · cases names

/-! ## Checks -/

/-- From `start` on the tokens are an `if`, a parenthesis and these words. -/
structure ChecksNext (ts : TokenSeq) (words : List String) (start limit keyword opening first : Nat) :
    Prop where
  checks : ts.nextSignificant start limit = some keyword
  isIf : ts.isIdent keyword "if" = true
  opens : ts.nextSignificant (keyword + 1) limit = some opening
  isParen : ts.kind? opening = some .openParen
  spelled : ts.spelling opening = "("
  condition : ts.nextSignificant (opening + 1) limit = some first
  names : (ts.matchSubject limit words first).isSome = true

section Check

variable {ts : TokenSeq} {words : List String} {start floor limit keyword opening first : Nat}

/-- No place from `start` up to the condition names the lvalue. -/
theorem checks_next_unnamed (next : ts.ChecksNext words start limit keyword opening first)
    (notIf : words.head? ≠ some "if") (notParens : ∃ word ∈ words, word ≠ "(") {q : Nat}
    (lower : start ≤ q) (upper : q < first) : (ts.matchSubject limit words q).isSome = false := by
  obtain ⟨_, keywordInside, _, blankBefore⟩ := next_significant_iff.1 next.checks
  obtain ⟨_, openingInside, _, blankBetween⟩ := next_significant_iff.1 next.opens
  obtain ⟨_, firstInside, _, blankBehind⟩ := next_significant_iff.1 next.condition
  obtain ⟨word, rest, rfl⟩ : ∃ word rest, words = word :: rest := by
    obtain ⟨word, member, _⟩ := notParens
    exact List.exists_cons_of_ne_nil (List.ne_nil_of_mem member)
  have absent (blank : ts.isSignificant q = false) :
      (ts.matchSubject limit (word :: rest) q).isSome = false := by
    rw [match_subject_blank _ blank, Option.isSome_none]
  by_cases before : q < keyword
  · exact absent (blankBefore q lower before)
  · by_cases here : q = keyword
    · subst here
      rw [Bool.eq_false_iff]
      intro names
      have same := (match_subject_cons keywordInside names).1
      have isIf := next.isIf
      rw [isIdent, Bool.and_eq_true, beq_iff_eq, same] at isIf
      exact notIf (by rw [List.head?_cons, isIf.2])
    · by_cases between : q < opening
      · exact absent (blankBetween q (by omega) between)
      · by_cases paren : q = opening
        · subst paren
          rw [Bool.eq_false_iff]
          intro names
          -- the words would match one token apart, and so be parentheses throughout
          obtain ⟨same, shorter⟩ := match_subject_cons openingInside names
          obtain ⟨again, matched⟩ := match_subject_cons firstInside next.names
          have longer := match_words_cons.2 ⟨first, next.condition, again, matched⟩
          have parens := match_words_shift longer shorter
          obtain ⟨other, member, notParen⟩ := notParens
          rw [next.spelled] at same
          rcases List.mem_cons.1 member with rfl | member
          · exact notParen same.symm
          · exact notParen ((parens other member).trans same.symm)
        · exact absent (blankBehind q (by omega) upper)

/-- A search backwards for the condition passes over white space and comments. -/
theorem inside_condition_blank {depth count : Nat} (blank : ts.isSignificant (floor + count) = false) :
    ts.insideConditionFrom depth floor (count + 1) = ts.insideConditionFrom depth floor count := by
  have meaning (kind : TokenKind) (edge : kind.isStatementEdge = true) : kind.isTrivia = false := by
    simp only [TokenKind.isStatementEdge, Bool.or_eq_true, beq_iff_eq] at edge
    rcases edge with (rfl | rfl) | rfl <;> rfl
  have edge : ts.kindIs (floor + count) TokenKind.isStatementEdge = false := kind_is_blank blank meaning
  rw [insideConditionFrom, has_kind_blank blank rfl, has_kind_blank blank rfl, edge]
  simp

/-- The first token behind the parenthesis of an `if` is in the condition. -/
theorem inside_condition_first (above : floor ≤ opening)
    (condition : ts.nextSignificant (opening + 1) limit = some first) (isParen : ts.kind? opening = some .openParen)
    (opens : ts.opensCondition opening floor = true) : ts.insideCondition first floor = true := by
  obtain ⟨behind, _, _, blank⟩ := next_significant_iff.1 condition
  obtain ⟨width, rfl⟩ := Nat.exists_eq_add_of_le above
  obtain ⟨gap, rfl⟩ := Nat.exists_eq_add_of_le behind
  have here : ts.insideConditionFrom 0 floor (width + 1) = true := by
    have notClose : ts.hasKind (floor + width) .closeParen = false := by simp [hasKind, isParen]
    rw [insideConditionFrom, notClose, has_kind_iff.2 isParen]
    simp [opens]
  have reaches (count : Nat) (short : count ≤ gap) :
      ts.insideConditionFrom 0 floor (width + 1 + count) = true := by
    induction count with
    | zero => exact here
    | succ count ih =>
      rw [← Nat.add_assoc, inside_condition_blank (blank _ (by omega) (by omega))]
      exact ih (by omega)
  have width_eq : floor + width + 1 + gap - floor = width + 1 + gap := by omega
  rw [insideCondition, width_eq]
  exact reaches gap (Nat.le_refl gap)

/-- The fate of a result whose check comes next is to be checked. -/
theorem fate_checked (next : ts.ChecksNext words start limit keyword opening first)
    (above : floor ≤ start) (notIf : words.head? ≠ some "if") (notParens : ∃ word ∈ words, word ≠ "(") :
    ts.fate words start floor limit = .checked := by
  obtain ⟨keywordBehind, _, keywordCarries, _⟩ := next_significant_iff.1 next.checks
  obtain ⟨openingBehind, _, openingCarries, _⟩ := next_significant_iff.1 next.opens
  obtain ⟨firstBehind, firstInside, firstCarries, _⟩ := next_significant_iff.1 next.condition
  have beforeFirst : ts.prevSignificant first floor = some opening :=
    prev_significant_of_next openingCarries (by omega) next.condition
  have beforeOpening : ts.prevSignificant opening floor = some keyword :=
    prev_significant_of_next keywordCarries (by omega) next.opens
  have free : ts.isMember first floor = false := by
    simp [isMember, beforeFirst, kindIs, next.isParen, TokenKind.isMemberAccess]
  have within : ts.startsStatement first floor = false := by
    simp [startsStatement, beforeFirst, kindIs, next.isParen, TokenKind.isStatementEdge]
  have opens : ts.opensCondition opening floor = true := by
    simp [opensCondition, followsWord, beforeOpening, next.isIf]
  have condition : ts.insideCondition first floor = true :=
    inside_condition_first (by omega) next.condition next.isParen opens
  have nonempty : words.isEmpty = false := by
    obtain ⟨word, member, _⟩ := notParens
    exact List.isEmpty_eq_false_iff.2 (List.ne_nil_of_mem member)
  have found : Position.firstIn?
      (fun i => (ts.matchSubject limit words i).isSome && !ts.isMember i floor) start
      (min limit ts.size) = some first := by
    have size := lt_size_of_significant firstCarries
    refine Position.first_iff.2 ⟨by omega, by omega, by simp [next.names, free], fun q lower upper => ?_⟩
    rw [checks_next_unnamed next notIf notParens lower upper, Bool.false_and]
  rw [fate]
  simp [nonempty, found, within, condition]

end Check

/-! ## Sites -/

/-- Whether the tokens from `start` on are an `if`, a parenthesis and these words. -/
def checksNext (ts : TokenSeq) (words : List String) (start limit : Nat) : Bool :=
  Option.isSome do
    let keyword ← ts.nextSignificant start limit
    guard (ts.isIdent keyword "if")
    let opening ← ts.nextSignificant (keyword + 1) limit
    guard (ts.hasKind opening .openParen && ts.spelling opening == "(")
    let first ← ts.nextSignificant (opening + 1) limit
    ts.matchSubject limit words first

/-- Whether a check of the lvalue that took the result comes right behind the statement
that holds the site. -/
def guardFollows (ts : TokenSeq) (limit : Nat) (site : Site) : Bool :=
  match site.subject, site.statement with
  | some (start, stop), some statement =>
    let words := (ts.significant start stop).map ts.spelling
    words.head? != some "if" && words.any (· != "(") && ts.checksNext words (statement.semi + 1) limit
  | _, _ => false

theorem checks_next_found {words : List String} {start : Nat} (checks : ts.checksNext words start limit = true) :
    ∃ keyword opening first, ts.ChecksNext words start limit keyword opening first := by
  obtain ⟨stop, found⟩ := Option.isSome_iff_exists.1 checks
  simp only [Option.bind_eq_bind, Option.bind_eq_some_iff, Option.guard_eq_some', Bool.and_eq_true,
    beq_iff_eq] at found
  obtain ⟨keyword, next, _, isIf, opening, opens, _, ⟨isParen, spelled⟩, first, condition, names⟩ := found
  exact ⟨keyword, opening, first, next, isIf, opens, has_kind_iff.1 isParen, spelled, condition,
    by rw [names, Option.isSome_some]⟩

theorem guard_follows_found (follows : ts.guardFollows limit site = true) :
    ∃ start stop statement, site.subject = some (start, stop) ∧ site.statement = some statement ∧
      let words := (ts.significant start stop).map ts.spelling
      words.head? ≠ some "if" ∧ (∃ word ∈ words, word ≠ "(") ∧
        ts.checksNext words (statement.semi + 1) limit = true := by
  rw [guardFollows] at follows
  split at follows
  · rename_i start stop statement subject stands
    simp only [Bool.and_eq_true, bne_iff_ne, List.any_eq_true] at follows
    exact ⟨start, stop, statement, subject, stands, follows.1.1, follows.1.2, follows.2⟩
  · cases follows

/-- A site with a check behind it is checked, and its result is not used before. -/
theorem site_guarded {registry : Registry} {floor stop : Nat} (found : site ∈ ts.sites registry floor stop)
    (whole : stop ≤ ts.size) (guarded : ts.guardFollows stop site = true) :
    site.checked = true ∧ site.usedBeforeCheck = false := by
  obtain ⟨allocator, call, opening, close, arguments, lower, upper, _, follows, closes, rfl⟩ := site_call found
  rw [Nat.min_eq_left whole] at *
  obtain ⟨first, last, statement, subject, stands, notIf, notParens, checks⟩ := guard_follows_found guarded
  obtain ⟨keyword, paren, name, next⟩ := checks_next_found checks
  simp only [classify] at subject stands ⊢
  split at stands
  · cases stands
  · obtain ⟨semi, ends, rfl⟩ := Option.map_eq_some_iff.1 stands
    have behind := (statement_stop_bounds ends).1
    have opened := next_significant_bounds follows
    have closed := matching_close_bounds closes
    have checked := fate_checked next (show floor ≤ semi + 1 by omega) notIf notParens
    simp only [subject, ends, Option.getD_some, checked, ite_self]
    have assigned (declared : Bool) :
        ((if declared = true then SiteForm.assignment else .declaration) == .returned) = false := by
      cases declared <;> rfl
    rw [assigned]
    exact ⟨rfl, rfl⟩

end AllocGuard.TokenSeq
