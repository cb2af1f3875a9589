import AllocGuard.Hardening
import AllocGuard.Proofs.BracketMatching
import AllocGuard.Proofs.EditRanges

/-! What the condition of a guard evaluates once more. A guard spells out the lvalue that
took the result, and the program evaluates that lvalue a second time. The lvalue is a name
or a group with members and subscripts behind it, and a star at most in front of it; none
of these tokens has a side effect of its own. Between the brackets, however, anything may
stand: nothing on the way from the lvalue to the guard looks there, and an increment in a
subscript is made twice. -/
namespace AllocGuard

namespace TokenSeq

variable {ts : TokenSeq} {start i floor : Nat}

/-! ## Side effects -/

/-- The operators that change their operand, `=` apart. -/
def isUpdate (operator : String) : Bool :=
  ["++", "--", "+=", "-=", "*=", "/=", "%=", "&=", "|=", "^=", "<<=", ">>="].contains operator

/-- Whether a parenthesis behind a token of this kind holds the arguments of a call. -/
def endsOperand (kind : TokenKind) : Bool :=
  kind == .identifier || kind == .closeParen || kind == .closeBracket

/-- Whether the token at `i` has a side effect when the expression that starts at `start` is
evaluated: it assigns, it counts up or down, or it opens the arguments of a call. -/
def hasEffect (ts : TokenSeq) (start i : Nat) : Bool :=
  ts.hasKind i .assign || (ts.hasKind i .operator && isUpdate (ts.spelling i)) ||
    (ts.hasKind i .openParen && (ts.prevSignificant i start).any (ts.kindIs · endsOperand))

/-- Only three kinds of token can have a side effect. -/
theorem effect_kind (effect : ts.hasEffect start i = true) :
    ts.kind? i = some .assign ∨ ts.kind? i = some .operator ∨
      ts.kind? i = some .openParen ∧
        (ts.prevSignificant i start).any (ts.kindIs · endsOperand) = true := by
  simp only [hasEffect, Bool.or_eq_true, Bool.and_eq_true, has_kind_iff] at effect
  rcases effect with (assigns | ⟨operates, _⟩) | calls
  · exact .inl assigns
  · exact .inr (.inl operates)
  · exact .inr (.inr calls)

theorem effect_other {kind : TokenKind} (seen : ts.kind? i = some kind) (assign : kind ≠ .assign)
    (operator : kind ≠ .operator) (paren : kind ≠ .openParen) : ts.hasEffect start i ≠ true := by
  intro effect
  rcases effect_kind effect with same | same | ⟨same, _⟩
  · exact assign (Option.some.inj (seen.symm.trans same))
  · exact operator (Option.some.inj (seen.symm.trans same))
  · exact paren (Option.some.inj (seen.symm.trans same))

theorem effect_significant (effect : ts.hasEffect start i = true) : ts.isSignificant i = true := by
  rcases effect_kind effect with seen | seen | ⟨seen, _⟩
  · exact significant_of_kind seen rfl
  · exact significant_of_kind seen rfl
  · exact significant_of_kind seen rfl

/-! ## Lvalues -/

/-- Nothing in `[start, stop)` carries meaning. -/
structure Blank (ts : TokenSeq) (start stop : Nat) : Prop where
  ordered : start ≤ stop
  trivia : ∀ q, start ≤ q → q < stop → ts.isSignificant q = false

theorem blank_before {prev : Nat} (precedes : ts.prevSignificant i floor = some prev) : ts.Blank (prev + 1) i := by
  obtain ⟨_, upper, _, trivia⟩ := prev_significant_iff.1 precedes
  exact ⟨upper, fun q lower above => trivia q lower above⟩

/-- The tokens `[start, stop)` are a postfix expression: a name or a group, with members and
subscripts behind it. The list holds the ranges between its brackets, the last one first. -/
inductive Postfix (ts : TokenSeq) (floor start : Nat) : Nat → List (Nat × Nat) → Prop where
  | name (seen : ts.kind? start = some .identifier) : Postfix ts floor start (start + 1) []
  | group {close : Nat} (closes : ts.kind? close = some .closeParen)
      (opens : ts.matchingOpen close floor = some start) :
      Postfix ts floor start (close + 1) [(start + 1, close)]
  | member {stop access name : Nat} {inner : List (Nat × Nat)}
      (object : Postfix ts floor start stop inner) (gap : ts.Blank stop access)
      (joins : ts.kindIs access TokenKind.isMemberAccess = true) (behind : ts.Blank (access + 1) name)
      (seen : ts.kind? name = some .identifier) : Postfix ts floor start (name + 1) inner
  | subscript {stop opening close : Nat} {inner : List (Nat × Nat)}
      (object : Postfix ts floor start stop inner) (gap : ts.Blank stop opening)
      (closes : ts.kind? close = some .closeBracket)
      (opens : ts.matchingOpen close floor = some opening) :
      Postfix ts floor start (close + 1) ((opening + 1, close) :: inner)

/-- The tokens `[start, stop)` are a postfix expression, or a star in front of one. -/
def Lvalue (ts : TokenSeq) (floor start stop : Nat) (inner : List (Nat × Nat)) : Prop :=
  ts.Postfix floor start stop inner ∨
    ∃ first, ts.kind? start = some .star ∧ ts.prevSignificant first floor = some start ∧
      ts.Postfix floor first stop inner

section Shape

variable {ts : TokenSeq} {floor start stop : Nat} {inner : List (Nat × Nat)}

theorem matching_open_kind {close opening : Nat} {b : Bracket} (closes : ts.kind? close = some b.closer)
    (opens : ts.matchingOpen close floor = some opening) : ts.kind? opening = some b.opener := by
  have pair : Bracket.ofCloser? b.closer = some b := by
    cases b <;> rfl
  simp only [matchingOpen, closes, Option.bind_some, pair, Option.bind_eq_bind] at opens
  exact open_from_kind opens

theorem postfix_nonempty (expression : ts.Postfix floor start stop inner) : start < stop := by
  induction expression with
  | name seen => exact Nat.lt_succ_self _
  | group closes opens =>
    have bounds := matching_open_bounds opens
    omega
  | member object gap joins behind seen ih =>
    have before := gap.ordered
    have after := behind.ordered
    omega
  | subscript object gap closes opens ih =>
    have before := gap.ordered
    have bounds := matching_open_bounds opens
    omega

theorem postfix_inner (expression : ts.Postfix floor start stop inner) :
    ∀ range ∈ inner, start ≤ range.1 ∧ range.2 ≤ stop := by
  induction expression with
  | name seen => simp
  | group closes opens => simp
  | member object gap joins behind seen ih =>
    intro range member
    have before := gap.ordered
    have after := behind.ordered
    have bounds := ih range member
    omega
  | subscript object gap closes opens ih =>
    intro range member
    have width := postfix_nonempty object
    have before := gap.ordered
    have opened := matching_open_bounds opens
    rcases List.mem_cons.1 member with rfl | member
    · simp only
      omega
    · have bounds := ih range member
      omega

/-- The search backwards from the end of a postfix expression reads one. -/
theorem postfix_of_start {j : Nat} (hit : ts.postfixStart floor j = some start) :
    ∃ inner, ts.Postfix floor start (j + 1) inner := by
  fun_induction postfixStart ts floor j with
  | case1 | case2 | case5 | case9 => cases hit
  | case3 j closes opening opens prev before ih =>
    obtain ⟨inner, object⟩ := ih hit
    exact ⟨_, .subscript object (blank_before before) closes opens⟩
  | case4 j identifier first =>
    cases hit
    exact ⟨[], .name identifier⟩
  | case6 j identifier p access member prev before ih =>
    obtain ⟨inner, object⟩ := ih hit
    exact ⟨inner, .member object (blank_before before) member (blank_before access) identifier⟩
  | case7 j identifier p access other =>
    cases hit
    exact ⟨[], .name identifier⟩
  | case8 j closes => exact ⟨_, .group closes hit⟩

/-- What an `=` assigns to is an lvalue in this sense. -/
theorem lvalue_of_before {assign : Nat} (hit : ts.lvalueBefore assign floor = some (start, stop)) :
    ∃ inner, ts.Lvalue floor start stop inner := by
  obtain ⟨last, first, _, found, rfl, begins⟩ := lvalue_before_cases hit
  obtain ⟨inner, expression⟩ := postfix_of_start found
  rcases begins with rfl | ⟨starred, isStar⟩
  · exact ⟨inner, .inl expression⟩
  · exact ⟨inner, .inr ⟨first, isStar, starred, expression⟩⟩

/-! ## Where side effects stand -/

/-- A side effect of a postfix expression stands between two of its brackets, unless a group
at its front follows an operand and is itself a call. -/
theorem postfix_effect {origin i : Nat} (expression : ts.Postfix floor start stop inner)
    (front : (ts.prevSignificant start origin).any (ts.kindIs · endsOperand) = false) (lower : start ≤ i)
    (upper : i < stop) (effect : ts.hasEffect origin i = true) : ∃ range ∈ inner, range.1 ≤ i ∧ i < range.2 := by
  induction expression with
  | name seen =>
    obtain rfl : i = start := by omega
    exact absurd effect (effect_other seen (by simp) (by simp) (by simp))
  | @group close closes opens =>
    by_cases first : i = start
    · -- the parenthesis that starts the expression follows no operand
      subst first
      have isParen : ts.kind? i = some .openParen := matching_open_kind (b := .paren) closes opens
      rcases effect_kind effect with seen | seen | ⟨_, calls⟩
      · simp [isParen] at seen
      · simp [isParen] at seen
      · rw [front] at calls
        cases calls
    · by_cases last : i = close
      · subst last
        exact absurd effect (effect_other closes (by simp) (by simp) (by simp))
      · exact ⟨_, List.mem_cons_self, by simp only; omega, by simp only; omega⟩
  | @member stop access name inner object gap joins behind seen ih =>
    by_cases within : i < stop
    · exact ih within
    · have carries := effect_significant effect
      by_cases early : i < access
      · rw [gap.trivia i (by omega) early] at carries
        cases carries
      · by_cases here : i = access
        · subst here
          obtain ⟨kind, isKind, accesses⟩ := kind_is_iff.1 joins
          have other : kind = .dot ∨ kind = .arrow := by
            simpa [TokenKind.isMemberAccess] using accesses
          rcases other with rfl | rfl
          · exact absurd effect (effect_other isKind (by simp) (by simp) (by simp))
          · exact absurd effect (effect_other isKind (by simp) (by simp) (by simp))
        · by_cases late : i < name
          · rw [behind.trivia i (by omega) late] at carries
            cases carries
          · obtain rfl : i = name := by omega
            exact absurd effect (effect_other seen (by simp) (by simp) (by simp))
  | @subscript stop opening close inner object gap closes opens ih =>
    by_cases within : i < stop
    · obtain ⟨range, member, inside⟩ := ih within
      exact ⟨range, List.mem_cons_of_mem _ member, inside⟩
    · have carries := effect_significant effect
      by_cases early : i < opening
      · rw [gap.trivia i (by omega) early] at carries
        cases carries
      · by_cases first : i = opening
        · subst first
          have isBracket : ts.kind? i = some .openBracket := matching_open_kind (b := .square) closes opens
          exact absurd effect (effect_other isBracket (by simp) (by simp) (by simp))
        · by_cases last : i = close
          · subst last
            exact absurd effect (effect_other closes (by simp) (by simp) (by simp))
          · exact ⟨_, List.mem_cons_self, by simp only; omega, by simp only; omega⟩

/-- An lvalue has a side effect exactly if something between its brackets has one. -/
theorem lvalue_effect_iff (lvalue : ts.Lvalue floor start stop inner) :
    (∃ i, start ≤ i ∧ i < stop ∧ ts.hasEffect start i = true) ↔
      ∃ range ∈ inner, ∃ i, range.1 ≤ i ∧ i < range.2 ∧ ts.hasEffect start i = true := by
  have starts : ts.prevSignificant start start = none := by
    rw [Option.eq_none_iff_forall_ne_some]
    intro prev precedes
    have bounds := prev_significant_bounds precedes
    omega
  rcases lvalue with expression | ⟨first, isStar, starred, expression⟩
  · constructor
    · rintro ⟨i, lower, upper, effect⟩
      obtain ⟨range, member, inside⟩ := postfix_effect expression (by simp [starts]) lower upper effect
      exact ⟨range, member, i, inside.1, inside.2, effect⟩
    · rintro ⟨range, member, i, lower, upper, effect⟩
      have bounds := postfix_inner expression range member
      exact ⟨i, by omega, by omega, effect⟩
  · have bounds := prev_significant_bounds starred
    obtain ⟨_, _, carries, trivia⟩ := prev_significant_iff.1 starred
    have front : (ts.prevSignificant first start).any (ts.kindIs · endsOperand) = false := by
      have here : ts.prevSignificant first start = some start :=
        prev_significant_iff.2 ⟨Nat.le_refl start, bounds.2.1, carries, trivia⟩
      simp [here, kindIs, isStar, endsOperand]
    constructor
    · rintro ⟨i, lower, upper, effect⟩
      by_cases behind : first ≤ i
      · obtain ⟨range, member, inside⟩ := postfix_effect expression front behind upper effect
        exact ⟨range, member, i, inside.1, inside.2, effect⟩
      · by_cases star : i = start
        · subst star
          exact absurd effect (effect_other isStar (by simp) (by simp) (by simp))
        · have blank := trivia i (by omega) (by omega)
          rw [effect_significant effect] at blank
          cases blank
    · rintro ⟨range, member, i, lower, upper, effect⟩
      have inside := postfix_inner expression range member
      exact ⟨i, by omega, by omega, effect⟩

end Shape

/-- The subject of a site is an lvalue in front of an `=`. -/
theorem site_subject {registry : Registry} {stop subjectStop : Nat} {site : Site}
    (found : site ∈ ts.sites registry floor stop) (takes : site.subject = some (start, subjectStop)) :
    ∃ assign, ts.kind? assign = some .assign ∧
      ts.lvalueBefore assign (ts.callContext site.call floor).region = some (start, subjectStop) := by
  obtain ⟨allocator, call, opening, close, arguments, _, _, _, _, _, rfl⟩ := site_call found
  simp only [classify] at takes ⊢
  obtain ⟨assign, left, lvalue⟩ := Option.bind_eq_some_iff.1 takes
  exact ⟨assign, has_kind_iff.1 (Option.filter_eq_some_iff.1 left).2, lvalue⟩

end TokenSeq

/-! ## Guards -/

namespace BodyTask
open TokenSeq

/-- A guard checks the call itself, or the lvalue that took the result. -/
theorem guard_edits_cases {t : BodyTask} {site : Site} {edits : List Edit} (guarded : t.guardEdits? site = some edits) :
    site.form = .discarded ∨
      (site.form = .assignment ∨ site.form = .declaration) ∧
        ∃ statement start stop, site.statement = some statement ∧ site.subject = some (start, stop) ∧
          edits = t.guardBehind site statement (start, stop) := by
  rw [guardEdits?] at guarded
  split at guarded
  · rename_i statement subject stands form takes
    cases guarded
    exact .inr ⟨.inl form, statement, subject.1, subject.2, stands, takes, rfl⟩
  · rename_i statement subject stands form takes
    cases guarded
    exact .inr ⟨.inr form, statement, subject.1, subject.2, stands, takes, rfl⟩
  · rename_i statement stands form
    exact .inl form
  · cases guarded

/-- Every guard of a body makes the call itself its condition, or it spells out an lvalue and
evaluates it once more. That lvalue has a side effect exactly if one stands inside its
subscripts or inside the group at its front: the name, the members and the star have none. -/
theorem guard_effects_enclosed (t : BodyTask) (registry : Registry) (sites : List Site)
    (found : ∀ site ∈ sites, site ∈ t.ts.sites registry t.function.body t.function.stop)
    (edits : List Edit) (guards : edits ∈ t.guards sites) :
    ∃ site ∈ sites, site.isUnsafe = true ∧ t.guardEdits? site = some edits ∧
      (site.form = .discarded ∨
        (site.form = .assignment ∨ site.form = .declaration) ∧
          ∃ statement start stop inner, site.statement = some statement ∧ site.subject = some (start, stop) ∧
            edits = t.guardBehind site statement (start, stop) ∧
            t.ts.Lvalue (t.ts.callContext site.call t.function.body).region start stop inner ∧
            ((∃ i, start ≤ i ∧ i < stop ∧ t.ts.hasEffect start i = true) ↔
              ∃ range ∈ inner, ∃ i, range.1 ≤ i ∧ i < range.2 ∧ t.ts.hasEffect start i = true)) := by
  obtain ⟨site, kept, guarded⟩ := List.mem_filterMap.1 guards
  obtain ⟨member, unchecked⟩ := List.mem_filter.1 kept
  refine ⟨site, member, (Bool.and_eq_true_iff.1 unchecked).1, guarded, ?_⟩
  rcases guard_edits_cases guarded with dropped | ⟨form, statement, start, stop, stands, takes, made⟩
  · exact .inl dropped
  · obtain ⟨assign, _, before⟩ := site_subject (found site member) takes
    obtain ⟨inner, lvalue⟩ := lvalue_of_before before
    exact .inr ⟨form, statement, start, stop, inner, stands, takes, made, lvalue, lvalue_effect_iff lvalue⟩

theorem guard_effects_enclosed_subscript :
    let t : BodyTask :=
      { ts := .ofSource "\x7bv[n++].p=strdup(s);\x7d", function := ⟨"f", 0, 0, 15, true, false, "void", false⟩
        shape := .voidToInt, shapes := [], failureCode := "-1", nullIsFailure := false }
    let sites := t.ts.sites (.withExtra []) t.function.body t.function.stop
    let edits : List Edit := [⟨14, 14, " if (v[n++].p == NULL) return -1;"⟩]
    (∀ site ∈ sites, site ∈ t.ts.sites (.withExtra []) t.function.body t.function.stop) ∧
      edits ∈ t.guards sites ∧
      ∃ site ∈ sites, site.isUnsafe = true ∧ t.guardEdits? site = some edits ∧
        (site.form = .discarded ∨
          (site.form = .assignment ∨ site.form = .declaration) ∧
            ∃ statement start stop inner, site.statement = some statement ∧ site.subject = some (start, stop) ∧
              edits = t.guardBehind site statement (start, stop) ∧
              t.ts.Lvalue (t.ts.callContext site.call t.function.body).region start stop inner ∧
              ((∃ i, start ≤ i ∧ i < stop ∧ t.ts.hasEffect start i = true) ↔
                ∃ range ∈ inner, ∃ i, range.1 ≤ i ∧ i < range.2 ∧ t.ts.hasEffect start i = true)) := by
  intro t sites edits
  have guards : edits ∈ t.guards sites := by decide +kernel
  exact ⟨fun site member => member, guards,
    t.guard_effects_enclosed (.withExtra []) sites (fun site member => member) edits guards⟩

end BodyTask

/-- An increment in a subscript is part of the lvalue, and the guard repeats it: it counts
once more, and what it checks is the element behind the one that was assigned. -/
theorem guard_counts_twice :
    let source := "void main()\x7bv[n++]=strdup(s);\x7d"
    let ts := TokenSeq.ofSource source
    ((ts.analyse {}).sites.map fun site => (site.form, site.subject)) = [(.assignment, some (6, 11))] ∧
      ts.textRange 6 11 = "v[n++]" ∧ ts.hasEffect 6 9 = true ∧
      (harden {} source).text = "void main()\x7bv[n++]=strdup(s); if (v[n++] == NULL) return;\x7d" := by
  decide +kernel

end AllocGuard
