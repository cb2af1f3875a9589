import AllocGuard.Token.Bracket

/-! What the searches for a token find. A bounded search finds the extreme position of
its range, so the next and the previous token that carries meaning are the ones with
nothing but white space and comments in between. -/
namespace AllocGuard

namespace Position

variable {p : Nat → Bool} {start stop count i found q : Nat}

/-- A scan that moves forward inside a range goes on from a later position. So what it does is shown for
a position when it is known for those behind it. -/
theorem forward_induction (size : Nat) {motive : Nat → Prop}
    (step : ∀ i, (∀ j, i < j → i < size → motive j) → motive i) (i : Nat) : motive i := by
  induction left : size - i using Nat.strongRecOn generalizing i with
  | ind left' ih =>
    subst left
    exact step i fun j behind inside => ih (size - j) (by omega) j rfl

/-- A scan that goes past every position of a range may as well start behind the range. -/
theorem skip_range {α : Type} {f : Nat → α} {j : Nat} (ordered : i ≤ j) (skips : ∀ q, i ≤ q → q < j → f q = f (q + 1)) :
    f i = f j := by
  induction ordered with
  | refl => rfl
  | @step last before ih =>
    have front := ih fun q lower upper => skips q lower (Nat.lt_succ_of_lt upper)
    rw [front, skips last before (Nat.lt_succ_self last)]

private theorem first_iff_count :
    first? p start count = some found ↔
      start ≤ found ∧ found < start + count ∧ p found = true ∧
        ∀ q, start ≤ q → q < found → p q = false := by
  induction count generalizing start with
  | zero =>
    simp only [first?, reduceCtorEq, false_iff]
    omega
  | succ count ih =>
    rw [first?]
    split
    · rename_i passes
      constructor
      · intro hit
        cases hit
        exact ⟨Nat.le_refl _, by omega, passes, by omega⟩
      · rintro ⟨lower, _, _, least⟩
        by_cases here : start = found
        · rw [here]
        · have fails := least start (Nat.le_refl _) (by omega)
          rw [passes] at fails
          cases fails
    · rename_i fails
      rw [ih]
      constructor
      · rintro ⟨lower, upper, passes, least⟩
        refine ⟨by omega, by omega, passes, ?_⟩
        intro q above below
        by_cases here : q = start
        · simpa [here] using fails
        · exact least q (by omega) below
      · rintro ⟨lower, upper, passes, least⟩
        have behind : start ≠ found := by
          rintro rfl
          exact fails passes
        exact ⟨by omega, by omega, passes, fun q above below => least q (by omega) below⟩

private theorem last_iff_count :
    last? p start count = some found ↔
      start ≤ found ∧ found < start + count ∧ p found = true ∧
        ∀ q, found < q → q < start + count → p q = false := by
  induction count with
  | zero =>
    simp only [last?, reduceCtorEq, false_iff]
    omega
  | succ count ih =>
    rw [last?]
    split
    · rename_i passes
      constructor
      · intro hit
        cases hit
        exact ⟨by omega, by omega, passes, by omega⟩
      · rintro ⟨_, upper, _, greatest⟩
        by_cases here : start + count = found
        · rw [here]
        · have fails := greatest (start + count) (by omega) (by omega)
          rw [passes] at fails
          cases fails
    · rename_i fails
      rw [ih]
      constructor
      · rintro ⟨lower, upper, passes, greatest⟩
        refine ⟨lower, by omega, passes, ?_⟩
        intro q above below
        by_cases here : q = start + count
        · simpa [here] using fails
        · exact greatest q above (by omega)
      · rintro ⟨lower, upper, passes, greatest⟩
        have before : start + count ≠ found := by
          rintro rfl
          exact fails passes
        exact ⟨lower, by omega, passes, fun q above below => greatest q above (by omega)⟩

/-- The search upwards finds the least position of its range that passes. -/
theorem first_iff :
    firstIn? p start stop = some found ↔
      start ≤ found ∧ found < stop ∧ p found = true ∧
        ∀ q, start ≤ q → q < found → p q = false := by
  rw [firstIn?, first_iff_count]
  constructor
  · rintro ⟨lower, upper, rest⟩
    exact ⟨lower, by omega, rest⟩
  · rintro ⟨lower, upper, rest⟩
    exact ⟨lower, by omega, rest⟩

/-- The search downwards finds the greatest position of its range that passes. -/
theorem last_iff :
    lastIn? p start stop = some found ↔
      start ≤ found ∧ found < stop ∧ p found = true ∧
        ∀ q, found < q → q < stop → p q = false := by
  rw [lastIn?, last_iff_count]
  constructor
  · rintro ⟨lower, upper, passes, greatest⟩
    exact ⟨lower, by omega, passes, fun q above below => greatest q above (by omega)⟩
  · rintro ⟨lower, upper, passes, greatest⟩
    exact ⟨lower, by omega, passes, fun q above below => greatest q above (by omega)⟩

private theorem last_none_count (missing : last? p start count = none) :
    ∀ q, start ≤ q → q < start + count → p q = false := by
  induction count with
  | zero => omega
  | succ count ih =>
    rw [last?] at missing
    split at missing
    · cases missing
    · rename_i fails
      intro q lower upper
      by_cases here : q = start + count
      · simpa [here] using fails
      · exact ih missing q lower (by omega)

private theorem first_none_count (missing : first? p start count = none) :
    ∀ q, start ≤ q → q < start + count → p q = false := by
  induction count generalizing start with
  | zero => omega
  | succ count ih =>
    rw [first?] at missing
    split at missing
    · cases missing
    · rename_i fails
      intro q lower upper
      by_cases here : q = start
      · simpa [here] using fails
      · exact ih missing q (by omega) (by omega)

/-- A search upwards that finds nothing has nothing to find. -/
theorem first_none (missing : firstIn? p start stop = none) (lower : start ≤ q) (upper : q < stop) : p q = false :=
  first_none_count missing q lower (by omega)

/-- A search downwards that finds nothing has nothing to find. -/
theorem last_none (missing : lastIn? p start stop = none) (lower : start ≤ q) (upper : q < stop) : p q = false :=
  last_none_count missing q lower (by omega)

theorem mem_range : i ∈ range start stop ↔ start ≤ i ∧ i < stop := by
  rw [range, List.mem_range'_1]
  omega

theorem range_append {middle : Nat} (front : start ≤ middle) (back : middle ≤ stop) :
    range start stop = range start middle ++ range middle stop := by
  obtain ⟨first, rfl⟩ := Nat.exists_eq_add_of_le front
  obtain ⟨second, rfl⟩ := Nat.exists_eq_add_of_le back
  have whole : start + first + second - start = first + second := by omega
  rw [range, range, range, whole, Nat.add_sub_cancel_left, Nat.add_sub_cancel_left, List.range'_append_1]

theorem range_single (i : Nat) : range i (i + 1) = [i] := by
  rw [range, Nat.add_sub_cancel_left, List.range'_one]

end Position

namespace TokenSeq

variable {ts : TokenSeq} {i floor limit prev q next : Nat} {kind : TokenKind} {p : TokenKind → Bool}

theorem has_kind_iff : ts.hasKind i kind = true ↔ ts.kind? i = some kind := by
  rw [hasKind, beq_iff_eq]

theorem kind_is_iff : ts.kindIs i p = true ↔ ∃ kind, ts.kind? i = some kind ∧ p kind = true := by
  rw [kindIs, Option.any_eq_true]

theorem lt_size_of_significant (carries : ts.isSignificant i = true) : i < ts.size := by
  obtain ⟨kind, seen, _⟩ := kind_is_iff.1 carries
  exact lt_size_of_kind seen

theorem significant_of_kind (seen : ts.kind? i = some kind) (meaning : kind.isTrivia = false) :
    ts.isSignificant i = true :=
  kind_is_iff.2 ⟨kind, seen, by simp [meaning]⟩

/-- White space and comments are in no class of tokens that carry meaning. -/
theorem kind_is_blank (blank : ts.isSignificant i = false) (meaning : ∀ kind, p kind = true → kind.isTrivia = false) :
    ts.kindIs i p = false := by
  rw [Bool.eq_false_iff]
  intro seen
  obtain ⟨kind, isKind, passes⟩ := kind_is_iff.1 seen
  rw [significant_of_kind isKind (meaning kind passes)] at blank
  cases blank

theorem has_kind_blank (blank : ts.isSignificant i = false) (meaning : kind.isTrivia = false) :
    ts.hasKind i kind = false := by
  rw [Bool.eq_false_iff]
  intro seen
  rw [significant_of_kind (has_kind_iff.1 seen) meaning] at blank
  cases blank

/-- The next token that carries meaning has nothing but trivia in front of it. -/
theorem next_significant_iff :
    ts.nextSignificant i limit = some next ↔
      i ≤ next ∧ next < limit ∧ ts.isSignificant next = true ∧
        ∀ q, i ≤ q → q < next → ts.isSignificant q = false := by
  rw [nextSignificant, Position.first_iff]
  constructor
  · rintro ⟨lower, upper, rest⟩
    exact ⟨lower, by omega, rest⟩
  · rintro ⟨lower, upper, carries, rest⟩
    have inside := lt_size_of_significant carries
    exact ⟨lower, by omega, carries, rest⟩

/-- The previous token that carries meaning has nothing but trivia behind it. -/
theorem prev_significant_iff :
    ts.prevSignificant i floor = some prev ↔
      floor ≤ prev ∧ prev < i ∧ ts.isSignificant prev = true ∧
        ∀ q, prev < q → q < i → ts.isSignificant q = false := by
  rw [prevSignificant, Position.last_iff]
  constructor
  · rintro ⟨lower, upper, carries, greatest⟩
    refine ⟨lower, by omega, carries, ?_⟩
    intro q above below
    by_cases inside : q < ts.size
    · exact greatest q above (by omega)
    · exact Bool.eq_false_iff.2 fun meaning => inside (lt_size_of_significant meaning)
  · rintro ⟨lower, upper, carries, greatest⟩
    have inside := lt_size_of_significant carries
    exact ⟨lower, by omega, carries, fun q above below => greatest q above (by omega)⟩

theorem next_significant_none (missing : ts.nextSignificant i limit = none) (lower : i ≤ q) (upper : q < limit) :
    ts.isSignificant q = false := by
  by_cases inside : q < ts.size
  · exact Position.first_none missing lower (by omega)
  · exact Bool.eq_false_iff.2 fun carries => inside (lt_size_of_significant carries)

theorem prev_significant_none (missing : ts.prevSignificant i floor = none) (lower : floor ≤ q) (upper : q < i) :
    ts.isSignificant q = false := by
  by_cases inside : q < ts.size
  · exact Position.last_none missing lower (by omega)
  · exact Bool.eq_false_iff.2 fun carries => inside (lt_size_of_significant carries)

/-- What carries meaning in front of a token does not stand behind the previous one that does. -/
theorem le_prev_significant (hit : ts.prevSignificant i floor = some prev) (carries : ts.isSignificant q = true)
    (upper : q < i) : q ≤ prev := by
  obtain ⟨_, _, _, blank⟩ := prev_significant_iff.1 hit
  rcases Nat.lt_or_ge prev q with behind | before
  · rw [blank q behind upper] at carries
    cases carries
  · exact before

/-- A token that carries meaning is the next one from where it stands. -/
theorem next_significant_here (carries : ts.isSignificant i = true) (inside : i < limit) :
    ts.nextSignificant i limit = some i :=
  next_significant_iff.2 ⟨Nat.le_refl i, inside, carries, by omega⟩

/-- A token that carries meaning is the previous one of the next. -/
theorem prev_significant_of_next (carries : ts.isSignificant i = true) (above : floor ≤ i)
    (follows : ts.nextSignificant (i + 1) limit = some next) : ts.prevSignificant next floor = some i := by
  obtain ⟨lower, _, _, blank⟩ := next_significant_iff.1 follows
  exact prev_significant_iff.2 ⟨above, by omega, carries, fun q behind before => blank q behind before⟩

end TokenSeq

end AllocGuard
