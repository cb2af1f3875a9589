import AllocGuard.Proofs.BracketMatching

/-! Partners are partners from both sides. The two searches run in opposite directions over tokens
whose brackets need not be balanced. Each of them follows the height of the tokens, which is the number
of brackets of the pair that have been opened less the number of those that have been closed. Forwards
from an opening bracket, the search ends where the height first comes back to what it was. Backwards
from a closing one, it ends where the height was last as low as it is behind that bracket. Between two
partners the height stays above both ends, so that the two searches find each other's start, and no
pair crosses another of its kind. -/
namespace AllocGuard

namespace Bracket

theorem of_opener (b : Bracket) : ofOpener? b.opener = some b := by
  cases b <;> rfl

theorem of_closer (b : Bracket) : ofCloser? b.closer = some b := by
  cases b <;> rfl

theorem opener_of {b : Bracket} {kind : TokenKind} (pair : ofOpener? kind = some b) : kind = b.opener := by
  cases kind <;> cases pair <;> rfl

theorem closer_of {b : Bracket} {kind : TokenKind} (pair : ofCloser? kind = some b) : kind = b.closer := by
  cases kind <;> cases pair <;> rfl

end Bracket

namespace TokenSeq

variable {ts : TokenSeq} {b : Bracket} {i depth opening floor close limit count : Nat}

/-! ## Height -/

/-- The brackets of the pair opened in front of a position, less those closed there. -/
def height (ts : TokenSeq) (b : Bracket) : Nat → Int
  | 0 => 0
  | i + 1 =>
    if ts.hasKind i b.opener then ts.height b i + 1
    else if ts.hasKind i b.closer then ts.height b i - 1
    else ts.height b i

theorem closer_no_opener (closes : ts.hasKind i b.closer = true) : ts.hasKind i b.opener = false := by
  rw [has_kind_of_kind (has_kind_iff.1 closes), b.closer_beq_opener]

theorem height_opener (opens : ts.hasKind i b.opener = true) : ts.height b (i + 1) = ts.height b i + 1 := by
  rw [height, if_pos opens]

theorem height_closer (closes : ts.hasKind i b.closer = true) : ts.height b (i + 1) = ts.height b i - 1 := by
  rw [height, closer_no_opener closes, if_neg Bool.false_ne_true, if_pos closes]

theorem height_other (opens : ¬ ts.hasKind i b.opener = true) (closes : ¬ ts.hasKind i b.closer = true) :
    ts.height b (i + 1) = ts.height b i := by
  rw [height, if_neg opens, if_neg closes]

theorem opener_of_rise (rises : ts.height b i < ts.height b (i + 1)) : ts.hasKind i b.opener = true := by
  rw [height] at rises
  split at rises
  · assumption
  · split at rises <;> omega

theorem closer_of_fall (falls : ts.height b (i + 1) < ts.height b i) : ts.hasKind i b.closer = true := by
  rw [height] at falls
  split at falls
  · omega
  · split at falls
    · assumption
    · omega

/-- Two brackets between which the height stays above what it is in front of the first and behind
the second. -/
structure Partners (ts : TokenSeq) (b : Bracket) (opening close : Nat) : Prop where
  ordered : opening < close
  level : ts.height b (close + 1) = ts.height b opening
  inside : ∀ i, opening < i → i ≤ close → ts.height b opening < ts.height b i

namespace Partners

variable {opening close opening' close' : Nat}

theorem opens (pair : ts.Partners b opening close) : ts.kind? opening = some b.opener :=
  has_kind_iff.1 (opener_of_rise (pair.inside (opening + 1) (Nat.lt_succ_self _) pair.ordered))

theorem closes (pair : ts.Partners b opening close) : ts.kind? close = some b.closer := by
  refine has_kind_iff.1 (closer_of_fall ?_)
  rw [pair.level]
  exact pair.inside close pair.ordered (Nat.le_refl close)

/-- A bracket has one partner at most behind it. -/
theorem close_le (pair : ts.Partners b opening close) (pair' : ts.Partners b opening close') : close ≤ close' := by
  refine Nat.le_of_not_lt fun later => ?_
  have ordered := pair'.ordered
  have above := pair.inside (close' + 1) (by omega) (by omega)
  rw [pair'.level] at above
  omega

/-- A pair that starts inside another one ends there. -/
theorem ends_inside (pair : ts.Partners b opening close) (pair' : ts.Partners b opening' close')
    (starts : opening < opening') (before : opening' < close) : close' < close := by
  refine Nat.lt_of_not_le fun crosses => ?_
  have above := pair.inside opening' starts (Nat.le_of_lt before)
  rcases Nat.lt_or_eq_of_le crosses with later | same
  · have higher := pair'.inside (close + 1) (by omega) later
    rw [pair.level] at higher
    omega
  · -- two pairs that end together have started at the same height
    have level := pair'.level
    rw [← same, pair.level] at level
    omega

end Partners

/-- Two ranges, with their ends, that are the same, or one of which lies behind or inside the other. -/
def NestedOrDisjoint (opening close opening' close' : Nat) : Prop :=
  (opening = opening' ∧ close = close') ∨ close < opening' ∨ close' < opening ∨
    (opening < opening' ∧ close' < close) ∨ (opening' < opening ∧ close < close')

theorem Partners.nested_or_disjoint {opening' close' : Nat} (pair : ts.Partners b opening close)
    (pair' : ts.Partners b opening' close') : NestedOrDisjoint opening close opening' close' := by
  have apart : close ≠ opening' := by
    rintro rfl
    have both := pair.closes.symm.trans pair'.opens
    cases b <;> cases both
  have apart' : close' ≠ opening := by
    rintro rfl
    have both := pair'.closes.symm.trans pair.opens
    cases b <;> cases both
  unfold NestedOrDisjoint
  rcases Nat.lt_trichotomy opening opening' with before | rfl | behind
  · by_cases inside : opening' < close
    · have ends := pair.ends_inside pair' before inside
      omega
    · omega
  · have front := pair.close_le pair'
    have back := pair'.close_le pair
    omega
  · by_cases inside : opening < close'
    · have ends := pair'.ends_inside pair behind inside
      omega
    · omega

/-! ## The searches -/

/-- The search for a closing bracket ends where the height has come down by the depth. -/
theorem close_from_iff (some : 0 < depth) :
    ts.closeFrom b depth i count = .some close ↔
      i ≤ close ∧ close < i + count ∧ ts.height b (close + 1) = ts.height b i - depth ∧
        ∀ j, i ≤ j → j ≤ close → ts.height b i - depth < ts.height b j := by
  induction count generalizing depth i with
  | zero =>
    simp only [closeFrom, reduceCtorEq, false_iff]
    omega
  | succ count ih =>
    -- behind a token that does not end the search, the search goes on at the height it leaves
    have onward {depth' : Nat} (some' : 0 < depth')
        (same : ts.height b (i + 1) - depth' = ts.height b i - depth) :
        ts.closeFrom b depth' (i + 1) count = .some close ↔
          i ≤ close ∧ close < i + (count + 1) ∧ ts.height b (close + 1) = ts.height b i - depth ∧
            ∀ j, i ≤ j → j ≤ close → ts.height b i - depth < ts.height b j := by
      rw [ih some', same]
      constructor
      · rintro ⟨lower, upper, level, above⟩
        refine ⟨by omega, by omega, level, fun j after before => ?_⟩
        rcases Nat.eq_or_lt_of_le after with rfl | later
        · omega
        · exact above j later before
      · rintro ⟨lower, upper, level, above⟩
        have behind : i ≠ close := by
          rintro rfl
          omega
        exact ⟨by omega, by omega, level, fun j after before => above j (by omega) before⟩
    rw [closeFrom]
    split
    · rename_i opens
      exact onward (Nat.succ_pos depth) (by rw [height_opener opens]; omega)
    · rename_i opens
      split
      · rename_i closes
        have falls := height_closer closes
        split
        · rename_i last
          obtain rfl : depth = 1 := by omega
          constructor
          · intro hit
            obtain rfl := Option.some.inj hit
            refine ⟨Nat.le_refl i, by omega, falls, fun j after before => ?_⟩
            obtain rfl : i = j := by omega
            omega
          · rintro ⟨lower, upper, level, above⟩
            rcases Nat.eq_or_lt_of_le lower with rfl | later
            · rfl
            · have higher := above (i + 1) (Nat.le_succ i) later
              omega
        · exact onward (by omega) (by omega)
      · rename_i closes
        exact onward some (by rw [height_other opens closes])

theorem open_from_iff (some : 0 < depth) :
    ts.openFrom b depth floor count = .some opening ↔
      floor ≤ opening ∧ opening < floor + count ∧
        ts.height b opening = ts.height b (floor + count) - depth ∧
          ∀ j, opening < j → j ≤ floor + count → ts.height b (floor + count) - depth < ts.height b j := by
  induction count generalizing depth with
  | zero =>
    simp only [openFrom, reduceCtorEq, false_iff]
    omega
  | succ count ih =>
    have next : floor + (count + 1) = floor + count + 1 := rfl
    have onward {depth' : Nat} (some' : 0 < depth')
        (same : ts.height b (floor + count) - depth' = ts.height b (floor + count + 1) - depth) :
        ts.openFrom b depth' floor count = .some opening ↔
          floor ≤ opening ∧ opening < floor + (count + 1) ∧
            ts.height b opening = ts.height b (floor + count + 1) - depth ∧
              ∀ j, opening < j → j ≤ floor + (count + 1) →
                ts.height b (floor + count + 1) - depth < ts.height b j := by
      rw [ih some', same]
      constructor
      · rintro ⟨lower, upper, level, above⟩
        refine ⟨lower, by omega, level, fun j after before => ?_⟩
        rcases Nat.eq_or_lt_of_le before with rfl | earlier
        · rw [next]
          omega
        · exact above j after (by omega)
      · rintro ⟨lower, upper, level, above⟩
        have before : floor + count ≠ opening := by
          rintro rfl
          omega
        exact ⟨lower, by omega, level, fun j after before => above j after (by omega)⟩
    rw [openFrom, next]
    split
    · rename_i closes
      exact onward (Nat.succ_pos depth) (by rw [height_closer closes]; omega)
    · rename_i closes
      split
      · rename_i opens
        have rises := height_opener opens
        split
        · rename_i last
          obtain rfl : depth = 1 := by omega
          constructor
          · rintro ⟨⟩
            refine ⟨Nat.le_add_right _ _, by omega, by omega, fun j after before => ?_⟩
            obtain rfl : j = floor + count + 1 := by omega
            omega
          · rintro ⟨lower, upper, level, above⟩
            rcases Nat.lt_or_eq_of_le (Nat.le_of_lt_succ upper) with earlier | same
            · have higher := above (floor + count) earlier (by omega)
              omega
            · exact congrArg Option.some same.symm
        · exact onward (by omega) (by omega)
      · rename_i opens
        exact onward some (by rw [height_other opens closes])

/-- The search from an opening bracket finds its partner if that stands below the limit. -/
theorem matching_close_iff :
    ts.matchingClose opening limit = some close ↔ close < limit ∧ ∃ b, ts.Partners b opening close := by
  constructor
  · intro hit
    have bounds := matching_close_bounds hit
    simp only [matchingClose, Option.bind_eq_bind, Option.bind_eq_some_iff] at hit
    obtain ⟨b, ⟨kind, seen, pair⟩, closes⟩ := hit
    obtain ⟨_, _, level, above⟩ := (close_from_iff Nat.one_pos).1 closes
    have rises : ts.height b (opening + 1) = ts.height b opening + 1 :=
      height_opener (has_kind_iff.2 (Bracket.opener_of pair ▸ seen))
    refine ⟨bounds.2.1, b, bounds.1, by omega, fun j after before => ?_⟩
    have higher := above j after before
    omega
  · rintro ⟨below, b, pair⟩
    have inside := lt_size_of_kind pair.closes
    have rises := height_opener (has_kind_iff.2 pair.opens)
    have ordered := pair.ordered
    rw [matchingClose, pair.opens, Option.bind_some, b.of_opener]
    refine (close_from_iff Nat.one_pos).2 ⟨ordered, by omega, ?_, fun j after before => ?_⟩
    · rw [pair.level]
      omega
    · have higher := pair.inside j after before
      omega

/-- A partner that is found does not depend on how far the search may go. -/
theorem matching_close_further {limit' : Nat} (hit : ts.matchingClose i limit = some close) (inside : close < limit') :
    ts.matchingClose i limit' = some close :=
  matching_close_iff.2 ⟨inside, (matching_close_iff.1 hit).2⟩

/-- The search from a closing bracket finds its partner if that does not stand below the floor. -/
theorem matching_open_iff :
    ts.matchingOpen close floor = some opening ↔ floor ≤ opening ∧ ∃ b, ts.Partners b opening close := by
  constructor
  · intro hit
    have bounds := matching_open_bounds hit
    simp only [matchingOpen, Option.bind_eq_bind, Option.bind_eq_some_iff] at hit
    obtain ⟨b, ⟨kind, seen, pair⟩, opens⟩ := hit
    have reach : floor + (close - floor) = close := by omega
    obtain ⟨_, _, level, above⟩ := (open_from_iff Nat.one_pos).1 opens
    rw [reach] at level above
    have falls : ts.height b (close + 1) = ts.height b close - 1 :=
      height_closer (has_kind_iff.2 (Bracket.closer_of pair ▸ seen))
    refine ⟨bounds.1, b, bounds.2, by omega, fun j after before => ?_⟩
    have higher := above j after before
    omega
  · rintro ⟨above, b, pair⟩
    have falls := height_closer (has_kind_iff.2 pair.closes)
    have ordered := pair.ordered
    have level := pair.level
    have reach : floor + (close - floor) = close := by omega
    rw [matchingOpen, pair.closes, Option.bind_some, b.of_closer]
    refine (open_from_iff Nat.one_pos).2 ⟨above, by omega, ?_, fun j after before => ?_⟩
    · rw [reach]
      omega
    · rw [reach] at before ⊢
      have higher := pair.inside j after before
      omega

/-! ## The counters -/

/-- A search through these positions with a counter that goes up and down at some of them. It ends where
the counter comes down to zero, and fails where it would have to go below. -/
def countedSearch (up down : Nat → Bool) (depth : Nat) : List Nat → Option (Option Nat)
  | [] => some none
  | i :: rest =>
    if up i then countedSearch up down (depth + 1) rest
    else if down i then
      if depth = 0 then none
      else if depth = 1 then some (some i)
      else countedSearch up down (depth - 1) rest
    else countedSearch up down depth rest

/-- Above zero there is something to count down. -/
theorem counted_search_cons {up down : Nat → Bool} (above : 0 < depth) (i : Nat) (rest : List Nat) :
    countedSearch up down depth (i :: rest) =
      if up i then countedSearch up down (depth + 1) rest
      else if down i then
        if depth ≤ 1 then some (some i) else countedSearch up down (depth - 1) rest
      else countedSearch up down depth rest := by
  have one : depth = 1 ↔ depth ≤ 1 := by omega
  rw [countedSearch, if_neg (Nat.ne_of_gt above)]
  simp only [one]

theorem close_from_counted (above : 0 < depth) :
    countedSearch (ts.hasKind · b.opener) (ts.hasKind · b.closer) depth (List.range' i count) =
      some (ts.closeFrom b depth i count) := by
  induction count generalizing depth i with
  | zero => rfl
  | succ count ih =>
    rw [List.range'_succ, counted_search_cons above, closeFrom, ih (Nat.succ_pos depth), ih above]
    split
    · rfl
    · split
      · split
        · rfl
        · exact ih (by omega)
      · rfl

theorem open_from_counted (above : 0 < depth) :
    countedSearch (ts.hasKind · b.closer) (ts.hasKind · b.opener) depth (List.range' floor count).reverse =
      some (ts.openFrom b depth floor count) := by
  induction count generalizing depth with
  | zero => rfl
  | succ count ih =>
    rw [List.range'_1_concat, List.reverse_concat, counted_search_cons above, openFrom,
      ih (Nat.succ_pos depth), ih above]
    split
    · rfl
    · split
      · split
        · rfl
        · exact ih (by omega)
      · rfl

/-- Counted from the opening bracket on, the search forwards never fails. -/
theorem matching_close_counted (opens : ts.kind? opening = some b.opener) (limit : Nat) :
    countedSearch (ts.hasKind · b.opener) (ts.hasKind · b.closer) 0
        (Position.range opening (min limit ts.size)) = some (ts.matchingClose opening limit) := by
  rw [matchingClose, opens, Option.bind_some, b.of_opener, Position.range]
  show _ = some (ts.closeFrom b 1 (opening + 1) (min limit ts.size - (opening + 1)))
  rw [← Nat.sub_sub]
  cases min limit ts.size - opening with
  | zero => rfl
  | succ count =>
    rw [List.range'_succ, countedSearch, if_pos (has_kind_iff.2 opens), Nat.add_sub_cancel,
      close_from_counted Nat.one_pos]

/-- Counted from the closing bracket on, neither does the search backwards. -/
theorem matching_open_counted (closes : ts.kind? close = some b.closer) (floor : Nat) :
    countedSearch (ts.hasKind · b.closer) (ts.hasKind · b.opener) 0
        (Position.range floor (close + 1)).reverse = some (ts.matchingOpen close floor) := by
  rw [matchingOpen, closes, Option.bind_some, b.of_closer, Position.range]
  show _ = some (ts.openFrom b 1 floor (close - floor))
  by_cases below : close < floor
  · rw [show close + 1 - floor = 0 by omega, show close - floor = 0 by omega]
    rfl
  · have here : floor + (close - floor) = close := by omega
    rw [show close + 1 - floor = close - floor + 1 by omega, List.range'_1_concat, List.reverse_concat, here,
      countedSearch, if_pos (has_kind_iff.2 closes), open_from_counted Nat.one_pos]

/-- The two searches for a partner are inverse to each other, whatever the tokens are and however far
the searches may go, as long as they may reach the partner. Their counters never go below zero, and two
pairs of the same kind are nested or disjoint. -/
theorem brackets_pair_up (ts : TokenSeq) :
    (∀ opening close limit, ts.matchingClose opening limit = some close →
      (∀ floor ≤ opening, ts.matchingOpen close floor = some opening) ∧
        ∀ limit' > close, ts.matchingClose opening limit' = some close) ∧
    (∀ opening close floor, ts.matchingOpen close floor = some opening →
      ∀ limit > close, ts.matchingClose opening limit = some close) ∧
    (∀ b opening limit, ts.kind? opening = some (Bracket.opener b) →
      countedSearch (ts.hasKind · b.opener) (ts.hasKind · b.closer) 0
        (Position.range opening (min limit ts.size)) = some (ts.matchingClose opening limit)) ∧
    (∀ b close floor, ts.kind? close = some (Bracket.closer b) →
      countedSearch (ts.hasKind · b.closer) (ts.hasKind · b.opener) 0
        (Position.range floor (close + 1)).reverse = some (ts.matchingOpen close floor)) ∧
    (∀ opening close limit opening' close' limit', ts.matchingClose opening limit = some close →
      ts.matchingClose opening' limit' = some close' → ts.kind? opening = ts.kind? opening' →
        NestedOrDisjoint opening close opening' close') := by
  refine ⟨fun opening close limit hit => ?_, fun opening close floor hit limit below => ?_,
    fun b opening limit opens => matching_close_counted opens limit,
    fun b close floor closes => matching_open_counted closes floor, ?_⟩
  · obtain ⟨_, pair⟩ := matching_close_iff.1 hit
    exact ⟨fun floor above => matching_open_iff.2 ⟨above, pair⟩,
      fun limit' below => matching_close_iff.2 ⟨below, pair⟩⟩
  · obtain ⟨_, pair⟩ := matching_open_iff.1 hit
    exact matching_close_iff.2 ⟨below, pair⟩
  · intro opening close limit opening' close' limit' hit hit' same
    obtain ⟨_, b, pair⟩ := matching_close_iff.1 hit
    obtain ⟨_, b', pair'⟩ := matching_close_iff.1 hit'
    obtain rfl : b = b' := by
      have kinds := Option.some.inj (pair.opens.symm.trans (same.trans pair'.opens))
      cases b <;> cases b' <;> first | rfl | cases kinds
    exact pair.nested_or_disjoint pair'

end TokenSeq

end AllocGuard
