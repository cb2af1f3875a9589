import AllocGuard.Proofs.Significance

/-! Brackets and their partners. The search for a partner counts the brackets of one pair
and passes over everything else. Where the tokens of a group are balanced, one pair inside
the other, it ends at the bracket that closes the group. -/
namespace AllocGuard

namespace Bracket

theorem opener_is_opener (b : Bracket) : b.opener.isOpener = true := by
  cases b <;> rfl

theorem closer_is_closer (b : Bracket) : b.closer.isCloser = true := by
  cases b <;> rfl

theorem closer_not_opener (b : Bracket) : b.closer.isOpener = false := by
  cases b <;> rfl

theorem opener_beq (b b' : Bracket) : (b'.opener == b.opener) = (b' == b) := by
  cases b <;> cases b' <;> rfl

theorem closer_beq (b b' : Bracket) : (b'.closer == b.closer) = (b' == b) := by
  cases b <;> cases b' <;> rfl

theorem opener_beq_closer (b b' : Bracket) : (b'.opener == b.closer) = false := by
  cases b <;> cases b' <;> rfl

theorem closer_beq_opener (b b' : Bracket) : (b'.closer == b.opener) = false := by
  cases b <;> cases b' <;> rfl

theorem beq_opener_of_other (b : Bracket) {kind : TokenKind} (other : kind.isOpener = false) :
    (kind == b.opener) = false := by
  refine beq_eq_false_iff_ne.2 ?_
  rintro rfl
  rw [b.opener_is_opener] at other
  cases other

theorem beq_closer_of_other (b : Bracket) {kind : TokenKind} (other : kind.isCloser = false) :
    (kind == b.closer) = false := by
  refine beq_eq_false_iff_ne.2 ?_
  rintro rfl
  rw [b.closer_is_closer] at other
  cases other

theorem opener_significant (b : Bracket) : b.opener.isTrivia = false := by
  cases b <;> rfl

theorem closer_significant (b : Bracket) : b.closer.isTrivia = false := by
  cases b <;> rfl

end Bracket

namespace TokenSeq

variable {ts : TokenSeq} {b : Bracket} {i depth limit floor start next close count : Nat} {kind : TokenKind}
  {tokens more rest : List Nat}

theorem kind_is_of_kind (seen : ts.kind? i = some kind) (p : TokenKind → Bool) : ts.kindIs i p = p kind := by
  rw [kindIs, seen, Option.any_some]

theorem has_kind_of_kind (seen : ts.kind? i = some kind) (other : TokenKind) :
    ts.hasKind i other = (kind == other) := by
  rw [hasKind, seen]
  rfl

theorem trivia_kind (inside : i < ts.size) (blank : ts.isSignificant i = false) :
    ts.kind? i = some .space ∨ ts.kind? i = some .comment := by
  have there : ts.tokens[i]? = some ts.tokens[i] := Array.getElem?_eq_getElem inside
  have seen : ts.kind? i = some ts.tokens[i].kind := by simp [kind?, get?, there]
  rw [isSignificant, kind_is_of_kind seen] at blank
  rw [seen]
  generalize ts.tokens[i].kind = kind at blank
  cases kind with
  | space => exact .inl rfl
  | comment => exact .inr rfl
  | _ => cases blank

/-- Tokens among which every bracket has its partner, one pair inside the other. -/
inductive Balanced (ts : TokenSeq) : List Nat → Prop where
  | nil : Balanced ts []
  | token {i : Nat} {rest : List Nat} {kind : TokenKind} (seen : ts.kind? i = some kind)
      (opener : kind.isOpener = false) (closer : kind.isCloser = false)
      (behind : Balanced ts rest) : Balanced ts (i :: rest)
  | group {b : Bracket} {opening close : Nat} {inner rest : List Nat}
      (opens : ts.kind? opening = some b.opener) (closes : ts.kind? close = some b.closer)
      (within : Balanced ts inner) (behind : Balanced ts rest) :
      Balanced ts (opening :: (inner ++ close :: rest))

/-- The closing bracket of the pair `b` that ends a group, among these positions,
`depth` groups being open. -/
def closeIn (ts : TokenSeq) (b : Bracket) (depth : Nat) : List Nat → Option Nat
  | [] => none
  | i :: rest =>
    if ts.hasKind i b.opener then ts.closeIn b (depth + 1) rest
    else if ts.hasKind i b.closer then
      if depth ≤ 1 then some i else ts.closeIn b (depth - 1) rest
    else ts.closeIn b depth rest

/-- White space and comments between brackets do not count. -/
theorem close_from_eq (ts : TokenSeq) (b : Bracket) (depth i count : Nat) :
    ts.closeFrom b depth i count =
      ts.closeIn b depth ((List.range' i count).filter ts.isSignificant) := by
  induction count generalizing depth i with
  | zero => rfl
  | succ count ih =>
    rw [List.range'_succ, closeFrom]
    by_cases carries : ts.isSignificant i = true
    · rw [List.filter_cons_of_pos carries, closeIn]
      simp only [ih]
    · have opener : ts.hasKind i b.opener ≠ true := fun seen =>
        carries (significant_of_kind (has_kind_iff.1 seen) b.opener_significant)
      have closer : ts.hasKind i b.closer ≠ true := fun seen =>
        carries (significant_of_kind (has_kind_iff.1 seen) b.closer_significant)
      rw [List.filter_cons_of_neg carries, if_neg opener, if_neg closer, ih]

theorem close_in_other (seen : ts.kind? i = some kind) (opener : (kind == b.opener) = false)
    (closer : (kind == b.closer) = false) : ts.closeIn b depth (i :: rest) = ts.closeIn b depth rest := by
  rw [closeIn, has_kind_of_kind seen, has_kind_of_kind seen, opener, closer]
  rfl

theorem close_in_closer (closes : ts.kind? i = some b.closer) :
    ts.closeIn b depth (i :: rest) = if depth ≤ 1 then some i else ts.closeIn b (depth - 1) rest := by
  rw [closeIn, has_kind_of_kind closes, has_kind_of_kind closes, b.closer_beq_opener, beq_self_eq_true]
  rfl

/-- Balanced tokens leave the depth as it is. -/
theorem close_in_balanced (balanced : ts.Balanced tokens) (inside : 0 < depth) :
    ts.closeIn b depth (tokens ++ more) = ts.closeIn b depth more := by
  induction balanced generalizing depth more with
  | nil => rfl
  | @token i rest kind seen opener closer _ ih =>
    rw [List.cons_append, close_in_other seen (b.beq_opener_of_other opener) (b.beq_closer_of_other closer),
      ih inside]
  | @group b' opening close inner rest opens closes _ _ within behind =>
    have whole : (opening :: (inner ++ close :: rest)) ++ more =
        opening :: (inner ++ (close :: (rest ++ more))) := by
      simp
    rw [whole]
    by_cases same : b' = b
    · subst same
      rw [closeIn, has_kind_of_kind opens, beq_self_eq_true, if_pos rfl, within (by omega),
        close_in_closer closes, if_neg (by omega), Nat.add_sub_cancel, behind inside]
    · have differs : (b' == b) = false := beq_eq_false_iff_ne.2 same
      rw [close_in_other opens (by rw [b.opener_beq, differs]) (b.opener_beq_closer b'), within inside,
        close_in_other closes (b.closer_beq_opener b') (by rw [b.closer_beq, differs]), behind inside]

/-- A group that holds balanced tokens ends at the bracket behind them. -/
theorem close_in_group (balanced : ts.Balanced tokens) (closes : ts.kind? close = some b.closer) :
    ts.closeIn b 1 (tokens ++ close :: more) = some close := by
  rw [close_in_balanced balanced Nat.one_pos, close_in_closer closes, if_pos (Nat.le_refl 1)]

/-- Whether these tokens close the `depth` brackets of the pair that are open in front of
them, every bracket of the pair that they open themselves, and no other. Brackets of the
other two pairs do not count. -/
def isLevel (ts : TokenSeq) (b : Bracket) : Nat → List Nat → Bool
  | depth, [] => depth == 0
  | depth, i :: rest =>
    if ts.hasKind i b.opener then ts.isLevel b (depth + 1) rest
    else if ts.hasKind i b.closer then 0 < depth && ts.isLevel b (depth - 1) rest
    else ts.isLevel b depth rest

/-- What stands in front of the partner of a bracket is level for that pair. -/
theorem close_in_found (hit : ts.closeIn b (depth + 1) tokens = some close) :
    ∃ content more, tokens = content ++ close :: more ∧ ts.isLevel b depth content = true ∧
      ts.kind? close = some b.closer := by
  induction tokens generalizing depth with
  | nil => cases hit
  | cons i rest ih =>
    rw [closeIn] at hit
    split at hit
    · rename_i opens
      obtain ⟨content, more, rfl, level, closes⟩ := ih hit
      exact ⟨i :: content, more, rfl, by rw [isLevel, if_pos opens, level], closes⟩
    · rename_i notOpener
      split at hit
      · rename_i closer
        split at hit
        · rename_i last
          cases hit
          have ends : depth = 0 := by omega
          exact ⟨[], rest, rfl, by simp [isLevel, ends], has_kind_iff.1 closer⟩
        · -- one of the open brackets closes here, and the search goes on one level up
          cases depth with
          | zero => omega
          | succ depth =>
            obtain ⟨content, more, rfl, level, closes⟩ := ih hit
            refine ⟨i :: content, more, rfl, ?_, closes⟩
            rw [isLevel, if_neg notOpener, if_pos closer, Nat.add_sub_cancel, level]
            simp
      · rename_i notCloser
        obtain ⟨content, more, rfl, level, closes⟩ := ih hit
        exact ⟨i :: content, more, rfl, by rw [isLevel, if_neg notOpener, if_neg notCloser, level], closes⟩

/-- A partner that is found is a closing bracket of the pair. -/
theorem close_from_kind (hit : ts.closeFrom b depth i count = some close) : ts.kind? close = some b.closer := by
  induction count generalizing depth i with
  | zero => simp [closeFrom] at hit
  | succ count ih =>
    rw [closeFrom] at hit
    split at hit
    · exact ih hit
    · split at hit
      · rename_i closer
        split at hit
        · cases hit
          exact has_kind_iff.1 closer
        · exact ih hit
      · exact ih hit

theorem open_from_kind (hit : ts.openFrom b depth floor count = some start) : ts.kind? start = some b.opener := by
  induction count generalizing depth with
  | zero => simp [openFrom] at hit
  | succ count ih =>
    rw [openFrom] at hit
    split at hit
    · exact ih hit
    · split at hit
      · rename_i opener
        split at hit
        · cases hit
          exact has_kind_iff.1 opener
        · exact ih hit
      · exact ih hit

theorem matching_close_significant (hit : ts.matchingClose i limit = some close) : ts.isSignificant close = true := by
  simp only [matchingClose, Option.bind_eq_bind, Option.bind_eq_some_iff] at hit
  obtain ⟨b, _, closes⟩ := hit
  exact significant_of_kind (close_from_kind closes) b.closer_significant

theorem matching_open_significant {opening : Nat} (hit : ts.matchingOpen i floor = some opening) :
    ts.isSignificant opening = true := by
  simp only [matchingOpen, Option.bind_eq_bind, Option.bind_eq_some_iff] at hit
  obtain ⟨b, _, opens⟩ := hit
  exact significant_of_kind (open_from_kind opens) b.opener_significant

theorem matching_close_eq {ts : TokenSeq} {b : Bracket} {i : Nat} (opens : ts.kind? i = some b.opener)
    (limit : Nat) : ts.matchingClose i limit = ts.closeIn b 1 (ts.significant (i + 1) limit) := by
  have pair : Bracket.ofOpener? b.opener = some b := by
    cases b <;> rfl
  rw [matchingClose, opens, Option.bind_some, pair, significant, Position.range, ← close_from_eq]
  rfl

private theorem filter_range_after {p : Nat → Bool} {front back : List Nat}
    (split : (List.range' start count).filter p = front ++ i :: back) :
    (List.range' (i + 1) (start + count - (i + 1))).filter p = back := by
  induction count generalizing start front with
  | zero => simp at split
  | succ count ih =>
    have shift : start + (count + 1) = start + 1 + count := by omega
    rw [List.range'_succ] at split
    by_cases passes : p start = true
    · rw [List.filter_cons_of_pos passes] at split
      cases front with
      | nil =>
        obtain ⟨rfl, rest⟩ := List.cons.inj split
        rw [shift, Nat.add_sub_cancel_left, rest]
      | cons first front =>
        obtain ⟨_, rest⟩ := List.cons.inj split
        rw [shift, ih rest]
    · rw [List.filter_cons_of_neg passes] at split
      rw [shift, ih split]

/-- The next token that carries meaning is the first one of those that do. -/
theorem next_significant_head {first : Nat} (hit : ts.nextSignificant i limit = some next)
    (all : ts.significant i limit = first :: rest) : next = first := by
  obtain ⟨lower, upper, carries, least⟩ := next_significant_iff.1 hit
  have sorted : (ts.significant i limit).Pairwise (· < ·) := List.Pairwise.filter _ List.pairwise_lt_range'
  have inside := lt_size_of_significant carries
  have listed : next ∈ ts.significant i limit := List.mem_filter.2 ⟨Position.mem_range.2 ⟨lower, by omega⟩, carries⟩
  have head : first ∈ ts.significant i limit := by simp [all]
  obtain ⟨place, meaning⟩ := List.mem_filter.1 head
  rw [all] at sorted listed
  rcases List.mem_cons.1 listed with same | behind
  · exact same
  · have before := (List.pairwise_cons.1 sorted).1 next behind
    rw [least first (Position.mem_range.1 place).1 before] at meaning
    cases meaning

/-- The next token that carries meaning heads those that do. -/
theorem next_significant_cons :
    ts.nextSignificant i limit = some next ↔ ∃ rest, ts.significant i limit = next :: rest := by
  constructor
  · intro follows
    obtain ⟨lower, upper, carries, _⟩ := next_significant_iff.1 follows
    have inside := lt_size_of_significant carries
    have listed : next ∈ ts.significant i limit := List.mem_filter.2 ⟨Position.mem_range.2 ⟨lower, by omega⟩, carries⟩
    obtain ⟨first, rest, shown⟩ := List.exists_cons_of_ne_nil (List.ne_nil_of_mem listed)
    rw [next_significant_head follows shown]
    exact ⟨rest, shown⟩
  · rintro ⟨rest, shown⟩
    have listed : next ∈ ts.significant i limit := by simp [shown]
    obtain ⟨place, carries⟩ := List.mem_filter.1 listed
    rw [Position.mem_range] at place
    cases follows : ts.nextSignificant i limit with
    | none =>
      rw [next_significant_none follows place.1 (by omega)] at carries
      cases carries
    | some first => rw [next_significant_head follows shown]

theorem significant_limit (ts : TokenSeq) (i limit : Nat) :
    ts.significant i (min limit ts.size) = ts.significant i limit := by
  rw [significant, significant, Nat.min_assoc, Nat.min_self]

theorem significant_nodup (ts : TokenSeq) (start limit : Nat) : (ts.significant start limit).Nodup :=
  List.Pairwise.filter _ (List.nodup_range' 1)

/-- What carries meaning behind a token is what follows it in the list. -/
theorem significant_after {ts : TokenSeq} {start limit i : Nat} {front back : List Nat}
    (split : ts.significant start limit = front ++ i :: back) : ts.significant (i + 1) limit = back := by
  have there : i ∈ ts.significant start limit := by simp [split]
  have bounds := Position.mem_range.1 (List.mem_filter.1 there).1
  rw [← filter_range_after split]
  simp only [significant, Position.range]
  congr 2
  omega

end TokenSeq

end AllocGuard
