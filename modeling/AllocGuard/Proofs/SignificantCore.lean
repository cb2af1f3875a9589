import AllocGuard.Proofs.BracketMatching

/-! The core of a range of tokens: the tokens that carry meaning, one behind the other, each
written in a way that depends on its spelling alone. A position has a rank, the number of
tokens of the range that carry meaning in front of it, and that is its position in the core.
A search that passes over white space and comments finds the same token in the core. So what
such searches find depends on the kinds and the spellings of the tokens that carry meaning:
not on white space or comments, and not on anything outside the range. -/
namespace AllocGuard

/-! ## Writing out a spelling -/

/-- A text that stands for these logical characters. A joined line end goes in front of each
of them, so that they make up no trigraph and join no lines. -/
def writtenOut (chars : List Char) : List Char :=
  chars.flatMap fun c => ['\\', '\n', c]

theorem replace_written_out (chars : List Char) :
    Glyph.replaceTrigraphs (writtenOut chars) =
      chars.flatMap fun c => [⟨'\\', ['\\']⟩, ⟨'\n', ['\n']⟩, ⟨c, [c]⟩] := by
  induction chars with
  | nil => rfl
  | cons c rest ih =>
    have last : Glyph.replaceTrigraphs (c :: writtenOut rest) =
        ⟨c, [c]⟩ :: Glyph.replaceTrigraphs (writtenOut rest) := by
      cases rest with
      | nil => simp [writtenOut, Glyph.replaceTrigraphs]
      | cons d rest => simp [writtenOut, Glyph.replaceTrigraphs]
    have front : Glyph.replaceTrigraphs (writtenOut (c :: rest)) =
        ⟨'\\', ['\\']⟩ :: ⟨'\n', ['\n']⟩ :: Glyph.replaceTrigraphs (c :: writtenOut rest) := by
      simp [writtenOut, Glyph.replaceTrigraphs]
    rw [front, last, ih]
    rfl

theorem join_written_out (chars held : List Char) :
    (Glyph.joinLines held (chars.flatMap fun c => [⟨'\\', ['\\']⟩, ⟨'\n', ['\n']⟩, ⟨c, [c]⟩])).1.map
      Glyph.char = chars := by
  induction chars generalizing held with
  | nil => simp [Glyph.joinLines]
  | cons c rest ih =>
    cases rest with
    | nil => simp [Glyph.joinLines]
    | cons d rest =>
      have later := ih []
      simp only [List.flatMap_cons, List.cons_append, List.nil_append] at later ⊢
      simp [Glyph.joinLines] at later ⊢
      exact later

theorem logical_written_out (chars : List Char) : logicalChars (writtenOut chars) = chars := by
  rw [logicalChars, glyphs, replace_written_out, join_written_out]

namespace TokenSeq

variable {ts : TokenSeq} {a i count j : Nat}

/-! ## Ranks -/

/-- How many of the `count` tokens from `i` on carry meaning. -/
def weight (ts : TokenSeq) (i count : Nat) : Nat :=
  ((List.range' i count).filter ts.isSignificant).length

/-- How many tokens from `a` on carry meaning and stand in front of `i`. -/
def rank (ts : TokenSeq) (a i : Nat) : Nat :=
  ts.weight a (i - a)

@[simp] theorem weight_zero (ts : TokenSeq) (i : Nat) : ts.weight i 0 = 0 := rfl

theorem weight_meaning (carries : ts.isSignificant i = true) (count : Nat) :
    ts.weight i (count + 1) = ts.weight (i + 1) count + 1 := by
  rw [weight, List.range'_succ, List.filter_cons_of_pos carries, List.length_cons, weight]

theorem weight_blank (blank : ts.isSignificant i = false) (count : Nat) :
    ts.weight i (count + 1) = ts.weight (i + 1) count := by
  rw [weight, List.range'_succ, List.filter_cons_of_neg (by simp [blank]), weight]

theorem weight_add (ts : TokenSeq) (i count more : Nat) :
    ts.weight i (count + more) = ts.weight i count + ts.weight (i + count) more := by
  rw [weight, ← List.range'_append_1, List.filter_append, List.length_append, weight, weight]

theorem weight_last_meaning (carries : ts.isSignificant (i + count) = true) :
    ts.weight i (count + 1) = ts.weight i count + 1 := by
  rw [weight_add, weight_meaning carries, weight_zero]

theorem weight_last_blank (blank : ts.isSignificant (i + count) = false) :
    ts.weight i (count + 1) = ts.weight i count := by
  rw [weight_add, weight_blank blank, weight_zero, Nat.add_zero]

theorem rank_add (ts : TokenSeq) (above : a ≤ i) (count : Nat) :
    ts.rank a (i + count) = ts.rank a i + ts.weight i count := by
  obtain ⟨front, rfl⟩ := Nat.exists_eq_add_of_le above
  rw [rank, rank, Nat.add_sub_cancel_left, Nat.add_assoc, Nat.add_sub_cancel_left, weight_add]

theorem rank_split (ts : TokenSeq) (above : a ≤ i) (ordered : i ≤ j) :
    ts.rank a j = ts.rank a i + ts.weight i (j - i) := by
  obtain ⟨count, rfl⟩ := Nat.exists_eq_add_of_le ordered
  rw [rank_add ts above, Nat.add_sub_cancel_left]

theorem rank_mono (ts : TokenSeq) (a : Nat) (ordered : i ≤ j) : ts.rank a i ≤ ts.rank a j := by
  by_cases above : a ≤ i
  · rw [ts.rank_split above ordered]
    exact Nat.le_add_right _ _
  · have none : i - a = 0 := by omega
    rw [rank, none, weight_zero]
    exact Nat.zero_le _

theorem rank_meaning (above : a ≤ i) (carries : ts.isSignificant i = true) : ts.rank a (i + 1) = ts.rank a i + 1 := by
  rw [rank_add ts above, weight_meaning carries, weight_zero]

theorem rank_blank (above : a ≤ i) (blank : ts.isSignificant i = false) : ts.rank a (i + 1) = ts.rank a i := by
  rw [rank_add ts above, weight_blank blank, weight_zero, Nat.add_zero]

theorem rank_lt (above : a ≤ i) (carries : ts.isSignificant i = true) (before : i < j) :
    ts.rank a i < ts.rank a j := by
  have next := ts.rank_mono a before
  rw [Nat.succ_eq_add_one, rank_meaning above carries] at next
  omega

theorem rank_lt_iff (above : a ≤ i) (carries : ts.isSignificant i = true) : ts.rank a i < ts.rank a j ↔ i < j := by
  constructor
  · intro before
    by_cases behind : j ≤ i
    · have below := ts.rank_mono a behind
      omega
    · omega
  · exact rank_lt above carries

/-- Tokens that carry meaning have ranks of their own. -/
theorem rank_injective (above : a ≤ i) (above' : a ≤ j) (carries : ts.isSignificant i = true)
    (carries' : ts.isSignificant j = true) (same : ts.rank a i = ts.rank a j) : i = j := by
  have notBefore := mt (rank_lt (j := j) above carries)
  have notBehind := mt (rank_lt (j := i) above' carries')
  omega

/-! ## The core -/

/-- The end of the sequence is no bound of its own: there is nothing behind it that carries
meaning. -/
theorem significant_eq (ts : TokenSeq) (start stop : Nat) :
    ts.significant start stop = (List.range' start (stop - start)).filter ts.isSignificant := by
  by_cases inside : stop ≤ ts.size
  · rw [significant, Position.range, Nat.min_eq_left inside]
  · have count : stop - start =
        (min stop ts.size - start) + (stop - start - (min stop ts.size - start)) := by omega
    rw [significant, Position.range, count, ← List.range'_append_1, List.filter_append]
    have none : (List.range' (start + (min stop ts.size - start))
        (stop - start - (min stop ts.size - start))).filter ts.isSignificant = [] := by
      refine List.filter_eq_nil_iff.2 fun q member carries => ?_
      have place := List.mem_range'_1.1 member
      have bound := lt_size_of_significant carries
      omega
    rw [none, List.append_nil]

theorem rank_length (ts : TokenSeq) (a i : Nat) : ts.rank a i = (ts.significant a i).length := by
  rw [significant_eq]
  rfl

/-- The token at `i`, written out from its spelling. -/
def coreToken (ts : TokenSeq) (i : Nat) : Token :=
  ⟨(ts.kind? i).getD .unknown, 0, writtenOut (ts.spelling i).toList⟩

/-- The tokens of `[a, b)` that carry meaning, without anything in between. -/
def core (ts : TokenSeq) (a b : Nat) : TokenSeq :=
  ⟨((ts.significant a b).map ts.coreToken).toArray⟩

/-- The tokens of `[a, b)` that carry meaning, in order: what each of them is and how it is
spelled. -/
def meaningIn (ts : TokenSeq) (a b : Nat) : List (TokenKind × String) :=
  (ts.significant a b).map fun i => ((ts.kind? i).getD .unknown, ts.spelling i)

/-- The core of a range is made from its meaning. -/
theorem core_of_meaning_in {ts' : TokenSeq} {b a' b' : Nat} (same : ts.meaningIn a b = ts'.meaningIn a' b') :
    ts.core a b = ts'.core a' b' := by
  have tokens := congrArg (List.map fun part : TokenKind × String =>
    (⟨part.1, 0, writtenOut part.2.toList⟩ : Token)) same
  rw [meaningIn, meaningIn, List.map_map, List.map_map] at tokens
  exact congrArg (fun tokens : List Token => (⟨tokens.toArray⟩ : TokenSeq)) tokens

/-- The position holds a token of `[a, b)` that carries meaning. -/
structure Stands (ts : TokenSeq) (a b i : Nat) : Prop where
  above : a ≤ i
  below : i < b
  carries : ts.isSignificant i = true

section Core

variable {ts : TokenSeq} {a b : Nat}

theorem core_size (ts : TokenSeq) (a b : Nat) : (ts.core a b).size = ts.rank a b := by
  rw [rank_length, size, core]
  simp

theorem significant_split (stands : ts.Stands a b i) :
    ts.significant a b = ts.significant a i ++ i :: ts.significant (i + 1) b := by
  have count : b - a = (i - a) + ((b - (i + 1)) + 1) := by
    have above := stands.above
    have below := stands.below
    omega
  have middle : a + (i - a) = i := by
    have above := stands.above
    omega
  rw [significant_eq, significant_eq, significant_eq, count, ← List.range'_append_1,
    List.filter_append, middle, List.range'_succ, List.filter_cons_of_pos stands.carries]

theorem core_get (stands : ts.Stands a b i) : (ts.core a b).get? (ts.rank a i) = some (ts.coreToken i) := by
  rw [get?, core, List.getElem?_toArray, List.getElem?_map, significant_split stands, rank_length,
    List.getElem?_append_right (Nat.le_refl _), Nat.sub_self]
  rfl

/-- A token keeps its kind. -/
theorem core_kind (stands : ts.Stands a b i) : (ts.core a b).kind? (ts.rank a i) = ts.kind? i := by
  obtain ⟨kind, seen, _⟩ := kind_is_iff.1 stands.carries
  rw [kind?, core_get stands, Option.map_some, coreToken, seen]
  rfl

/-- A token keeps its spelling. -/
theorem core_spelling (stands : ts.Stands a b i) : (ts.core a b).spelling (ts.rank a i) = ts.spelling i := by
  rw [spelling, core_get stands, Option.map_some, Option.getD_some, Token.spelling, coreToken,
    logical_written_out, String.ofList_toList]

theorem core_kind_is (stands : ts.Stands a b i) (p : TokenKind → Bool) :
    (ts.core a b).kindIs (ts.rank a i) p = ts.kindIs i p := by
  rw [kindIs, core_kind stands, kindIs]

theorem core_has_kind (stands : ts.Stands a b i) (kind : TokenKind) :
    (ts.core a b).hasKind (ts.rank a i) kind = ts.hasKind i kind := by
  rw [hasKind, core_kind stands, hasKind]

theorem core_is_ident (stands : ts.Stands a b i) (name : String) :
    (ts.core a b).isIdent (ts.rank a i) name = ts.isIdent i name := by
  rw [isIdent, core_has_kind stands, core_spelling stands, isIdent]

theorem core_significant (stands : ts.Stands a b i) : (ts.core a b).isSignificant (ts.rank a i) = true := by
  rw [isSignificant, core_kind_is stands]
  exact stands.carries

end Core

/-! ## Searches in the core -/

section Search

variable {ts : TokenSeq} {a b limit floor start stop : Nat}

theorem rank_sub (ts : TokenSeq) (above : a ≤ start) (stop : Nat) :
    ts.rank a stop - ts.rank a start = ts.weight start (stop - start) := by
  by_cases ordered : start ≤ stop
  · rw [ts.rank_split above ordered, Nat.add_sub_cancel_left]
  · have below := ts.rank_mono a (Nat.le_of_not_le ordered)
    have none : stop - start = 0 := by omega
    rw [none, weight_zero]
    omega

theorem rank_min_size (ts : TokenSeq) (a i : Nat) : ts.rank a (min i ts.size) = ts.rank a i := by
  rw [rank_length, rank_length, significant, significant]
  congr 3
  omega

theorem min_core_size (below : limit ≤ b) : min (ts.rank a limit) (ts.core a b).size = ts.rank a limit := by
  rw [core_size]
  exact Nat.min_eq_left (ts.rank_mono a below)

section Test

variable {p q : Nat → Bool}
  (blank : ∀ i, ts.isSignificant i = false → p i = false)
  (agree : ∀ i, ts.Stands a b i → q (ts.rank a i) = p i)

include blank agree

theorem first_rank {start count : Nat} (above : a ≤ start) (below : start + count ≤ b) :
    (Position.first? p start count).map (ts.rank a) =
      Position.first? q (ts.rank a start) (ts.weight start count) := by
  induction count generalizing start with
  | zero => rfl
  | succ count ih =>
    have rest := @ih (start + 1) (by omega) (by omega)
    rw [Position.first?]
    by_cases carries : ts.isSignificant start = true
    · rw [weight_meaning carries, Position.first?, agree start ⟨above, by omega, carries⟩]
      rw [rank_meaning above carries] at rest
      split
      · rfl
      · exact rest
    · have trivia := Bool.eq_false_iff.2 carries
      rw [rank_blank above trivia] at rest
      rw [weight_blank trivia, blank start trivia]
      exact rest

theorem last_rank (above : a ≤ start) (below : start + count ≤ b) :
    (Position.last? p start count).map (ts.rank a) =
      Position.last? q (ts.rank a start) (ts.weight start count) := by
  induction count with
  | zero => rfl
  | succ count ih =>
    have rest := ih (by omega)
    have place : ts.rank a (start + count) = ts.rank a start + ts.weight start count := ts.rank_add above count
    rw [Position.last?]
    by_cases carries : ts.isSignificant (start + count) = true
    · rw [weight_last_meaning carries, Position.last?, ← place, agree (start + count) ⟨by omega, by omega, carries⟩]
      split
      · rfl
      · exact rest
    · have trivia := Bool.eq_false_iff.2 carries
      rw [weight_last_blank trivia, blank _ trivia]
      exact rest

theorem filter_rank {start count : Nat} (above : a ≤ start) (below : start + count ≤ b) :
    ((List.range' start count).filter p).map (ts.rank a) =
      (List.range' (ts.rank a start) (ts.weight start count)).filter q := by
  induction count generalizing start with
  | zero => rfl
  | succ count ih =>
    have rest := @ih (start + 1) (by omega) (by omega)
    rw [List.range'_succ]
    by_cases carries : ts.isSignificant start = true
    · rw [rank_meaning above carries] at rest
      rw [weight_meaning carries, List.range'_succ, List.filter_cons, List.filter_cons,
        agree start ⟨above, by omega, carries⟩]
      split
      · rw [List.map_cons, rest]
      · exact rest
    · have trivia := Bool.eq_false_iff.2 carries
      rw [rank_blank above trivia] at rest
      rw [weight_blank trivia, List.filter_cons, blank start trivia]
      exact rest

/-- A search upwards for a token that carries meaning. -/
theorem first_in_rank {start stop : Nat} (above : a ≤ start) (below : stop ≤ b) :
    (Position.firstIn? p start stop).map (ts.rank a) =
      Position.firstIn? q (ts.rank a start) (ts.rank a stop) := by
  rw [Position.firstIn?, Position.firstIn?, ts.rank_sub above]
  by_cases ordered : start ≤ stop
  · exact first_rank blank agree above (by omega)
  · have none : stop - start = 0 := by omega
    rw [none]
    rfl

/-- A search downwards for a token that carries meaning. -/
theorem last_in_rank {start stop : Nat} (above : a ≤ start) (below : stop ≤ b) :
    (Position.lastIn? p start stop).map (ts.rank a) =
      Position.lastIn? q (ts.rank a start) (ts.rank a stop) := by
  rw [Position.lastIn?, Position.lastIn?, ts.rank_sub above]
  by_cases ordered : start ≤ stop
  · exact last_rank blank agree above (by omega)
  · have none : stop - start = 0 := by omega
    rw [none]
    rfl

/-- The tokens of a range that pass a test. -/
theorem filter_range_rank (above : a ≤ start) (below : stop ≤ b) :
    ((Position.range start stop).filter p).map (ts.rank a) =
      (Position.range (ts.rank a start) (ts.rank a stop)).filter q := by
  rw [Position.range, Position.range, ts.rank_sub above]
  by_cases ordered : start ≤ stop
  · exact filter_rank blank agree above (by omega)
  · have none : stop - start = 0 := by omega
    rw [none]
    rfl

end Test

/-- What is made of the tokens of a range, white space and comments giving nothing. -/
theorem filter_map_range_rank {α β : Type} {f : Nat → Option α} {g : Nat → Option β} {key : α → β} (above : a ≤ start)
    (below : stop ≤ b) (blank : ∀ i, ts.isSignificant i = false → f i = none)
    (agree : ∀ i, start ≤ i → ts.Stands a b i → g (ts.rank a i) = (f i).map key) :
    ((Position.range start stop).filterMap f).map key =
      (Position.range (ts.rank a start) (ts.rank a stop)).filterMap g := by
  have counted (count : Nat) : ∀ i, start ≤ i → i + count ≤ b →
      ((List.range' i count).filterMap f).map key =
        (List.range' (ts.rank a i) (ts.weight i count)).filterMap g := by
    induction count with
    | zero => exact fun _ _ _ => rfl
    | succ count ih =>
      intro i lower upper
      have rest := ih (i + 1) (by omega) (by omega)
      rw [List.range'_succ, List.filterMap_cons]
      by_cases carries : ts.isSignificant i = true
      · rw [rank_meaning (by omega) carries] at rest
        rw [weight_meaning carries, List.range'_succ, List.filterMap_cons,
          agree i lower ⟨by omega, by omega, carries⟩, ← rest]
        cases f i <;> rfl
      · have trivia := Bool.eq_false_iff.2 carries
        rw [rank_blank (by omega) trivia] at rest
        rw [weight_blank trivia, blank i trivia]
        exact rest
  rw [Position.range, Position.range, ts.rank_sub above]
  by_cases ordered : start ≤ stop
  · exact counted (stop - start) start (Nat.le_refl start) (by omega)
  · have none : stop - start = 0 := by omega
    rw [none]
    rfl

theorem next_core {i limit : Nat} (above : a ≤ i) (below : limit ≤ b) :
    (ts.nextSignificant i limit).map (ts.rank a) =
      (ts.core a b).nextSignificant (ts.rank a i) (ts.rank a limit) := by
  have bound : min limit ts.size ≤ b := by omega
  rw [nextSignificant, nextSignificant, min_core_size below, ← ts.rank_min_size a limit]
  refine first_in_rank (fun _ trivia => trivia) (fun i stands => ?_) above bound
  rw [core_significant stands, stands.carries]

theorem prev_core {i floor : Nat} (above : a ≤ floor) (below : i ≤ b) :
    (ts.prevSignificant i floor).map (ts.rank a) =
      (ts.core a b).prevSignificant (ts.rank a i) (ts.rank a floor) := by
  have bound : min i ts.size ≤ b := by omega
  rw [prevSignificant, prevSignificant, min_core_size below, ← ts.rank_min_size a i]
  refine last_in_rank (fun _ trivia => trivia) (fun i stands => ?_) above bound
  rw [core_significant stands, stands.carries]

theorem significant_core (above : a ≤ start) (below : stop ≤ b) :
    (ts.significant start stop).map (ts.rank a) =
      (ts.core a b).significant (ts.rank a start) (ts.rank a stop) := by
  have bound : min stop ts.size ≤ b := by omega
  rw [significant, significant, min_core_size below, ← ts.rank_min_size a stop]
  refine filter_range_rank (fun _ trivia => trivia) (fun i stands => ?_) above bound
  rw [core_significant stands, stands.carries]

theorem next_stands {next : Nat} (above : a ≤ i) (below : limit ≤ b) (hit : ts.nextSignificant i limit = some next) :
    ts.Stands a b next := by
  obtain ⟨lower, upper, carries, _⟩ := next_significant_iff.1 hit
  exact ⟨by omega, by omega, carries⟩

theorem prev_stands {prev : Nat} (above : a ≤ floor) (below : i ≤ b) (hit : ts.prevSignificant i floor = some prev) :
    ts.Stands a b prev := by
  obtain ⟨lower, upper, carries, _⟩ := prev_significant_iff.1 hit
  exact ⟨by omega, by omega, carries⟩

theorem close_from_core (pair : Bracket) {depth i count : Nat} (above : a ≤ i) (below : i + count ≤ b) :
    (ts.closeFrom pair depth i count).map (ts.rank a) =
      (ts.core a b).closeFrom pair depth (ts.rank a i) (ts.weight i count) := by
  induction count generalizing depth i with
  | zero => rfl
  | succ count ih =>
    have rest (depth : Nat) := @ih depth (i + 1) (by omega) (by omega)
    rw [closeFrom]
    by_cases carries : ts.isSignificant i = true
    · have stands : ts.Stands a b i := ⟨above, by omega, carries⟩
      simp only [rank_meaning above carries] at rest
      rw [weight_meaning carries, closeFrom, core_has_kind stands, core_has_kind stands]
      split
      · exact rest _
      · split
        · split
          · rfl
          · exact rest _
        · exact rest _
    · have trivia := Bool.eq_false_iff.2 carries
      simp only [rank_blank above trivia] at rest
      rw [weight_blank trivia, has_kind_blank trivia pair.opener_significant,
        has_kind_blank trivia pair.closer_significant]
      exact rest depth

theorem open_from_core (pair : Bracket) {depth floor count : Nat} (above : a ≤ floor) (below : floor + count ≤ b) :
    (ts.openFrom pair depth floor count).map (ts.rank a) =
      (ts.core a b).openFrom pair depth (ts.rank a floor) (ts.weight floor count) := by
  induction count generalizing depth with
  | zero => rfl
  | succ count ih =>
    have rest (depth : Nat) := @ih depth (by omega)
    have place : ts.rank a (floor + count) = ts.rank a floor + ts.weight floor count := ts.rank_add above count
    rw [openFrom]
    by_cases carries : ts.isSignificant (floor + count) = true
    · have stands : ts.Stands a b (floor + count) := ⟨by omega, by omega, carries⟩
      rw [weight_last_meaning carries, openFrom, ← place, core_has_kind stands, core_has_kind stands]
      split
      · exact rest _
      · split
        · split
          · rfl
          · exact rest _
        · exact rest _
    · have trivia := Bool.eq_false_iff.2 carries
      rw [weight_last_blank trivia, has_kind_blank trivia pair.opener_significant,
        has_kind_blank trivia pair.closer_significant]
      exact rest depth

theorem matching_close_core (stands : ts.Stands a b i) (below : limit ≤ b) :
    (ts.matchingClose i limit).map (ts.rank a) =
      (ts.core a b).matchingClose (ts.rank a i) (ts.rank a limit) := by
  rw [matchingClose, matchingClose, core_kind stands, min_core_size below]
  cases (ts.kind? i).bind Bracket.ofOpener? with
  | none => rfl
  | some pair =>
    have above := stands.above
    have behind : ts.rank a (i + 1) = ts.rank a i + 1 := rank_meaning above stands.carries
    rw [Option.bind_eq_bind, Option.bind_some, Option.bind_some, ← behind,
      ← ts.rank_min_size a limit, ts.rank_sub (by omega)]
    by_cases room : i + 1 ≤ min limit ts.size
    · exact close_from_core pair (by omega) (by omega)
    · have none : min limit ts.size - (i + 1) = 0 := by omega
      rw [none]
      rfl

theorem matching_open_core (stands : ts.Stands a b i) (above : a ≤ floor) :
    (ts.matchingOpen i floor).map (ts.rank a) =
      (ts.core a b).matchingOpen (ts.rank a i) (ts.rank a floor) := by
  rw [matchingOpen, matchingOpen, core_kind stands]
  cases (ts.kind? i).bind Bracket.ofCloser? with
  | none => rfl
  | some pair =>
    have below := stands.below
    rw [Option.bind_eq_bind, Option.bind_some, Option.bind_some, ts.rank_sub above]
    by_cases room : floor ≤ i
    · exact open_from_core pair above (by omega)
    · have none : i - floor = 0 := by omega
      rw [none]
      rfl

theorem close_stands {close : Nat} (above : a ≤ i) (below : limit ≤ b) (hit : ts.matchingClose i limit = some close) :
    ts.Stands a b close := by
  have bounds := matching_close_bounds hit
  exact ⟨by omega, by omega, matching_close_significant hit⟩

theorem open_stands {opening : Nat} (above : a ≤ floor) (below : i ≤ b) (hit : ts.matchingOpen i floor = some opening) :
    ts.Stands a b opening := by
  have bounds := matching_open_bounds hit
  exact ⟨by omega, by omega, matching_open_significant hit⟩

end Search

end TokenSeq

end AllocGuard
