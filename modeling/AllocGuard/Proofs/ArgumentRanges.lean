import AllocGuard.Proofs.BracketMatching
import AllocGuard.Site.Lvalue

/-! The arguments of a call, cut at the commas outside all brackets. One counter serves the three pairs
of brackets. Over tokens whose brackets are nested it comes back to where it was, so cutting takes apart
what was joined with commas: as many arguments come out as went in, each with its own tokens. Over other
tokens the counter may go anywhere. Even then the ranges follow one another up to the closing
parenthesis, and nothing but one comma stands between two of them. -/
namespace AllocGuard

/-- Tokens among which every bracket has its partner, one pair inside the other. The flag tells
whether commas may stand outside all brackets. -/
inductive Nested : Bool → List Token → Prop where
  | nil {commas : Bool} : Nested commas []
  | token {commas : Bool} {t : Token} {rest : List Token} (opener : t.kind.isOpener = false)
      (closer : t.kind.isCloser = false) (comma : t.kind = .comma → commas = true)
      (behind : Nested commas rest) : Nested commas (t :: rest)
  | group {commas : Bool} {b : Bracket} {opening close : Token} {inner rest : List Token}
      (opens : opening.kind = b.opener) (closes : close.kind = b.closer) (within : Nested true inner)
      (behind : Nested commas rest) : Nested commas (opening :: (inner ++ close :: rest))

/-- Token sequences, at least one, put together with a comma between each two of them. -/
inductive CommaJoined : List (List Token) → List Token → Prop where
  | last (piece : List Token) : CommaJoined [piece] piece
  | more {comma : Token} {piece joined : List Token} {pieces : List (List Token)}
      (separates : comma.kind = .comma) (behind : CommaJoined pieces joined) :
      CommaJoined (piece :: pieces) (piece ++ comma :: joined)

/-- The ranges of token sequences that stand one behind the other, with one token between each two of
them. The first one starts at `start`. -/
def laidOut (start : Nat) : List (List Token) → List (Nat × Nat)
  | [] => []
  | piece :: rest => (start, start + piece.length) :: laidOut (start + piece.length + 1) rest

namespace TokenSeq

variable {ts : TokenSeq} {arguments : List (List Token)} {stop start : Nat} {joined tokens behind : List Token}
  {ranges : List (Nat × Nat)} {depth : Int}

/-! ## Any tokens -/

/-- The ranges follow one another from `start` to `stop`, with one comma between each two of them. -/
inductive CommaTiled (ts : TokenSeq) (stop : Nat) : Nat → List (Nat × Nat) → Prop where
  | last {start : Nat} (ordered : start ≤ stop) : CommaTiled ts stop start [(start, stop)]
  | more {start comma : Nat} {rest : List (Nat × Nat)} (ordered : start ≤ comma)
      (separates : ts.kind? comma = some .comma) (behind : CommaTiled ts stop (comma + 1) rest) :
      CommaTiled ts stop start ((start, comma) :: rest)

theorem CommaTiled.start_le (tiled : ts.CommaTiled stop start ranges) : start ≤ stop := by
  induction tiled with
  | last ordered => exact ordered
  | more ordered _ _ ih => omega

theorem CommaTiled.bounds (tiled : ts.CommaTiled stop start ranges) :
    ∀ range ∈ ranges, start ≤ range.1 ∧ range.2 ≤ stop := by
  induction tiled with
  | last _ => exact List.forall_mem_singleton.2 ⟨Nat.le_refl _, Nat.le_refl _⟩
  | @more start comma rest ordered _ behind ih =>
    have inside := behind.start_le
    refine List.forall_mem_cons.2 ⟨⟨Nat.le_refl _, Nat.le_of_lt inside⟩, fun range member => ?_⟩
    obtain ⟨lower, upper⟩ := ih range member
    exact ⟨by omega, upper⟩

theorem arguments_from_tiled {ts : TokenSeq} {stop start i count : Nat} {depth : Int} (ordered : start ≤ i)
    (inside : i + count ≤ stop) : ts.CommaTiled stop start (ts.argumentsFrom stop depth start i count) := by
  induction count generalizing depth start i with
  | zero => exact .last (by omega)
  | succ count ih =>
    have passed (depth : Int) := @ih start (i + 1) depth (by omega) (by omega)
    rw [argumentsFrom]
    split
    · exact passed _
    · split
      · exact passed _
      · split
        · rename_i cuts
          exact .more ordered (has_kind_iff.1 (Bool.and_eq_true_iff.1 cuts).2)
            (ih (Nat.le_refl _) (by omega))
        · exact passed _

/-- There are no ranges where nothing carries meaning, and the ranges cover everything elsewhere. -/
theorem split_arguments_tiled (ts : TokenSeq) (opening close : Nat) :
    (∀ i, opening < i → i < close → ts.isSignificant i = false) ∧ ts.splitArguments opening close = [] ∨
      ts.CommaTiled close (opening + 1) (ts.splitArguments opening close) := by
  rw [splitArguments]
  split
  · rename_i missing
    rw [Option.isNone_iff_eq_none] at missing
    exact .inl ⟨fun i behind before => next_significant_none missing behind before, rfl⟩
  · rename_i found
    obtain ⟨next, hit⟩ := Option.ne_none_iff_exists'.1 fun missing => found (Option.isNone_iff_eq_none.2 missing)
    have bounds := next_significant_bounds hit
    exact .inr (arguments_from_tiled (Nat.le_refl _) (by omega))

theorem split_arguments_bounds (ts : TokenSeq) (opening close : Nat) :
    ∀ range ∈ ts.splitArguments opening close, opening + 1 ≤ range.1 ∧ range.2 ≤ close := by
  rcases ts.split_arguments_tiled opening close with ⟨_, none⟩ | tiled
  · rw [none]
    exact List.forall_mem_nil _
  · exact tiled.bounds

/-! ## Tokens joined with commas -/

/-- The tokens in a range of positions. -/
def tokensIn (ts : TokenSeq) (range : Nat × Nat) : List Token :=
  (ts.tokens.extract range.1 range.2).toList

/-- The arguments that end at `stop`, read off the tokens themselves. The first token stands at `i`. -/
def argumentsOf (stop : Nat) (depth : Int) (start i : Nat) : List Token → List (Nat × Nat)
  | [] => [(start, stop)]
  | t :: rest =>
    if t.kind.isOpener then argumentsOf stop (depth + 1) start (i + 1) rest
    else if t.kind.isCloser then argumentsOf stop (depth - 1) start (i + 1) rest
    else if depth == 0 && t.kind == .comma then
      (start, i) :: argumentsOf stop depth (i + 1) (i + 1) rest
    else argumentsOf stop depth start (i + 1) rest

theorem arguments_from_eq {i : Nat} (there : ts.tokens.toList.drop i = tokens ++ behind) :
    ts.argumentsFrom stop depth start i tokens.length = argumentsOf stop depth start i tokens := by
  induction tokens generalizing depth start i with
  | nil => rfl
  | cons t rest ih =>
    have seen : ts.kind? i = some t.kind := by
      have head := congrArg List.head? there
      rw [List.head?_drop, Array.getElem?_toList, List.cons_append, List.head?_cons] at head
      rw [kind?, get?, head, Option.map_some]
    have later : ts.tokens.toList.drop (i + 1) = rest ++ behind := by
      rw [← List.tail_drop, there, List.cons_append, List.tail_cons]
    rw [List.length_cons, argumentsFrom, argumentsOf, kind_is_of_kind seen, kind_is_of_kind seen,
      has_kind_of_kind seen]
    simp only [ih later]

/-- Nested tokens leave the counter as it is, and no comma among them cuts, unless it stands outside
all brackets and the counter is at zero. -/
theorem arguments_of_nested {commas : Bool} (nested : Nested commas tokens) (deep : 0 ≤ depth)
    (cuts : depth = 0 → commas = false) (stop start i : Nat) (more : List Token) :
    argumentsOf stop depth start i (tokens ++ more) =
      argumentsOf stop depth start (i + tokens.length) more := by
  induction nested generalizing depth i more with
  | nil => rfl
  | @token commas t rest opener closer comma _ ih =>
    have passes : (depth == 0 && t.kind == .comma) = false := by
      rw [Bool.and_eq_false_imp, beq_iff_eq, beq_eq_false_iff_ne]
      intro zero isComma
      have allowed := comma isComma
      rw [cuts zero] at allowed
      cases allowed
    rw [List.cons_append, argumentsOf, opener, closer, passes, if_neg Bool.false_ne_true,
      if_neg Bool.false_ne_true, if_neg Bool.false_ne_true, ih deep cuts, List.length_cons,
      Nat.add_right_comm, Nat.add_assoc]
  | @group commas b opening close inner rest opens closes _ _ within behind =>
    have whole : opening :: (inner ++ close :: rest) ++ more =
        opening :: (inner ++ close :: (rest ++ more)) := by
      rw [List.cons_append, List.append_assoc, List.cons_append]
    have length : i + 1 + inner.length + 1 + rest.length =
        i + (opening :: (inner ++ close :: rest)).length := by
      simp only [List.length_cons, List.length_append]
      omega
    rw [whole, argumentsOf, opens, b.opener_is_opener, if_pos rfl, within (by omega) (by omega),
      argumentsOf, closes, b.closer_not_opener, b.closer_is_closer, if_neg Bool.false_ne_true, if_pos rfl,
      Int.add_sub_cancel, behind deep cuts, length]

theorem arguments_of_joined (built : CommaJoined arguments joined)
    (nested : ∀ argument ∈ arguments, Nested false argument) (start : Nat) :
    argumentsOf (start + joined.length) 0 start start joined = laidOut start arguments := by
  induction built generalizing start with
  | last piece =>
    have reads := arguments_of_nested (nested piece List.mem_cons_self) (Int.le_refl 0) (fun _ => rfl)
      (start + piece.length) start start []
    rw [List.append_nil] at reads
    exact reads
  | @more comma piece joined pieces separates _ ih =>
    obtain ⟨here, later⟩ := List.forall_mem_cons.1 nested
    have stop : start + (piece ++ comma :: joined).length =
        start + piece.length + 1 + joined.length := by
      simp only [List.length_append, List.length_cons]
      omega
    rw [arguments_of_nested here (Int.le_refl 0) (fun _ => rfl), argumentsOf, separates, stop,
      ih later (start + piece.length + 1)]
    rfl

theorem tokens_in_first {piece : List Token} (there : ts.tokens.toList.drop start = piece ++ behind) :
    ts.tokensIn (start, start + piece.length) = piece := by
  rw [tokensIn, Array.toList_extract, List.extract_eq_take_drop, Nat.add_sub_cancel_left, there, List.take_left]

/-- Each range holds the tokens of the sequence that was put there. -/
theorem laid_out_tokens {pieces : List (List Token)} (built : CommaJoined pieces joined)
    (there : ts.tokens.toList.drop start = joined ++ behind) : (laidOut start pieces).map ts.tokensIn = pieces := by
  induction built generalizing start with
  | last piece => rw [laidOut, laidOut, List.map_singleton, tokens_in_first there]
  | @more comma piece joined pieces _ _ ih =>
    rw [List.append_assoc] at there
    have later : ts.tokens.toList.drop (start + piece.length + 1) = joined ++ behind := by
      rw [← List.tail_drop, ← List.drop_drop, there, List.drop_left, List.cons_append, List.tail_cons]
    rw [laidOut, List.map_cons, tokens_in_first there, ih later]

/-- Something besides white space and comments stands between the parentheses: a comma, if there is more than
one argument. -/
theorem joined_carries (built : CommaJoined arguments joined)
    (carries : ∀ argument, arguments = [argument] → ∃ t ∈ argument, t.kind.isTrivia = false) :
    ∃ t ∈ joined, t.kind.isTrivia = false := by
  cases built with
  | last => exact carries joined rfl
  | more separates => exact ⟨_, List.mem_append_right _ List.mem_cons_self, by rw [separates]; rfl⟩

theorem split_arguments_eq {opening : Nat} (there : ts.tokens.toList.drop (opening + 1) = joined ++ behind)
    (carries : ∃ t ∈ joined, t.kind.isTrivia = false) :
    ts.splitArguments opening (opening + 1 + joined.length) =
      argumentsOf (opening + 1 + joined.length) 0 (opening + 1) (opening + 1) joined := by
  have inside : opening + 1 + joined.length ≤ ts.size := by
    have length := congrArg List.length there
    rw [List.length_drop, List.length_append, Array.length_toList] at length
    obtain ⟨t, member, _⟩ := carries
    have some := List.length_pos_of_mem member
    rw [size]
    omega
  obtain ⟨t, member, meaning⟩ := carries
  obtain ⟨j, below, rfl⟩ := List.getElem_of_mem member
  have seen : ts.kind? (opening + 1 + j) = some joined[j].kind := by
    rw [kind?, get?, ← Array.getElem?_toList, ← List.getElem?_drop, there, List.getElem?_append_left below,
      List.getElem?_eq_getElem below, Option.map_some]
  have found : (ts.nextSignificant (opening + 1) (opening + 1 + joined.length)).isNone = false := by
    rw [Bool.eq_false_iff, ne_eq, Option.isNone_iff_eq_none]
    intro missing
    have blank := next_significant_none missing (Nat.le_add_right _ j) (by omega)
    rw [significant_of_kind seen meaning] at blank
    cases blank
  rw [splitArguments, found, if_neg Bool.false_ne_true, Nat.min_eq_left inside, Nat.add_sub_cancel_left,
    arguments_from_eq there]

/-- Cutting takes apart what was joined with commas. Between whatever tokens it stands, there are as many
ranges as arguments, and each holds the tokens of its argument. Between any two positions, the ranges cover
all that stands there, with one comma between each two of them, or there are none, and then nothing stands
there but white space and comments. -/
theorem split_arguments_joined :
    (∀ (ts : TokenSeq) (front joined behind : List Token) (opening close : Token)
        (arguments : List (List Token)),
      ts.tokens.toList = front ++ opening :: (joined ++ close :: behind) → CommaJoined arguments joined →
      (∀ argument ∈ arguments, Nested false argument) →
      (∀ argument, arguments = [argument] → ∃ t ∈ argument, t.kind.isTrivia = false) →
        ts.splitArguments front.length (front.length + 1 + joined.length) =
            laidOut (front.length + 1) arguments ∧
          (ts.splitArguments front.length (front.length + 1 + joined.length)).map ts.tokensIn = arguments) ∧
    ∀ (ts : TokenSeq) (opening close : Nat),
      (∀ i, opening < i → i < close → ts.isSignificant i = false) ∧ ts.splitArguments opening close = [] ∨
        ts.CommaTiled close (opening + 1) (ts.splitArguments opening close) := by
  refine ⟨?_, split_arguments_tiled⟩
  intro ts front joined behind opening close arguments whole built nested carries
  have there : ts.tokens.toList.drop (front.length + 1) = joined ++ close :: behind := by
    rw [whole, ← List.tail_drop, List.drop_left, List.tail_cons]
  rw [split_arguments_eq there (joined_carries built carries), arguments_of_joined built nested]
  exact ⟨rfl, laid_out_tokens built there⟩

/-- The commas of the first argument stand in a group and in a subscript, and the second argument is white
space. -/
theorem split_arguments_joined_subscript :
    let ts := ofSource "f((a,b)[c,1], )"
    let first : List Token := [⟨.openParen, 2, ['(']⟩, ⟨.identifier, 3, ['a']⟩, ⟨.comma, 4, [',']⟩,
      ⟨.identifier, 5, ['b']⟩, ⟨.closeParen, 6, [')']⟩, ⟨.openBracket, 7, ['[']⟩, ⟨.identifier, 8, ['c']⟩,
      ⟨.comma, 9, [',']⟩, ⟨.number, 10, ['1']⟩, ⟨.closeBracket, 11, [']']⟩]
    let second : List Token := [⟨.space, 13, [' ']⟩]
    ts.splitArguments 1 14 = [(2, 12), (13, 14)] ∧ (ts.splitArguments 1 14).map ts.tokensIn = [first, second] := by
  intro ts first second
  have subscript : Nested false (first.drop 5) :=
    @Nested.group false .square ⟨.openBracket, 7, ['[']⟩ ⟨.closeBracket, 11, [']']⟩ ((first.drop 6).take 3) [] rfl rfl
      (.token rfl rfl (fun _ => rfl) (.token rfl rfl (fun _ => rfl) (.token rfl rfl (fun _ => rfl) .nil))) .nil
  have nested : Nested false first :=
    @Nested.group false .paren ⟨.openParen, 2, ['(']⟩ ⟨.closeParen, 6, [')']⟩ ((first.drop 1).take 3) (first.drop 5)
      rfl rfl
      (.token rfl rfl (fun _ => rfl) (.token rfl rfl (fun _ => rfl) (.token rfl rfl (fun _ => rfl) .nil))) subscript
  have blank : Nested false second := .token rfl rfl (by decide) .nil
  exact split_arguments_joined.1 ts [⟨.identifier, 0, ['f']⟩] (first ++ ⟨.comma, 12, [',']⟩ :: second) []
    ⟨.openParen, 1, ['(']⟩ ⟨.closeParen, 14, [')']⟩ [first, second] (by decide +kernel) (.more rfl (.last second))
    (List.forall_mem_cons.2 ⟨nested, List.forall_mem_singleton.2 blank⟩) (by simp)

end TokenSeq

end AllocGuard
