import AllocGuard.Proofs.InsertedText
import AllocGuard.Proofs.SignificantCore

/-! Tokens that are copied to another place. They are read there as they were where they came from, if the
first of them is no directive and the last one ends in front of what follows it now. What asks for an
argument is again a pragma operator without an operand. A parenthesis behind it belongs to the copied
tokens together with its partner, so a line end keeps the two apart there as well. -/
namespace AllocGuard

/-! ## Operands across tokens -/

namespace Lexeme

variable {lineStart : Bool} {c first : Char} {cs operand tail next rest more : List Char} {kind : TokenKind}

/-- The search for the end of an operand passes these characters, or stops at a line end among them. -/
def Crosses (cs next : List Char) : Prop :=
  ∀ depth, 0 < depth → operandLength depth (cs ++ next) =
    if '\n' ∈ cs then none else (operandLength depth next).map (· + cs.length)

theorem map_add_add (count : Option Nat) (m n : Nat) : (count.map (· + m)).map (· + n) = count.map (· + (m + n)) := by
  cases count with
  | none => rfl
  | some count => exact congrArg some (Nat.add_assoc count m n)

theorem Crosses.append {front back next : List Char} (before : Crosses front (back ++ next))
    (behind : '\n' ∉ front → Crosses back next) : Crosses (front ++ back) next := by
  intro depth deep
  rw [List.append_assoc, before depth deep]
  by_cases line : '\n' ∈ front
  · rw [if_pos line, if_pos (List.mem_append_left back line)]
  · rw [if_neg line, behind line depth deep]
    by_cases line' : '\n' ∈ back
    · rw [if_pos line', if_pos (List.mem_append_right front line'), Option.map_none]
    · rw [if_neg line', if_neg (by simp [line, line']), map_add_add, List.length_append, Nat.add_comm front.length]

/-- A character that opens and closes nothing. -/
def isPassed (c : Char) : Bool :=
  c != '(' && c != ')' && !isQuote c

theorem passed_iff : isPassed c = true ↔ (c ≠ '(' ∧ c ≠ ')') ∧ isQuote c = false := by
  rw [isPassed, Bool.and_eq_true, Bool.and_eq_true, bne_iff_ne, bne_iff_ne, Bool.not_eq_true']

theorem crosses_passed (passed : ∀ c ∈ cs, isPassed c = true) (next : List Char) : Crosses cs next := by
  induction cs with
  | nil =>
    intro depth _
    rw [List.nil_append, if_neg List.not_mem_nil]
    cases operandLength depth next <;> rfl
  | cons c cs ih =>
    obtain ⟨here, later⟩ := List.forall_mem_cons.1 passed
    refine @Crosses.append [c] cs next (fun depth _ => ?_) fun _ => ih later
    obtain ⟨⟨opens, closes⟩, quote⟩ := passed_iff.1 here
    rcases eq_or_ne c '\n' with rfl | newline
    · rw [if_pos List.mem_cons_self, List.singleton_append, operandLength]
    · rw [if_neg (by simpa using newline.symm), List.singleton_append,
        operand_length_cons depth newline opens closes, quote, if_neg Bool.false_ne_true]
      rfl

theorem crosses_group {inner next : List Char} (within : Crosses inner (')' :: next)) :
    Crosses ('(' :: (inner ++ [')'])) next := by
  intro depth deep
  have line : '\n' ∈ '(' :: (inner ++ [')']) ↔ '\n' ∈ inner := by simp
  have closes : operandLength (depth + 1) (')' :: next) = (operandLength depth next).map (· + 1) := by
    rw [operandLength, if_neg (by omega), Nat.add_sub_cancel]
  rw [List.cons_append, List.append_assoc, operandLength, List.singleton_append, within _ (Nat.succ_pos depth),
    closes]
  by_cases inside : '\n' ∈ inner
  · rw [if_pos inside, if_pos (line.2 inside), Option.map_none]
  · rw [if_neg inside, if_neg (mt line.1 inside), map_add_add, map_add_add, List.length_cons,
      List.length_append, List.length_singleton, Nat.add_comm 1]

theorem quoted_length_line (quote : Char) (cs : List Char) : '\n' ∉ cs.take (quotedLength quote cs) := by
  fun_induction quotedLength quote cs with
  | case1 | case2 | case3 | case4 => simp
  | case5 c rest newline ih =>
    rw [List.take_succ_cons, List.take_succ_cons]
    simp only [List.mem_cons, not_or]
    exact ⟨by decide, fun same => newline same.symm, ih⟩
  | case6 rest =>
    rename_i newline _ _ _
    rw [List.take_succ_cons, List.take_zero, List.mem_singleton]
    exact fun same => newline same.symm
  | case7 c rest newline _ _ _ other ih =>
    rw [List.take_succ_cons, List.mem_cons, not_or]
    exact ⟨fun same => newline same.symm, ih⟩

/-- A literal is passed as a whole. -/
theorem crosses_quoted {quote : Char} (quotes : isQuote quote = true)
    (whole : quotedLength quote (tail ++ next) = tail.length) : Crosses (quote :: tail) next := by
  intro depth _
  have other (c : Char) (mark : isQuote c = false) : quote ≠ c := by
    rintro rfl
    rw [quotes] at mark
    cases mark
  have line : '\n' ∉ quote :: tail := by
    have inside := quoted_length_line quote (tail ++ next)
    rw [whole, List.take_left] at inside
    rw [List.mem_cons, not_or]
    exact ⟨(other '\n' rfl).symm, inside⟩
  rw [if_neg line, List.cons_append, operand_length_cons depth (other _ rfl) (other _ rfl) (other _ rfl),
    if_pos quotes, whole, List.drop_left]
  rfl

/-- Behind an operand the search goes on with as many parentheses as were open in front of it. -/
theorem operand_length_nested {depth : Nat} {length : Nat} (found : operandLength depth cs = some length)
    (deep : 0 < depth) {outer : Nat} (within : 0 < outer) :
    '\n' ∉ cs.take length ∧
      operandLength (depth + outer) cs = (operandLength outer (cs.drop length)).map (· + length) := by
  fun_induction operandLength depth cs generalizing length with
  | case1 | case2 => cases found
  | case3 depth rest ih =>
    obtain ⟨shorter, here, rfl⟩ := Option.map_eq_some_iff.1 found
    obtain ⟨line, later⟩ := ih here (Nat.succ_pos depth)
    constructor
    · rw [List.take_succ_cons, List.mem_cons, not_or]
      exact ⟨by decide, line⟩
    · rw [operandLength, List.drop_succ_cons, ← map_add_add, ← later, Nat.add_right_comm]
  | case4 depth rest ends =>
    cases found
    constructor
    · rw [List.take_succ_cons, List.take_zero]
      decide
    · rw [operandLength, if_neg (by omega), List.drop_succ_cons, List.drop_zero,
        (by omega : depth + outer - 1 = outer)]
  | case5 depth rest goesOn ih =>
    obtain ⟨shorter, here, rfl⟩ := Option.map_eq_some_iff.1 found
    obtain ⟨line, later⟩ := ih here (by omega)
    constructor
    · rw [List.take_succ_cons, List.mem_cons, not_or]
      exact ⟨by decide, line⟩
    · rw [operandLength, if_neg (by omega), List.drop_succ_cons, ← map_add_add, ← later,
        (by omega : depth + outer - 1 = depth - 1 + outer)]
  | case6 depth c rest newline opens closes quotes quoted =>
    rename_i ih
    obtain ⟨shorter, here, rfl⟩ := Option.map_eq_some_iff.1 found
    obtain ⟨line, later⟩ := ih here deep
    constructor
    · rw [List.take_succ_cons, List.mem_cons, not_or, Nat.add_comm, List.take_add, List.mem_append, not_or]
      exact ⟨fun same => newline same.symm, quoted_length_line c rest, line⟩
    · have own : operandLength (depth + outer) (c :: rest) =
          (operandLength (depth + outer) (rest.drop quoted)).map (· + (quoted + 1)) := by
        rw [operand_length_cons _ newline opens closes, if_pos quotes]
        rfl
      rw [own, later, List.drop_succ_cons, List.drop_drop, map_add_add, Nat.add_comm quoted shorter]
      rfl
  | case7 depth c rest newline opens closes other ih =>
    obtain ⟨shorter, here, rfl⟩ := Option.map_eq_some_iff.1 found
    obtain ⟨line, later⟩ := ih here deep
    constructor
    · rw [List.take_succ_cons, List.mem_cons, not_or]
      exact ⟨fun same => newline same.symm, line⟩
    · rw [operand_length_cons _ newline opens closes, if_neg other, List.drop_succ_cons, ← map_add_add, ← later]

/-- An operand is passed as a whole. -/
theorem crosses_operand (whole : operandLength 1 (operand ++ next) = some operand.length) :
    Crosses ('(' :: operand) next := by
  intro depth deep
  obtain ⟨line, later⟩ := operand_length_nested whole Nat.one_pos deep
  rw [List.take_left] at line
  rw [List.drop_left] at later
  have line : '\n' ∉ '(' :: operand := by
    rw [List.mem_cons, not_or]
    exact ⟨by decide, line⟩
  rw [if_neg line, List.cons_append, operandLength, Nat.add_comm, later, map_add_add]
  rfl

theorem ident_passed (ident : isIdentChar c = true) : isPassed c = true := by
  have other (d : Char) (mark : isIdentChar d = false) : c ≠ d := by
    rintro rfl
    rw [ident] at mark
    cases mark
  refine passed_iff.2 ⟨⟨other _ (by decide), other _ (by decide)⟩, ?_⟩
  rw [isQuote, Bool.or_eq_false_iff, beq_eq_false_iff_ne, beq_eq_false_iff_ne]
  exact ⟨other _ (by decide), other _ (by decide)⟩

theorem space_passed (space : isSpace c = true) : isPassed c = true := by
  simp only [isSpace, Bool.or_eq_true, beq_iff_eq] at space
  rcases space with ((((rfl | rfl) | rfl) | rfl) | rfl) | rfl <;> decide

theorem number_takes (before : Bool) (cs : List Char) :
    ∀ c ∈ cs.take (numberLength before cs), isPassed c = true := by
  fun_induction numberLength before cs with
  | case1 => exact List.forall_mem_nil _
  | case2 before c rest member ih =>
    refine List.forall_mem_cons.2 ⟨?_, ih⟩
    simp only [Bool.or_eq_true, beq_iff_eq] at member
    rcases member with (word | rfl) | rfl
    · refine ident_passed ?_
      rw [Char.isAlphanum, Bool.or_eq_true] at word
      simp only [isIdentChar, isIdentStart, Bool.or_eq_true]
      exact word.imp (fun alpha => .inl (.inl (.inl alpha))) id
    · decide
    · decide
  | case3 before c rest other sign ih =>
    refine List.forall_mem_cons.2 ⟨?_, ih⟩
    simp only [Bool.and_eq_true, Bool.or_eq_true, beq_iff_eq] at sign
    rcases sign.1 with rfl | rfl <;> decide
  | case4 => exact List.forall_mem_nil _

theorem punctuator_takes (c : Char) (rest : List Char) :
    ∀ d ∈ rest.take (punctuator c rest).2, d ∈ ['=', '&', '.', '>', '-', '+', '|', '<', '#'] := by
  unfold punctuator
  split
  all_goals grind [assigned, doubledOrAssigned, punctuator.shiftLength, follows_iff]

theorem pragma_crosses {more next operand : List Char}
    (inside : gapLength (more ++ next) < more.length)
    (opens : (more ++ next).drop (gapLength (more ++ next)) = '(' :: operand)
    (closes : operandLength 1 operand = some (more.length - gapLength (more ++ next) - 1)) :
    Crosses more next := by
  obtain ⟨gap, group, rfl, length⟩ : ∃ gap group, more = gap ++ group ∧ gap.length = gapLength (more ++ next) :=
    ⟨_, _, (List.take_append_drop (gapLength (more ++ next)) more).symm, List.length_take_of_le (Nat.le_of_lt inside)⟩
  have chars : ∀ c ∈ gap, isPassed c = true := by
    intro c member
    have blank := @run_chars (fun c => c == ' ' || c == '\t') (gap ++ group ++ next) c (by
      rw [← gapLength, ← length, List.append_assoc, List.take_left]
      exact member)
    rw [Bool.or_eq_true, beq_iff_eq, beq_iff_eq] at blank
    rcases blank with rfl | rfl <;> decide
  rw [← length, List.length_append] at inside closes
  rw [← length, List.append_assoc, List.drop_left] at opens
  cases group with
  | nil => exact absurd inside (Nat.lt_irrefl gap.length)
  | cons d group =>
    obtain ⟨rfl, behind⟩ := List.cons.inj opens
    refine (crosses_passed chars _).append fun _ => crosses_operand ?_
    rw [show group ++ next = operand from behind, closes, List.length_cons]
    congr 1
    omega

/-- A word is passed, and with it the literal that it marks, or the operand of a pragma operator. -/
theorem word_crosses (starts : isIdentStart first = true) (whole : (word first (tail ++ next)).2 = tail.length) :
    Crosses (first :: tail) next := by
  have inside : wordLength (tail ++ next) ≤ tail.length := whole ▸ (word_le first (tail ++ next)).1
  obtain ⟨own, more, rfl, length⟩ : ∃ own more, tail = own ++ more ∧ own.length = wordLength (tail ++ next) :=
    ⟨_, _, (List.take_append_drop (wordLength (tail ++ next)) tail).symm, List.length_take_of_le inside⟩
  have chars : ∀ c ∈ first :: own, isPassed c = true := by
    refine List.forall_mem_cons.2 ⟨ident_passed (by rw [isIdentChar, starts]; rfl), fun c member => ?_⟩
    refine ident_passed (@run_chars isIdentChar (own ++ more ++ next) c ?_)
    rw [← wordLength, ← length, List.append_assoc, List.take_left]
    exact member
  rw [word_eq, ← length, List.append_assoc, List.take_left, List.drop_left] at whole
  refine @Crosses.append (first :: own) more next (crosses_passed chars _) fun _ => ?_
  by_cases marks : ∃ quote tail, MarksLiteral (String.ofList (first :: own)) (more ++ next) quote tail
  · obtain ⟨quote, inner, literal⟩ := marks
    rw [word_before_literal literal, List.length_append] at whole
    have behind := literal.behind
    cases more with
    | nil =>
      have whole : own.length + 1 + quotedLength quote inner = own.length + 0 := whole
      omega
    | cons d more =>
      obtain ⟨rfl, rfl⟩ := List.cons.inj behind
      refine crosses_quoted literal.quotes ?_
      have whole : own.length + 1 + quotedLength d (more ++ next) = own.length + (more.length + 1) := whole
      omega
  · rw [word_before_plain (fun quote tail literal => marks ⟨quote, tail, literal⟩), plainWord,
      List.length_append] at whole
    have none (same : own.length = own.length + more.length) : Crosses more next := by
      rw [List.length_eq_zero_iff.1 (by omega : more.length = 0)]
      exact crosses_passed (List.forall_mem_nil _) next
    split at whole
    · have whole : own.length + pragmaLength (more ++ next) = own.length + more.length := whole
      rcases Nat.eq_zero_or_pos (pragmaLength (more ++ next)) with bare | given
      · exact none (by omega)
      · obtain ⟨operand, taken, opens, closes, sum⟩ := (pragma_length_iff given).1 rfl
        refine pragma_crosses (by omega) opens ?_
        rw [closes]
        congr 1
        omega
    · exact none whole
    · exact none whole

/-- Every token but a comment or a parenthesis is passed as a whole. -/
theorem read_crosses (own : read false first (tail ++ next) = (kind, tail.length)) (comment : kind ≠ .comment)
    (opens : kind ≠ .openParen) (closes : kind ≠ .closeParen) : Crosses (first :: tail) next := by
  have passed {length : Nat} (whole : length = tail.length) (here : isPassed first = true)
      (later : ∀ c ∈ (tail ++ next).take length, isPassed c = true) : Crosses (first :: tail) next := by
    rw [whole, List.take_left] at later
    exact crosses_passed (List.forall_mem_cons.2 ⟨here, later⟩) next
  unfold read at own
  split_ifs at own with space line block directive string character number word
  · exact passed (Prod.mk.inj own).2 (space_passed space) fun c member => space_passed (run_chars member)
  · exact absurd (Prod.mk.inj own).1.symm comment
  · exact absurd (Prod.mk.inj own).1.symm comment
  · rw [Bool.and_false] at directive
    cases directive
  · cases beq_iff_eq.1 string
    exact crosses_quoted rfl (Prod.mk.inj own).2
  · cases beq_iff_eq.1 character
    exact crosses_quoted rfl (Prod.mk.inj own).2
  · refine passed (Prod.mk.inj own).2 ?_ (number_takes false _)
    rw [Bool.or_eq_true, Bool.and_eq_true, beq_iff_eq] at number
    rcases number with digit | ⟨rfl, _⟩
    · exact ident_passed (by rw [isIdentChar, digit, Bool.or_true])
    · decide
  · exact word_crosses word (congrArg Prod.snd own)
  · refine passed (congrArg Prod.snd own) ?_ fun c member => ?_
    · refine passed_iff.2 ⟨⟨?_, ?_⟩, ?_⟩
      · rintro rfl
        exact opens (Prod.mk.inj own).1.symm
      · rintro rfl
        exact closes (Prod.mk.inj own).1.symm
      · rw [isQuote, Bool.or_eq_false_iff]
        exact ⟨Bool.eq_false_iff.2 string, Bool.eq_false_iff.2 character⟩
    · have marks : ∀ d ∈ ['=', '&', '.', '>', '-', '+', '|', '<', '#'], isPassed d = true :=
        List.all_eq_true.1 rfl
      exact marks c (punctuator_takes first _ c member)

theorem read_mark (mark : (read lineStart first rest).1 ∈ [.openParen, .closeParen, .star]) :
    read lineStart first rest = punctuator first rest := by
  have apart : ∀ kind ∈ [TokenKind.openParen, .closeParen, .star],
      kind.isWord = false ∧ kind ∉ [TokenKind.directive, .string, .character, .number] := by decide
  cases read_cases lineStart first rest with
  | space _ own =>
    rw [own] at mark
    exact absurd mark (by simp)
  | comment _ _ _ own =>
    rw [own] at mark
    exact absurd mark (by simp)
  | other kind member own =>
    rw [own] at mark
    exact absurd member (apart _ mark).2
  | word _ own =>
    rw [own] at mark
    rcases word_word first rest with word | literal | literal
    · rw [(apart _ mark).1] at word
      cases word
    · rw [literal] at mark
      exact absurd mark (by decide)
    · rw [literal] at mark
      exact absurd mark (by decide)
  | punctuator own => exact own

theorem read_paren :
    ((read lineStart first rest).1 = .openParen → first = '(') ∧
      ((read lineStart first rest).1 = .closeParen → first = ')') := by
  constructor
  · intro opens
    have own := read_mark (show (read lineStart first rest).1 ∈ _ by rw [opens]; decide)
    have alone := punctuator_alone (show standsAlone (punctuator first rest).1 = true by rw [← own, opens]; rfl)
    rw [own] at opens
    simp only [List.mem_cons, List.not_mem_nil, or_false] at alone
    rcases alone with rfl | rfl | rfl | rfl | rfl | rfl | rfl | rfl | rfl | rfl <;> first | rfl | cases opens
  · intro closes
    have own := read_mark (show (read lineStart first rest).1 ∈ _ by rw [closes]; decide)
    have alone := punctuator_alone (show standsAlone (punctuator first rest).1 = true by rw [← own, closes]; rfl)
    rw [own] at closes
    simp only [List.mem_cons, List.not_mem_nil, or_false] at alone
    rcases alone with rfl | rfl | rfl | rfl | rfl | rfl | rfl | rfl | rfl | rfl <;> first | rfl | cases closes

theorem read_star (own : read lineStart first (tail ++ next) = (.star, tail.length)) : first = '*' ∧ tail = [] := by
  rw [read_mark (by rw [own]; exact List.mem_of_mem_getLast? rfl)] at own
  unfold punctuator assigned doubledOrAssigned at own
  split at own <;> first | cases own | skip
  · split at own
    · cases own
    · exact ⟨rfl, List.length_eq_zero_iff.1 (Prod.mk.inj own).2.symm⟩
  all_goals
    repeat' split at own
    all_goals cases own

theorem read_any_line (hash : first ≠ '#') (lineStart : Bool) (rest : List Char) :
    read lineStart first rest = read false first rest := by
  simp only [read, beq_eq_false_iff_ne.2 hash, Bool.false_and]

/-- A `#` starts a directive exactly at the start of a line. -/
theorem read_hash (rest : List Char) : (read true '#' rest).1 = .directive ∧ (read false '#' rest).1 = .operator :=
  ⟨rfl, rfl⟩

theorem keyword_pragma (keyword : TokenKind.ofKeyword? (String.ofList cs) = some .pragma) :
    ∀ c ∈ cs, isIdentChar c = true := by
  have spelled : String.ofList cs = "_Pragma" ∨ String.ofList cs = "__pragma" := by
    generalize String.ofList cs = spelling at keyword
    unfold TokenKind.ofKeyword? at keyword
    split at keyword <;> cases keyword
    · exact .inl rfl
    · exact .inr rfl
  have chars : cs = "_Pragma".toList ∨ cs = "__pragma".toList := by
    rw [← String.toList_ofList (l := cs)]
    exact spelled.imp (congrArg String.toList) (congrArg String.toList)
  rcases chars with rfl | rfl <;> exact List.all_eq_true.1 rfl

/-- The word of a pragma operator without an operand is all of it. -/
theorem bare_word_length (own : read lineStart first (tail ++ more) = (.pragma, tail.length))
    (keyword : TokenKind.ofKeyword? (String.ofList (first :: tail)) = some .pragma) :
    wordLength (tail ++ more) = tail.length := by
  refine Nat.le_antisymm ?_ ?_
  · obtain ⟨_, plain⟩ := read_plain_word (show (read lineStart first (tail ++ more)).1.isWord = true by rw [own]; rfl)
    have le := (plain_word_le (String.ofList (first :: (tail ++ more).take (wordLength (tail ++ more))))
      (wordLength (tail ++ more)) ((tail ++ more).drop (wordLength (tail ++ more)))).1
    rwa [← plain, own] at le
  · have chars : ∀ c ∈ tail, isIdentChar c = true := (List.forall_mem_cons.1 (keyword_pragma keyword)).2
    refine (run_length_local isIdentChar).goesOn ?_ more
    rw [runLength, List.takeWhile_eq_self_iff.2 chars]

/-- A token is read in the same way if other text comes behind its first neighbours. -/
theorem read_in_front {behind old new : List Char}
    (own : read lineStart first (tail ++ (behind ++ old)) = (kind, tail.length)) (ahead : behind ≠ [])
    (dot : new.head? ≠ some '.')
    (bare : kind = .pragma → pragmaLength (behind ++ old) = 0 → pragmaLength (behind ++ new) = 0) :
    read lineStart first (tail ++ (behind ++ new)) = (kind, tail.length) := by
  rw [← List.append_assoc] at own ⊢
  have front : read lineStart first (tail ++ behind) = (kind, tail.length) := by
    rw [read_front, own]
    rw [own, List.length_append]
    exact Nat.le_add_right _ _
  have inside : (read lineStart first (tail ++ behind)).2 < (tail ++ behind).length := by
    rw [front, List.length_append]
    exact Nat.lt_add_of_pos_right (List.length_pos_iff.2 ahead)
  cases isBare : isBarePragma kind (first :: tail) with
  | false => rw [read_stops inside (by rwa [front, List.take_left]) fun _ _ => dot, front]
  | true =>
    simp only [isBarePragma, Bool.and_eq_true, beq_iff_eq] at isBare
    obtain ⟨rfl, keyword⟩ := isBare
    have spelled (more : List Char) : read lineStart first (tail ++ behind ++ more) =
        (.pragma, tail.length + pragmaLength (behind ++ more)) := by
      rw [read_pragma_append (congrArg Prod.fst front) inside, bare_word_length front keyword, List.drop_left]
    rw [spelled, Prod.mk.injEq, Nat.add_eq_left] at own ⊢
    exact ⟨rfl, bare rfl own.2⟩

/-- A parenthesis follows a pragma operator on its line if only blanks stand in between. -/
theorem gap_then {gap : List Char} (blank : ∀ c ∈ gap, isSpace c = true) (other : isSpace first = false) :
    (gap ++ first :: more).drop (gapLength (gap ++ first :: more)) = '(' :: operand ↔
      (∀ c ∈ gap, c = ' ' ∨ c = '\t') ∧ first = '(' ∧ more = operand := by
  induction gap with
  | nil =>
    have none : gapLength (first :: more) = 0 := by
      rw [gapLength, run_length_cons, if_neg]
      rw [Bool.or_eq_true, beq_iff_eq, beq_iff_eq]
      rintro (rfl | rfl) <;> cases other
    rw [List.nil_append, none, List.drop_zero, List.cons.injEq]
    exact (and_iff_right (List.forall_mem_nil _)).symm
  | cons c gap ih =>
    obtain ⟨here, later⟩ := List.forall_mem_cons.1 blank
    rw [List.cons_append, gapLength, run_length_cons]
    by_cases inside : (c == ' ' || c == '\t') = true
    · rw [if_pos inside, List.drop_succ_cons, ← gapLength, ih later, List.forall_mem_cons]
      rw [Bool.or_eq_true, beq_iff_eq, beq_iff_eq] at inside
      rw [and_iff_right inside]
    · rw [if_neg inside, List.drop_zero, List.cons.injEq]
      rw [Bool.or_eq_true, beq_iff_eq, beq_iff_eq] at inside
      constructor
      · rintro ⟨rfl, _⟩
        cases here
      · exact fun all => absurd (all.1 c List.mem_cons_self) inside

end Lexeme

/-! ## Tokens one behind the other -/

namespace TokenSeq

open Glyph

variable {ts : TokenSeq} {start i stop : Nat} {next : List Char} {kind : TokenKind} {places : List Nat}
  {lineStart : Bool} {face : TokenFace}

/-- Tokens with these faces are read one behind the other, from a line that starts there or not, and
`next` comes behind the last one. -/
def ReadsFrom (next : List Char) : Bool → List TokenFace → Prop
  | _, [] => True
  | lineStart, face :: rest =>
    (∃ first tail, face.2 = first :: tail ∧
      Lexeme.read lineStart first (tail ++ (rest.flatMap Prod.snd ++ next)) = (face.1, tail.length)) ∧
        ReadsFrom next (lineStartAfter lineStart face.1 face.2) rest

theorem ReadsOff.reads_from {faces : List TokenFace} (reads : ReadsOff next faces) (lineStart : Bool) :
    ReadsFrom next lineStart faces := by
  induction faces generalizing lineStart with
  | nil => trivial
  | cons face rest ih =>
    obtain ⟨⟨first, tail, text, own⟩, later⟩ := reads
    exact ⟨⟨first, tail, text, own lineStart⟩, ih later _⟩

theorem reads_from_append {next : List Char} {lineStart : Bool} {front back : List TokenFace} :
    ReadsFrom next lineStart (front ++ back) ↔
      ReadsFrom (back.flatMap Prod.snd ++ next) lineStart front ∧
        ReadsFrom next (lineBehind lineStart front) back := by
  induction front generalizing lineStart with
  | nil => exact (and_iff_right trivial).symm
  | cons face front ih =>
    rw [List.cons_append, ReadsFrom, ReadsFrom, ih, List.flatMap_append, List.append_assoc, and_assoc]
    rfl

/-- The last token, in front of what follows. -/
theorem ReadsFrom.last {faces : List TokenFace} (reads : ReadsFrom next lineStart faces)
    (member : face ∈ faces.getLast?) {first : Char} {tail : List Char} (text : face.2 = first :: tail) :
    ∃ lineStart', Lexeme.read lineStart' first (tail ++ next) = (face.1, tail.length) := by
  obtain ⟨init, rfl⟩ := List.getLast?_eq_some_iff.1 member
  obtain ⟨_, ⟨_, _, text', own⟩, _⟩ := reads_from_append.1 reads
  cases text.symm.trans text'
  exact ⟨_, own⟩

/-- Such text has these tokens. -/
theorem ReadsFrom.faces {faces : List TokenFace} (reads : ReadsFrom [] lineStart faces) :
    facesOf lineStart [] (singles (faces.flatMap Prod.snd)) = faces := by
  induction faces generalizing lineStart with
  | nil => exact faces_nil lineStart
  | cons face rest ih =>
    obtain ⟨⟨first, tail, text, own⟩, later⟩ := reads
    have split : singles ((face :: rest).flatMap Prod.snd) =
        singles (first :: tail) ++ singles (rest.flatMap Prod.snd) := by
      rw [List.flatMap_cons, text, singles, List.map_append]
      rfl
    have own : Lexeme.read lineStart first (tail ++ (singles (rest.flatMap Prod.snd)).map char) =
        (face.1, tail.length) := by
      rwa [singles_char, ← List.append_nil (rest.flatMap Prod.snd)]
    rw [split, faces_first own, ← text, ih later]

theorem of_source_faces {text : String} {faces : List TokenFace} (written : text.toList = faces.flatMap Prod.snd)
    (plain : isPlainText text.toList = true) (reads : ReadsFrom [] true faces) : (ofSource text).faces = faces := by
  have glyphs : glyphs text.toList = (singles text.toList, []) := by
    rw [AllocGuard.glyphs, replace_plain plain, join_plain plain]
    rfl
  rw [TokenSeq.faces, of_source_scan, glyphs, ← reads.faces, ← written]
  rfl

/-- The tokens at the front of a text, read as they were, if their spellings are what is written there. -/
theorem faces_reads {gs : List Glyph} {left : List Char} (reads : Reads gs left) {faces more : List TokenFace}
    (split : facesOf lineStart left gs = faces ++ more) (plain : ∀ face ∈ faces, logicalChars face.2 = face.2) :
    ∃ next, gs.map char = faces.flatMap Prod.snd ++ next ∧ ReadsFrom next lineStart faces := by
  induction faces generalizing lineStart gs with
  | nil => exact ⟨gs.map char, rfl, trivial⟩
  | cons face rest ih =>
    obtain ⟨here, later⟩ := List.forall_mem_cons.1 plain
    cases gs with
    | nil =>
      -- what no glyph follows is white space whose spelling is empty
      rw [facesOf, scan_glyphs_end] at split
      split at split
      · cases split
      · rename_i some
        have spelled : logicalChars left = [] := reads.logical
        obtain ⟨rfl, _⟩ := List.cons.inj split
        rw [show logicalChars left = left from here] at spelled
        exact absurd (List.isEmpty_iff.2 spelled) some
    | cons g gs =>
      rw [faces_cons, List.cons_append, List.cons.injEq] at split
      obtain ⟨rfl, behind⟩ := split
      obtain ⟨next, chars, reads'⟩ := ih (reads.drop (firstLength lineStart g gs + 1)) behind later
      have spelled : (firstToken lineStart 0 g gs).face.2 =
          g.char :: (gs.map char).take (firstLength lineStart g gs) :=
        here.symm.trans (first_spelled reads lineStart 0)
      have inside := List.length_take_of_le (List.length_map char ▸ first_length_le lineStart g gs :
        firstLength lineStart g gs ≤ (gs.map char).length)
      rw [List.drop_succ_cons, List.map_drop] at chars
      have whole : (gs.map char).take (firstLength lineStart g gs) ++ (rest.flatMap Prod.snd ++ next) =
          gs.map char := by
        rw [← chars, List.take_append_drop]
      refine ⟨next, ?_, ⟨g.char, _, spelled, ?_⟩, reads'⟩
      · rw [List.flatMap_cons, spelled, List.cons_append, List.cons_append, List.append_assoc, whole, List.map_cons]
      · rw [whole, inside]
        rfl

theorem plain_faces {faces : List TokenFace} (plain : isPlainText (faces.flatMap Prod.snd) = true) :
    ∀ face ∈ faces, isPlainText face.2 = true := by
  intro face member
  obtain ⟨front, back, rfl⟩ := List.append_of_mem member
  rw [List.flatMap_append, List.flatMap_cons] at plain
  exact plain_front (plain_back plain)

theorem faces_length (ts : TokenSeq) : ts.faces.length = ts.size := by
  rw [faces, List.length_map]
  rfl

/-- The tokens `[start, stop)`, with the texts that stand for them. -/
def facesIn (ts : TokenSeq) (start stop : Nat) : List TokenFace :=
  (ts.faces.drop start).take (stop - start)

theorem text_range_in (ts : TokenSeq) (start stop : Nat) :
    (ts.textRange start stop).toList = (ts.facesIn start stop).flatMap Prod.snd :=
  text_range_faces ts start stop

theorem faces_in_append (ts : TokenSeq) {middle : Nat} (lower : start ≤ middle) (upper : middle ≤ stop) :
    ts.facesIn start middle ++ ts.facesIn middle stop = ts.facesIn start stop := by
  have whole : stop - start = (middle - start) + (stop - middle) := by omega
  have reach : start + (middle - start) = middle := by omega
  rw [facesIn, facesIn, facesIn, whole, List.take_add, List.drop_drop, reach]

/-- A range of tokens, read as it was, if its spellings are what is written there. -/
theorem range_reads {source : String} (plain : isPlainText ((ofSource source).textRange start stop).toList = true) :
    ∃ lineStart next, ReadsFrom next lineStart ((ofSource source).facesIn start stop) := by
  rw [text_range_in, facesIn] at plain
  rw [facesIn]
  by_cases inside : start < (ofSource source).size
  · obtain ⟨front, back, left, _, reads, _, _, behind, _⟩ := faces_cut (.inl inside)
    have split := (List.take_append_drop (stop - start) ((ofSource source).faces.drop start)).symm
    rw [behind] at split plain
    obtain ⟨next, _, reads'⟩ := faces_reads reads split fun face member =>
      logical_plain (plain_faces plain face member)
    rw [behind]
    exact ⟨_, next, reads'⟩
  · rw [List.drop_eq_nil_of_le (by rw [faces_length]; omega), List.take_nil]
    exact ⟨true, [], trivial⟩

/-! ## Another place -/

theorem ReadsFrom.off {faces : List TokenFace} (reads : ReadsFrom next lineStart faces)
    (kinds : ∀ face ∈ faces, face.1 ≠ .directive ∧ face.1 ≠ .operator) : ReadsOff next faces := by
  induction faces generalizing lineStart with
  | nil => trivial
  | cons face rest ih =>
    obtain ⟨⟨first, tail, text, own⟩, later⟩ := reads
    obtain ⟨here, behind⟩ := List.forall_mem_cons.1 kinds
    have hash : first ≠ '#' := by
      rintro rfl
      have kind := congrArg Prod.fst own
      cases lineStart with
      | true => exact here.1 (kind.symm.trans (Lexeme.read_hash _).1)
      | false => exact here.2 (kind.symm.trans (Lexeme.read_hash _).2)
    refine ⟨⟨first, tail, text, fun lineStart' => ?_⟩, ih later behind⟩
    rw [Lexeme.read_any_line hash] at own ⊢
    exact own

/-- Tokens that start with no directive can stand behind others on a line. -/
theorem ReadsFrom.inside_line {rest : List TokenFace} (reads : ReadsFrom next lineStart (face :: rest))
    (carries : face.1.isTrivia = false) (other : face.1 ≠ .directive) : ReadsFrom next false (face :: rest) := by
  obtain ⟨⟨first, tail, text, own⟩, later⟩ := reads
  rw [no_line_behind carries] at later
  refine ⟨⟨first, tail, text, ?_⟩, ?_⟩
  · cases lineStart with
    | false => exact own
    | true =>
      rcases eq_or_ne first '#' with rfl | hash
      · exact absurd ((Prod.mk.inj own).1.symm.trans (Lexeme.read_hash (tail ++ (rest.flatMap Prod.snd ++ next))).1)
          other
      · rwa [Lexeme.read_any_line hash] at own
  · rwa [no_line_behind carries]

/-- The token is read as it is when `next` comes behind it, unless a line starts with it. -/
def EndsAt (next : List Char) (face : TokenFace) : Prop :=
  ∀ first tail, face.2 = first :: tail → Lexeme.read false first (tail ++ next) = (face.1, tail.length)

/-- A pragma operator among the tokens that has found no operand finds none in front of `new` either. -/
def KeepsBare (old new : List Char) (faces : List TokenFace) : Prop :=
  ∀ front raw back, faces = front ++ (.pragma, raw) :: back → back ≠ [] → ReadsFrom old false back →
    ReadsFrom new false back → Lexeme.pragmaLength (back.flatMap Prod.snd ++ old) = 0 →
      Lexeme.pragmaLength (back.flatMap Prod.snd ++ new) = 0

/-- Tokens are read as they were with something else behind them. -/
theorem ReadsFrom.in_front {old new : List Char} {faces : List TokenFace} (reads : ReadsFrom old lineStart faces)
    (dot : new.head? ≠ some '.') (ends : ∀ face ∈ faces.getLast?, EndsAt new face) (bare : KeepsBare old new faces) :
    ReadsFrom new lineStart faces := by
  induction faces generalizing lineStart with
  | nil => trivial
  | cons face rest ih =>
    obtain ⟨⟨first, tail, text, own⟩, later⟩ := reads
    have bare' : KeepsBare old new rest := by
      rintro front raw back rfl
      exact bare (face :: front) raw back rfl
    cases rest with
    | nil =>
      refine ⟨⟨first, tail, text, ?_⟩, trivial⟩
      have stays := ends face rfl first tail text
      cases lineStart with
      | false => exact stays
      | true =>
        rcases eq_or_ne first '#' with rfl | hash
        · have directive := (Lexeme.read_hash (tail ++ ([] ++ old))).1
          have operator := (Lexeme.read_hash (tail ++ new)).2
          rw [show (Lexeme.read true '#' (tail ++ ([] ++ old))).1 = face.1 from congrArg Prod.fst own] at directive
          rw [stays, directive] at operator
          cases operator
        · rw [Lexeme.read_any_line hash]
          exact stays
    | cons second rest =>
      have later' := ih later (fun last member => ends last (by rwa [List.getLast?_cons_cons])) bare'
      refine ⟨⟨first, tail, text, Lexeme.read_in_front own ?_ dot fun pragma => ?_⟩, later'⟩
      · obtain ⟨⟨first', tail', text', _⟩, _⟩ := later
        rw [List.flatMap_cons, text']
        exact List.cons_ne_nil _ _
      · have carries : face.1.isTrivia = false := pragma ▸ rfl
        rw [no_line_behind carries] at later later'
        exact bare [] face.2 (second :: rest) (pragma ▸ rfl) (List.cons_ne_nil _ _) later later'

/-! ## Brackets in pairs -/

/-- The brackets among the tokens stand in pairs, one inside the other. -/
inductive Paired : List TokenFace → Prop
  | nil : Paired []
  | token {face : TokenFace} {rest : List TokenFace} (opener : face.1.isOpener = false)
      (closer : face.1.isCloser = false) (behind : Paired rest) : Paired (face :: rest)
  | group {b : Bracket} {opening close : List Char} {inner rest : List TokenFace} (within : Paired inner)
      (behind : Paired rest) : Paired ((b.opener, opening) :: (inner ++ (b.closer, close) :: rest))

theorem Paired.append {front back : List TokenFace} (before : Paired front) (behind : Paired back) :
    Paired (front ++ back) := by
  induction before with
  | nil => exact behind
  | token opener closer _ ih => exact .token opener closer ih
  | group within _ _ ih =>
    rw [List.cons_append, List.append_assoc]
    exact .group within ih

/-- An opening bracket has its partner behind it. -/
theorem Paired.partner {faces front rest : List TokenFace} {b : Bracket} {opening : List Char}
    (paired : Paired faces) (split : faces = front ++ (b.opener, opening) :: rest) :
    ∃ inner close behind, rest = inner ++ (b.closer, close) :: behind ∧ Paired inner := by
  induction paired generalizing front rest with
  | nil => cases (List.append_eq_nil_iff.1 split.symm).2
  | @token face later opener _ _ ih =>
    cases front with
    | nil =>
      obtain ⟨rfl, _⟩ := List.cons.inj split
      rw [b.opener_is_opener] at opener
      cases opener
    | cons _ front => exact ih (List.cons.inj split).2
  | @group b' _ close' inner' rest' within _ ih ih' =>
    cases front with
    | nil =>
      obtain ⟨same, rfl⟩ := List.cons.inj split
      have same : b' = b := by
        rw [← beq_iff_eq, ← Bracket.opener_beq, beq_iff_eq]
        exact (Prod.mk.inj same).1
      exact ⟨inner', close', rest', by rw [same], within⟩
    | cons _ front =>
      have apart : b'.closer ≠ b.opener := beq_eq_false_iff_ne.1 (b.closer_beq_opener b')
      rcases List.append_eq_append_iff.1 (List.cons.inj split).2 with ⟨ahead, rfl, tail⟩ | ⟨ahead, rfl, tail⟩
      · cases ahead with
        | nil => exact absurd (Prod.mk.inj (List.cons.inj tail).1).1 apart
        | cons _ ahead => exact ih' (List.cons.inj tail).2
      · cases ahead with
        | nil => exact absurd (Prod.mk.inj (List.cons.inj tail).1).1.symm apart
        | cons _ ahead =>
          obtain ⟨rfl, rfl⟩ := List.cons.inj tail
          obtain ⟨inner, close, behind, rfl, paired⟩ := ih rfl
          exact ⟨inner, close, behind ++ (b'.closer, close') :: rest', List.append_assoc inner _ _, paired⟩

theorem line_stays {raw : List Char} (other : kind ≠ .comment) (line : '\n' ∉ raw) :
    lineStartAfter false kind raw = false := by
  cases kind with
  | comment => exact absurd rfl other
  | space => rw [lineStartAfter, Bool.false_or, List.contains_eq_mem, decide_eq_false line]
  | _ => rfl

theorem line_behind_stays {faces : List TokenFace} (other : ∀ face ∈ faces, face.1 ≠ .comment)
    (line : '\n' ∉ faces.flatMap Prod.snd) : lineBehind false faces = false := by
  induction faces with
  | nil => rfl
  | cons face rest ih =>
    obtain ⟨here, later⟩ := List.forall_mem_cons.1 other
    rw [List.flatMap_cons, List.mem_append, not_or] at line
    rw [lineBehind, List.foldl_cons, line_stays here line.1]
    exact ih later line.2

/-- The search for the end of an operand passes tokens whose brackets stand in pairs. -/
theorem Paired.crosses {faces : List TokenFace} (paired : Paired faces) (reads : ReadsFrom next false faces)
    (other : ∀ face ∈ faces, face.1 ≠ .comment) : Lexeme.Crosses (faces.flatMap Prod.snd) next := by
  induction paired generalizing next with
  | nil => exact Lexeme.crosses_passed (List.forall_mem_nil _) next
  | @token face rest opener closer behind ih =>
    obtain ⟨⟨first, tail, text, own⟩, later⟩ := reads
    obtain ⟨here, others⟩ := List.forall_mem_cons.1 other
    rw [List.flatMap_cons, text]
    refine (Lexeme.read_crosses own here ?_ ?_).append fun line => ?_
    · rintro opens
      rw [opens] at opener
      cases opener
    · rintro closes
      rw [closes] at closer
      cases closer
    · rw [← text] at line
      rw [line_stays here line] at later
      exact ih later others
  | @group b opening close inner rest within behind ih ih' =>
    obtain ⟨⟨first, tail, text, own⟩, later⟩ := reads
    obtain ⟨_, others⟩ := List.forall_mem_cons.1 other
    obtain ⟨othersIn, othersBehind⟩ := List.forall_mem_append.1 others
    rw [no_line_behind b.opener_significant, reads_from_append] at later
    obtain ⟨readsIn, ⟨first', tail', text', own'⟩, readsBehind⟩ := later
    rw [no_line_behind b.closer_significant] at readsBehind
    have crossesIn := ih readsIn othersIn
    have crossesBehind := ih' readsBehind (List.forall_mem_cons.1 othersBehind).2
    simp only [List.flatMap_cons, List.flatMap_append] at own crossesIn ⊢
    cases text
    cases text'
    rcases eq_or_ne b .paren with rfl | bracket
    · have opens := Lexeme.read_paren.1 (congrArg Prod.fst own)
      have closes := Lexeme.read_paren.2 (congrArg Prod.fst own')
      cases opens
      cases closes
      cases List.length_eq_zero_iff.1 (congrArg Prod.snd own).symm
      cases List.length_eq_zero_iff.1 (congrArg Prod.snd own').symm
      have group := (Lexeme.crosses_group crossesIn).append fun _ => crossesBehind
      rwa [List.cons_append, List.append_assoc] at group
    · have kinds : b.opener ≠ .comment ∧ b.opener ≠ .openParen ∧ b.opener ≠ .closeParen ∧
          b.closer ≠ .comment ∧ b.closer ≠ .openParen ∧ b.closer ≠ .closeParen := by
        cases b with
        | paren => exact absurd rfl bracket
        | _ => decide
      obtain ⟨opener, opener', opener'', closer, closer', closer''⟩ := kinds
      refine (Lexeme.read_crosses own opener opener' opener'').append fun _ => ?_
      refine crossesIn.append fun line => ?_
      rw [line_behind_stays othersIn line] at own'
      exact (Lexeme.read_crosses own' closer closer' closer'').append fun _ => crossesBehind

theorem space_face {faces : List TokenFace} (reads : ReadsFrom next lineStart faces) :
    ∀ face ∈ faces, face.1 = .space → ∀ c ∈ face.2, Lexeme.isSpace c = true := by
  induction faces generalizing lineStart with
  | nil => exact List.forall_mem_nil _
  | cons face rest ih =>
    obtain ⟨⟨first, tail, text, own⟩, later⟩ := reads
    refine List.forall_mem_cons.2 ⟨fun space => ?_, ih later⟩
    rw [space] at own
    have starts := Lexeme.read_space (congrArg Prod.fst own)
    rw [Lexeme.read, if_pos starts] at own
    have length := (Prod.mk.inj own).2
    rw [text]
    refine List.forall_mem_cons.2 ⟨starts, fun c member => ?_⟩
    refine @Lexeme.run_chars Lexeme.isSpace (tail ++ (rest.flatMap Prod.snd ++ next)) c ?_
    rwa [length, List.take_left]

/-- A group is no operand exactly if a line ends in it. -/
theorem group_operand {inner behind : List TokenFace} {opening close : List Char} (paired : Paired inner)
    (other : ∀ face ∈ inner, face.1 ≠ .comment)
    (reads : ReadsFrom next lineStart ((.openParen, opening) :: (inner ++ (.closeParen, close) :: behind))) :
    Lexeme.operandLength 1 ((inner ++ (.closeParen, close) :: behind).flatMap Prod.snd ++ next) = none ↔
      '\n' ∈ inner.flatMap Prod.snd := by
  obtain ⟨_, later⟩ := reads
  obtain ⟨readsIn, ⟨first, tail, rfl, own⟩, _⟩ := reads_from_append.1 later
  cases Lexeme.read_paren.2 (congrArg Prod.fst own)
  rw [List.flatMap_append, List.append_assoc, paired.crosses readsIn other 1 Nat.one_pos]
  by_cases line : '\n' ∈ inner.flatMap Prod.snd
  · rw [if_pos line]
    exact iff_of_true rfl line
  · rw [if_neg line, List.flatMap_cons, List.cons_append, List.cons_append, Lexeme.operandLength,
      if_pos (Nat.le_refl 1)]
    exact iff_of_false (Option.some_ne_none _) line

theorem first_carrying {faces : List TokenFace} (some : faces ≠ []) (last : ∀ face ∈ faces.getLast?, face.1 ≠ .space) :
    ∃ gap face rest, faces = gap ++ face :: rest ∧ (∀ blank ∈ gap, blank.1 = .space) ∧ face.1 ≠ .space := by
  induction faces with
  | nil => exact absurd rfl some
  | cons face rest ih =>
    by_cases space : face.1 = .space
    · cases rest with
      | nil => exact absurd space (last face rfl)
      | cons second rest =>
        obtain ⟨gap, found, behind, split, blanks, carries⟩ := ih (List.cons_ne_nil _ _) fun last' member =>
          last last' (by rwa [List.getLast?_cons_cons])
        exact ⟨face :: gap, found, behind, congrArg (face :: ·) split,
          List.forall_mem_cons.2 ⟨space, blanks⟩, carries⟩
    · exact ⟨[], face, rest, rfl, List.forall_mem_nil _, space⟩

/-- An operator finds no operand behind it among tokens whose brackets stand in pairs, whatever comes behind
them: where it looked for one, the same line end stops it. -/
theorem Paired.keeps_bare {faces : List TokenFace} (paired : Paired faces) (other : ∀ face ∈ faces, face.1 ≠ .comment)
    (last : ∀ face ∈ faces.getLast?, face.1 ≠ .space) (old new : List Char) : KeepsBare old new faces := by
  rintro front raw back rfl some readsOld readsNew bareOld
  obtain ⟨gap, ⟨kind, text⟩, rest, rfl, blanks, carries⟩ := first_carrying some fun face member => last face (by
    rwa [List.getLast?_append_of_ne_nil _ (List.cons_ne_nil _ _), List.getLast?_cons_of_ne_nil some])
  have blank : ∀ c ∈ gap.flatMap Prod.snd, Lexeme.isSpace c = true := by
    intro c member
    obtain ⟨face, inside, char⟩ := List.mem_flatMap.1 member
    exact space_face readsNew face (List.mem_append_left _ inside) (blanks face inside) c char
  obtain ⟨readsGap, ⟨first, tail, rfl, own⟩, readsRest⟩ := reads_from_append.1 readsNew
  have starts : Lexeme.isSpace first = false := by
    refine Bool.eq_false_iff.2 fun space => carries ?_
    rw [← congrArg Prod.fst own, Lexeme.read, if_pos space]
  have texts (next : List Char) : (gap ++ (kind, first :: tail) :: rest).flatMap Prod.snd ++ next =
      gap.flatMap Prod.snd ++ first :: (tail ++ (rest.flatMap Prod.snd ++ next)) := by
    rw [List.flatMap_append, List.flatMap_cons, List.append_assoc, List.append_assoc]
    rfl
  refine Lexeme.pragma_bare_iff.2 fun operand opens => ?_
  rw [texts, Lexeme.gap_then blank starts] at opens
  obtain ⟨gaps, rfl, rfl⟩ := opens
  cases (Prod.mk.inj own).1
  cases List.length_eq_zero_iff.1 (Prod.mk.inj own).2.symm
  obtain ⟨inner, close, behind, rfl, within⟩ := @paired.partner _ (front ++ (.pragma, raw) :: gap) rest .paren ['(']
    (by rw [List.append_assoc]; rfl)
  have others : ∀ face ∈ inner, face.1 ≠ .comment := fun face member => other face (by simp [member])
  have unclosed := Lexeme.pragma_bare_iff.1 bareOld _ (by
    rw [texts, Lexeme.gap_then blank starts]
    exact ⟨gaps, rfl, rfl⟩)
  have line := (group_operand within others (reads_from_append.1 readsOld).2).1 unclosed
  exact (group_operand within others (reads_from_append.1 readsNew).2).2 line

/-! ## Positions -/

/-- The token at a position, with the text that stands for it. -/
def faceAt (ts : TokenSeq) (i : Nat) : TokenFace :=
  ts.faces[i]?.getD (.unknown, [])

theorem face_at_kind (seen : ts.kind? i = some kind) : (ts.faceAt i).1 = kind := by
  obtain ⟨face, there, rfl⟩ := Option.map_eq_some_iff.1 ((ts.kind_of_faces i).symm.trans seen)
  rw [faceAt, there, Option.getD_some]

theorem faces_in_eq (inside : stop ≤ ts.size) :
    ts.facesIn start stop = (List.range' start (stop - start)).map ts.faceAt := by
  refine List.ext_getElem? fun i => ?_
  rw [facesIn, List.getElem?_map, List.getElem?_take, List.getElem?_drop]
  by_cases below : i < stop - start
  · rw [if_pos below, List.getElem?_range' below, Option.map_some, Nat.one_mul, faceAt,
      List.getElem?_eq_getElem (by rw [faces_length]; omega), Option.getD_some]
  · rw [if_neg below, List.getElem?_eq_none (by rw [List.length_range']; omega), Option.map_none]

theorem faces_in_length {ts : TokenSeq} {start stop : Nat} (inside : stop ≤ ts.size) :
    (ts.facesIn start stop).length = stop - start := by
  rw [faces_in_eq inside, List.length_map, List.length_range']

theorem faces_in_there (ts : TokenSeq) (start stop : Nat) : ts.FacesAt start (ts.facesIn start stop) :=
  List.take_prefix _ _

theorem blanks_paired (blank : ∀ i ∈ places, ts.isSignificant i = false) : Paired (places.map ts.faceAt) := by
  induction places with
  | nil => exact .nil
  | cons i places ih =>
    obtain ⟨here, later⟩ := List.forall_mem_cons.1 blank
    rw [List.map_cons]
    by_cases inside : i < ts.size
    · rcases trivia_kind inside here with space | comment
      · exact .token (by rw [face_at_kind space]; rfl) (by rw [face_at_kind space]; rfl) (ih later)
      · exact .token (by rw [face_at_kind comment]; rfl) (by rw [face_at_kind comment]; rfl) (ih later)
    · have none : ts.faceAt i = (.unknown, []) := by
        rw [faceAt, List.getElem?_eq_none (by rw [faces_length]; omega), Option.getD_none]
      exact .token (by rw [none]; rfl) (by rw [none]; rfl) (ih later)

/-- Brackets that stand in pairs do so with white space between them. -/
theorem Balanced.paired {tokens : List Nat} (balanced : ts.Balanced tokens)
    (listed : places.filter ts.isSignificant = tokens) : Paired (places.map ts.faceAt) := by
  induction balanced generalizing places with
  | nil =>
    refine blanks_paired fun i member => Bool.eq_false_iff.2 ?_
    exact List.filter_eq_nil_iff.1 listed i member
  | @token i rest kind seen opener closer behind ih =>
    obtain ⟨blanks, later, rfl, blank, _, listed⟩ := List.filter_eq_cons_iff.1 listed
    rw [List.map_append, List.map_cons]
    refine (blanks_paired fun i member => Bool.eq_false_iff.2 (blank i member)).append ?_
    exact .token (by rwa [face_at_kind seen]) (by rwa [face_at_kind seen]) (ih listed)
  | @group b opening close inner rest opens closes within behind ih ih' =>
    obtain ⟨blanks, later, rfl, blank, _, listed⟩ := List.filter_eq_cons_iff.1 listed
    obtain ⟨places, others, rfl, inside, listed⟩ := List.filter_eq_append_iff.1 listed
    obtain ⟨blanks', later, rfl, blank', _, listed⟩ := List.filter_eq_cons_iff.1 listed
    have pair : Paired ((b.opener, (ts.faceAt opening).2) ::
        ((places ++ blanks').map ts.faceAt ++ (b.closer, (ts.faceAt close).2) :: later.map ts.faceAt)) := by
      rw [List.map_append]
      refine .group ((ih inside).append ?_) (ih' listed)
      exact blanks_paired fun i member => Bool.eq_false_iff.2 (blank' i member)
    rw [← face_at_kind opens, ← face_at_kind closes] at pair
    have whole : (opening :: (places ++ (blanks' ++ close :: later))).map ts.faceAt = ts.faceAt opening ::
        ((places ++ blanks').map ts.faceAt ++ ts.faceAt close :: later.map ts.faceAt) := by
      simp only [List.map_cons, List.map_append, List.append_assoc]
    rw [List.map_append, whole]
    exact (blanks_paired fun i member => Bool.eq_false_iff.2 (blank i member)).append pair

/-- The positions of the tokens that carry meaning, the first token standing at `i`. -/
def carrying (i : Nat) : List TokenFace → List Nat
  | [] => []
  | face :: rest => if face.1.isTrivia then carrying (i + 1) rest else i :: carrying (i + 1) rest

theorem carrying_append (i : Nat) (front back : List TokenFace) :
    carrying i (front ++ back) = carrying i front ++ carrying (i + front.length) back := by
  induction front generalizing i with
  | nil => rfl
  | cons face front ih =>
    rw [List.cons_append, carrying, carrying, ih, List.length_cons, Nat.add_comm front.length, ← Nat.add_assoc]
    split <;> rfl

theorem FacesAt.significant {faces : List TokenFace} (there : ts.FacesAt i faces) :
    ts.significant i (i + faces.length) = carrying i faces := by
  induction faces generalizing i with
  | nil => rw [significant_eq, List.length_nil, Nat.add_zero, Nat.sub_self]; rfl
  | cons face rest ih =>
    have here : ts.isSignificant i = !face.1.isTrivia := by
      rw [isSignificant, kindIs, FacesAt.kind there, Option.any_some]
    have later := ih (faces_at_cons.1 there).2
    rw [significant_eq, Nat.add_sub_cancel_left] at later ⊢
    rw [List.length_cons, List.range'_succ, List.filter_cons, here, later, carrying]
    cases face.1.isTrivia <;> rfl

theorem Paired.balanced {faces : List TokenFace} (paired : Paired faces) (there : ts.FacesAt i faces) :
    ts.Balanced (carrying i faces) := by
  induction paired generalizing i with
  | nil => exact .nil
  | @token face rest opener closer _ ih =>
    have later := ih (faces_at_cons.1 there).2
    rw [carrying]
    split
    · exact later
    · exact .token (FacesAt.kind there) opener closer later
  | @group b opening close inner rest _ _ ih ih' =>
    obtain ⟨_, behind⟩ := faces_at_cons.1 there
    obtain ⟨within, closing⟩ := faces_at_append behind
    have opener : (b.opener, opening).1.isTrivia = false := b.opener_significant
    have closer : (b.closer, close).1.isTrivia = false := b.closer_significant
    rw [carrying, opener, if_neg Bool.false_ne_true, carrying_append, carrying, closer, if_neg Bool.false_ne_true]
    exact .group (FacesAt.kind there) (FacesAt.kind closing) (ih within) (ih' (faces_at_cons.1 closing).2)

end TokenSeq

end AllocGuard
