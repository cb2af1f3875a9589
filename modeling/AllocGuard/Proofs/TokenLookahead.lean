import AllocGuard.Proofs.TokenEdges

/-! How far a token looks. A token that ends inside a text is read in the same way when the text goes
on, and one that ends inside a longer text is read in the same way when the text is cut off behind it.
Two tokens look further than at the character behind them: a dot looks at two, and a pragma operator
looks for an operand on its line. -/
namespace AllocGuard.Lexeme

variable {lineStart : Bool} {c first d : Char} {spelling : String} {depth length : Nat}
  {cs after rest tail more : List Char} {reader : List Char → TokenKind × Nat}

/-! ## Counts of leading characters -/

/-- A count of leading characters that stops inside a text does not depend on what follows the text.
One that does not stop there goes on. -/
structure Local (length : List Char → Nat) : Prop where
  le (cs : List Char) : length cs ≤ cs.length
  stops {cs : List Char} (inside : length cs < cs.length) (more : List Char) :
    length (cs ++ more) = length cs
  goesOn {cs : List Char} (whole : length cs = cs.length) (more : List Char) :
    cs.length ≤ length (cs ++ more)

/-- A count that stops inside a longer text is the same when the text is cut off behind it. -/
theorem Local.front {length : List Char → Nat} (stable : Local length) (inside : length (cs ++ more) ≤ cs.length) :
    length cs = length (cs ++ more) := by
  rcases Nat.lt_or_eq_of_le (stable.le cs) with stops | whole
  · exact (stable.stops stops more).symm
  · exact whole.trans (Nat.le_antisymm (stable.goesOn whole more) inside)

theorem run_length_whole {p : Char → Bool} (whole : runLength p cs = cs.length) (more : List Char) :
    runLength p (cs ++ more) = cs.length + runLength p more := by
  induction cs with
  | nil => rw [List.nil_append, List.length_nil, Nat.zero_add]
  | cons c cs ih =>
    rw [run_length_cons] at whole
    rw [List.cons_append, run_length_cons, List.length_cons]
    split at whole
    · rename_i passes
      rw [if_pos passes, ih (Nat.succ.inj whole)]
      omega
    · cases whole

theorem run_length_local (p : Char → Bool) : Local (runLength p) where
  le cs := (List.takeWhile_prefix p).length_le
  stops {cs} inside more := by
    induction cs with
    | nil => cases inside
    | cons c cs ih =>
      rw [List.cons_append, run_length_cons, run_length_cons]
      rw [run_length_cons] at inside
      split at inside
      · rename_i passes
        rw [if_pos passes, if_pos passes, ih (Nat.lt_of_succ_lt_succ inside)]
      · rename_i stops
        rw [if_neg stops, if_neg stops]
  goesOn {cs} whole more := by
    induction cs with
    | nil => exact Nat.zero_le _
    | cons c cs ih =>
      rw [List.cons_append, run_length_cons]
      rw [run_length_cons] at whole
      split at whole
      · rename_i passes
        rw [if_pos passes]
        exact Nat.succ_le_succ (ih (Nat.succ.inj whole))
      · cases whole

/-- The first character of a text that goes on is its own. -/
theorem head_of_append (some : cs ≠ []) (split : cs ++ more = d :: tail) : ∃ own, cs = d :: own := by
  cases cs with
  | nil => exact absurd rfl some
  | cons c cs => exact ⟨cs, by rw [(List.cons.inj split).1]⟩

theorem block_length_cons (other : ∀ tail, c = '*' → rest = '/' :: tail → False) :
    blockLength (c :: rest) = blockLength rest + 1 :=
  blockLength.eq_3 c rest other

theorem block_length_pos (some : cs ≠ []) : 0 < blockLength cs := by
  fun_cases blockLength cs with
  | case1 => exact absurd rfl some
  | case2 tail => exact Nat.zero_lt_two
  | case3 c rest other => exact Nat.succ_pos _

theorem block_length_local : Local blockLength where
  le cs := by
    fun_induction blockLength cs with
    | case1 => exact Nat.le_refl 0
    | case2 tail => exact Nat.le_add_left 2 tail.length
    | case3 c rest other ih => exact Nat.succ_le_succ ih
  stops {cs} inside more := by
    fun_induction blockLength cs with
    | case1 => cases inside
    | case2 tail => rfl
    | case3 c rest other ih =>
      have shorter : blockLength rest < rest.length := Nat.lt_of_succ_lt_succ inside
      rw [List.cons_append, block_length_cons, ih shorter]
      intro tail star slash
      obtain ⟨own, here⟩ := head_of_append (List.ne_nil_of_length_pos (Nat.zero_lt_of_lt shorter)) slash
      exact other own star here
  goesOn {cs} whole more := by
    fun_induction blockLength cs with
    | case1 => exact Nat.zero_le _
    | case2 tail => exact Nat.le_of_eq whole.symm
    | case3 c rest other ih =>
      cases rest with
      | nil => exact block_length_pos (List.cons_ne_nil c more)
      | cons d rest =>
        rw [List.cons_append, block_length_cons]
        · exact Nat.succ_le_succ (ih (Nat.succ.inj whole))
        · intro tail star slash
          obtain ⟨own, here⟩ := head_of_append (List.cons_ne_nil d rest) slash
          exact other own star here

theorem quoted_escape_pos (quote : Char) (rest : List Char) : 0 < quotedLength quote ('\\' :: rest) := by
  cases rest with
  | nil => exact Nat.zero_lt_one
  | cons c rest =>
    by_cases newline : c = '\n'
    · subst newline
      exact Nat.zero_lt_one
    · rw [quoted_length_escape newline]
      exact Nat.succ_pos _

theorem quoted_length_local (quote : Char) : Local (quotedLength quote) where
  le cs := by
    fun_induction quotedLength quote cs with
    | case1 => exact Nat.le_refl 0
    | case2 tail => exact Nat.zero_le _
    | case3 => exact Nat.le_refl 1
    | case4 tail => exact Nat.le_add_left 1 _
    | case5 c rest newline ih => exact Nat.add_le_add_right ih 2
    | case6 rest => exact Nat.le_add_left 1 _
    | case7 c rest _ _ _ _ _ ih => exact Nat.succ_le_succ ih
  stops {cs} inside more := by
    fun_induction quotedLength quote cs with
    | case1 => cases inside
    | case2 tail => rfl
    | case3 => cases inside with | step less => cases less
    | case4 tail => rfl
    | case5 c rest newline ih =>
      rw [List.cons_append, List.cons_append, quoted_length_escape newline, ih (Nat.lt_of_add_lt_add_right inside)]
    | case6 rest newline last joined escape =>
      rw [List.cons_append, quoted_length_cons newline (not_escape last escape), if_pos rfl]
    | case7 c rest newline last joined escape other ih =>
      rw [List.cons_append, quoted_length_cons newline (not_escape last escape), if_neg other,
        ih (Nat.lt_of_succ_lt_succ inside)]
  goesOn {cs} whole more := by
    fun_induction quotedLength quote cs with
    | case1 => exact Nat.zero_le _
    | case2 tail => cases whole
    | case3 => exact quoted_escape_pos quote more
    | case4 tail => cases whole
    | case5 c rest newline ih =>
      rw [List.cons_append, List.cons_append, quoted_length_escape newline]
      exact Nat.add_le_add_right (ih (Nat.add_right_cancel whole)) 2
    | case6 rest newline last joined escape =>
      rw [List.cons_append, quoted_length_cons newline (not_escape last escape), if_pos rfl]
      exact Nat.le_of_eq whole.symm
    | case7 c rest newline last joined escape other ih =>
      rw [List.cons_append, quoted_length_cons newline (not_escape last escape), if_neg other]
      exact Nat.succ_le_succ (ih (Nat.succ.inj whole))

/-! ## Counts behind other counts -/

section Behind

variable {inner outer : List Char → Nat} {rest more : List Char}

/-- A count behind another one that stops inside a text does not depend on what follows. -/
theorem behind_stops (stable : Local inner) (inside : outer (rest.drop (inner rest)) + inner rest < rest.length)
    (later : outer (rest.drop (inner rest)) < (rest.drop (inner rest)).length →
      outer (rest.drop (inner rest) ++ more) = outer (rest.drop (inner rest))) :
    outer ((rest ++ more).drop (inner (rest ++ more))) + inner (rest ++ more) =
      outer (rest.drop (inner rest)) + inner rest := by
  have first : inner rest < rest.length := by omega
  rw [stable.stops first more, List.drop_append_of_le_length (Nat.le_of_lt first), later]
  rw [List.length_drop]
  omega

/-- A count behind another one that does not stop inside a text goes on. -/
theorem behind_goes_on (stable : Local inner) (whole : outer (rest.drop (inner rest)) + inner rest = rest.length)
    (later : outer (rest.drop (inner rest)) = (rest.drop (inner rest)).length →
      (rest.drop (inner rest)).length ≤ outer (rest.drop (inner rest) ++ more)) :
    rest.length ≤ outer ((rest ++ more).drop (inner (rest ++ more))) + inner (rest ++ more) := by
  rcases Nat.lt_or_eq_of_le (stable.le rest) with first | all
  · have second := later (by rw [List.length_drop]; omega)
    rw [List.length_drop] at second
    rw [stable.stops first more, List.drop_append_of_le_length (Nat.le_of_lt first)]
    omega
  · have first := stable.goesOn all more
    omega

end Behind

theorem directive_length_pos (newline : c ≠ '\n') (rest : List Char) : 0 < directiveLength (c :: rest) := by
  generalize whole : c :: rest = cs
  fun_cases directiveLength cs with
  | case1 => cases whole
  | case2 tail => exact absurd (List.cons.inj whole).1 newline
  | case3 | case4 | case5 | case6 => exact Nat.succ_pos _

theorem directive_quote (quotes : isQuote c = true) (rest : List Char) :
    directiveLength (c :: rest) =
      directiveLength (rest.drop (quotedLength c rest)) + quotedLength c rest + 1 := by
  have apart {d : Char} (other : isQuote d = false) : c ≠ d := by
    rintro rfl
    rw [quotes] at other
    cases other
  rw [directive_length_cons (apart (by decide)) (fun _ same => absurd same (apart (by decide)))
    (fun _ same => absurd same (apart (by decide))), if_pos quotes]

theorem directive_other (newline : c = '\n' → False) (block : ∀ tail, c = '/' → rest = '*' :: tail → False)
    (line : ∀ tail, c = '/' → rest = '/' :: tail → False) (other : ¬ isQuote c = true) (some : rest ≠ []) :
    directiveLength (c :: (rest ++ more)) = directiveLength (rest ++ more) + 1 := by
  rw [directive_length_cons newline, if_neg other]
  · intro tail slash star
    obtain ⟨own, here⟩ := head_of_append some star
    exact block own slash here
  · intro tail slash slash'
    obtain ⟨own, here⟩ := head_of_append some slash'
    exact line own slash here

theorem directive_length_local : Local directiveLength where
  le cs := by
    fun_induction directiveLength cs with
    | case1 => exact Nat.le_refl 0
    | case2 tail => exact Nat.zero_le _
    | case3 rest block ih =>
      have first := block_length_local.le rest
      rw [List.length_drop] at ih
      rw [List.length_cons, List.length_cons]
      omega
    | case4 rest => exact Nat.add_le_add_right ((run_length_local _).le rest) 2
    | case5 c rest _ _ _ quotes quoted ih =>
      have first := (quoted_length_local c).le rest
      rw [List.length_drop] at ih
      rw [List.length_cons]
      omega
    | case6 c rest _ _ _ other ih => exact Nat.succ_le_succ ih
  stops {cs} inside more := by
    fun_induction directiveLength cs with
    | case1 => cases inside
    | case2 tail => exact directiveLength.eq_2 _
    | case3 rest block ih =>
      rw [List.cons_append, List.cons_append, directiveLength]
      exact congrArg (· + 2)
        (behind_stops block_length_local (Nat.lt_of_add_lt_add_right (n := 2) inside) ih)
    | case4 rest =>
      rw [List.cons_append, List.cons_append, directiveLength]
      exact congrArg (· + 2) ((run_length_local _).stops (Nat.lt_of_add_lt_add_right inside) more)
    | case5 c rest newline block line quotes quoted ih =>
      rw [List.cons_append, directive_quote quotes]
      exact congrArg (· + 1)
        (behind_stops (quoted_length_local c) (Nat.lt_of_succ_lt_succ inside) ih)
    | case6 c rest newline block line other ih =>
      have shorter : directiveLength rest < rest.length := Nat.lt_of_succ_lt_succ inside
      have some : rest ≠ [] := List.ne_nil_of_length_pos (Nat.zero_lt_of_lt shorter)
      rw [List.cons_append, directive_other newline block line other some, ih shorter]
  goesOn {cs} whole more := by
    fun_induction directiveLength cs with
    | case1 => exact Nat.zero_le _
    | case2 tail => cases whole
    | case3 rest block ih =>
      rw [List.cons_append, List.cons_append, directiveLength]
      exact Nat.add_le_add_right
        (behind_goes_on block_length_local (Nat.add_right_cancel (m := 2) whole) ih) 2
    | case4 rest =>
      rw [List.cons_append, List.cons_append, directiveLength]
      exact Nat.add_le_add_right ((run_length_local _).goesOn (Nat.add_right_cancel whole) more) 2
    | case5 c rest newline block line quotes quoted ih =>
      rw [List.cons_append, directive_quote quotes]
      exact Nat.succ_le_succ (behind_goes_on (quoted_length_local c) (Nat.succ.inj whole) ih)
    | case6 c rest newline block line other ih =>
      by_cases some : rest = []
      · subst some
        exact directive_length_pos newline more
      · rw [List.cons_append, directive_other newline block line other some]
        exact Nat.succ_le_succ (ih (Nat.succ.inj whole))

theorem number_length_local (before : Bool) : Local (numberLength before) where
  le cs := by
    fun_induction numberLength before cs with
    | case1 before => exact Nat.le_refl 0
    | case2 before c rest goesOn ih => exact Nat.succ_le_succ ih
    | case3 before c rest stops sign ih => exact Nat.succ_le_succ ih
    | case4 before c rest stops unsigned => exact Nat.zero_le _
  stops {cs} inside more := by
    fun_induction numberLength before cs with
    | case1 before => cases inside
    | case2 before c rest goesOn ih =>
      rw [List.cons_append, numberLength, if_pos goesOn, ih (Nat.lt_of_succ_lt_succ inside)]
    | case3 before c rest stops sign ih =>
      rw [List.cons_append, numberLength, if_neg stops, if_pos sign, ih (Nat.lt_of_succ_lt_succ inside)]
    | case4 before c rest stops unsigned =>
      rw [List.cons_append, numberLength, if_neg stops, if_neg unsigned]
  goesOn {cs} whole more := by
    fun_induction numberLength before cs with
    | case1 before => exact Nat.zero_le _
    | case2 before c rest goesOn ih =>
      rw [List.cons_append, numberLength, if_pos goesOn]
      exact Nat.succ_le_succ (ih (Nat.succ.inj whole))
    | case3 before c rest stops sign ih =>
      rw [List.cons_append, numberLength, if_neg stops, if_pos sign]
      exact Nat.succ_le_succ (ih (Nat.succ.inj whole))
    | case4 before c rest stops unsigned => cases whole

/-! ## Operands -/

/-- An operand that ends inside a text is the same when the text goes on. -/
theorem operand_length_append (found : operandLength depth cs = some length) (more : List Char) :
    0 < length ∧ length ≤ cs.length ∧ operandLength depth (cs ++ more) = some length := by
  fun_induction operandLength depth cs generalizing length with
  | case1 | case2 => cases found
  | case3 depth rest ih =>
    obtain ⟨shorter, here, rfl⟩ := Option.map_eq_some_iff.1 found
    obtain ⟨_, inside, later⟩ := ih here
    refine ⟨Nat.succ_pos _, Nat.succ_le_succ inside, ?_⟩
    rw [List.cons_append, operandLength, later, Option.map_some]
  | case4 depth rest ends =>
    cases found
    refine ⟨Nat.zero_lt_one, Nat.le_add_left 1 _, ?_⟩
    rw [List.cons_append, operandLength, if_pos ends]
  | case5 depth rest deep ih =>
    obtain ⟨shorter, here, rfl⟩ := Option.map_eq_some_iff.1 found
    obtain ⟨_, inside, later⟩ := ih here
    refine ⟨Nat.succ_pos _, Nat.succ_le_succ inside, ?_⟩
    rw [List.cons_append, operandLength, if_neg deep, later, Option.map_some]
  | case6 depth c rest newline opens closes quotes quoted =>
    rename_i ih
    obtain ⟨shorter, here, rfl⟩ := Option.map_eq_some_iff.1 found
    obtain ⟨some, inside, later⟩ := ih here
    rw [List.length_drop] at inside
    have first : quotedLength c rest < rest.length := by omega
    refine ⟨Nat.succ_pos _, ?_, ?_⟩
    · rw [List.length_cons]
      omega
    · rw [List.cons_append, operand_length_cons depth newline opens closes, if_pos quotes,
        (quoted_length_local c).stops first more, List.drop_append_of_le_length (Nat.le_of_lt first),
        later, Option.map_some]
  | case7 depth c rest newline opens closes other ih =>
    obtain ⟨shorter, here, rfl⟩ := Option.map_eq_some_iff.1 found
    obtain ⟨_, inside, later⟩ := ih here
    refine ⟨Nat.succ_pos _, Nat.succ_le_succ inside, ?_⟩
    rw [List.cons_append, operand_length_cons depth newline opens closes, if_neg other, later, Option.map_some]

/-- An operand that ends inside a longer text is the same when the text is cut off behind it. -/
theorem operand_length_front (found : operandLength depth (cs ++ more) = some length) (inside : length ≤ cs.length) :
    operandLength depth cs = some length := by
  have step {depth : Nat} {rest : List Char} {length : Nat}
      (found : (operandLength depth (rest ++ more)).map (· + 1) = some length)
      (inside : length ≤ rest.length + 1)
      (later : ∀ {length}, operandLength depth (rest ++ more) = some length → length ≤ rest.length →
        operandLength depth rest = some length) :
      (operandLength depth rest).map (· + 1) = some length := by
    obtain ⟨shorter, here, rfl⟩ := Option.map_eq_some_iff.1 found
    rw [later here (Nat.le_of_succ_le_succ inside), Option.map_some]
  induction depth, cs using operandLength.induct generalizing length with
  | case1 depth =>
    obtain ⟨some, _⟩ := operand_length_append found []
    exact absurd inside (Nat.not_le_of_lt some)
  | case2 depth rest =>
    rw [List.cons_append, operandLength] at found
    cases found
  | case3 depth rest ih =>
    rw [List.cons_append, operandLength] at found
    rw [operandLength]
    exact step found inside ih
  | case4 depth rest ends =>
    rw [List.cons_append, operandLength, if_pos ends] at found
    rw [operandLength, if_pos ends, found]
  | case5 depth rest deep ih =>
    rw [List.cons_append, operandLength, if_neg deep] at found
    rw [operandLength, if_neg deep]
    exact step found inside ih
  | case6 depth c rest newline opens closes quotes quoted =>
    rename_i ih
    rw [List.cons_append, operand_length_cons depth newline opens closes, if_pos quotes] at found
    obtain ⟨shorter, here, rfl⟩ := Option.map_eq_some_iff.1 found
    obtain ⟨some, _⟩ := operand_length_append here []
    rw [List.length_cons] at inside
    have first : quotedLength c (rest ++ more) < rest.length := by omega
    have same := (quoted_length_local c).front (Nat.le_of_lt first)
    rw [← same] at here inside first
    rw [List.drop_append_of_le_length (Nat.le_of_lt first)] at here
    rw [operand_length_cons depth newline opens closes, if_pos quotes, ← same,
      ih here (by rw [List.length_drop]; omega), Option.map_some]
  | case7 depth c rest newline opens closes other ih =>
    rw [List.cons_append, operand_length_cons depth newline opens closes, if_neg other] at found
    rw [operand_length_cons depth newline opens closes, if_neg other]
    exact step found inside ih

/-- The blanks between a pragma operator and its operand. -/
def gapLength (cs : List Char) : Nat :=
  runLength (fun c => c == ' ' || c == '\t') cs

/-- What a pragma operator takes after its keyword. -/
theorem pragma_length_iff (some : 0 < length) :
    pragmaLength cs = length ↔
      ∃ operand taken, cs.drop (gapLength cs) = '(' :: operand ∧ operandLength 1 operand = .some taken ∧
        length = gapLength cs + 1 + taken := by
  unfold pragmaLength gapLength
  dsimp only
  split
  · rename_i operand opens
    cases found : operandLength 1 operand with
    | none =>
      constructor
      · rintro rfl
        cases some
      · rintro ⟨other, taken, opens', found', _⟩
        obtain rfl := (List.cons.inj (opens.symm.trans opens')).2
        rw [found] at found'
        cases found'
    | some taken =>
      constructor
      · rintro rfl
        exact ⟨operand, taken, opens, found, rfl⟩
      · rintro ⟨other, taken', opens', found', rfl⟩
        obtain rfl := (List.cons.inj (opens.symm.trans opens')).2
        obtain rfl := Option.some.inj (found.symm.trans found')
        rfl
  · rename_i other
    constructor
    · rintro rfl
      cases some
    · rintro ⟨operand, _, opens, _⟩
      exact absurd opens (other operand)

theorem pragma_length_append (some : 0 < pragmaLength cs) (more : List Char) :
    pragmaLength cs ≤ cs.length ∧ pragmaLength (cs ++ more) = pragmaLength cs := by
  obtain ⟨operand, taken, opens, found, length⟩ := (pragma_length_iff some).1 rfl
  have size := congrArg List.length opens
  rw [List.length_drop, List.length_cons] at size
  obtain ⟨_, inside, later⟩ := operand_length_append found more
  have gap : gapLength cs < cs.length := by omega
  refine ⟨by omega, (pragma_length_iff some).2 ⟨operand ++ more, taken, ?_, later, ?_⟩⟩
  · rw [gapLength, (run_length_local _).stops gap, ← gapLength,
      List.drop_append_of_le_length (Nat.le_of_lt gap), opens, List.cons_append]
  · rw [gapLength, (run_length_local _).stops gap, ← gapLength, length]

theorem pragma_length_le (cs : List Char) : pragmaLength cs ≤ cs.length := by
  rcases Nat.eq_zero_or_pos (pragmaLength cs) with none | some
  · rw [none]
    exact Nat.zero_le _
  · exact (pragma_length_append some []).1

theorem pragma_length_front (inside : pragmaLength (cs ++ more) ≤ cs.length) :
    pragmaLength cs = pragmaLength (cs ++ more) := by
  rcases Nat.eq_zero_or_pos (pragmaLength (cs ++ more)) with none | some
  · rw [none]
    refine Nat.eq_zero_of_not_pos fun some => ?_
    rw [(pragma_length_append some more).2] at none
    exact absurd none (Nat.ne_of_gt some)
  · obtain ⟨operand, taken, opens, found, length⟩ := (pragma_length_iff some).1 rfl
    have gap : gapLength (cs ++ more) < cs.length := by omega
    have same : gapLength cs = gapLength (cs ++ more) := (run_length_local _).front (Nat.le_of_lt gap)
    rw [← same] at opens length gap
    rw [List.drop_append_of_le_length (Nat.le_of_lt gap)] at opens
    have behind : cs.drop (gapLength cs) ≠ [] := by
      rw [Ne, List.drop_eq_nil_iff]
      omega
    obtain ⟨own, here⟩ := head_of_append behind opens
    have size := congrArg List.length here
    rw [List.length_drop, List.length_cons] at size
    rw [here] at opens
    obtain rfl := (List.cons.inj opens).2
    exact (pragma_length_iff some).2
      ⟨own, taken, here, operand_length_front found (by omega), length⟩

/-! ## Words -/

/-- The characters of a text that belong to the word at its front. -/
def wordLength (cs : List Char) : Nat :=
  runLength isIdentChar cs

/-- A word that is no part of a literal, with what stands behind it. -/
def plainWord (spelling : String) (length : Nat) (after : List Char) : TokenKind × Nat :=
  match TokenKind.ofKeyword? spelling with
  | some .pragma => (.pragma, length + pragmaLength after)
  | some kind => (kind, length)
  | none => (.identifier, length)

def literalKind (quote : Char) : TokenKind :=
  if quote = '"' then .string else .character

/-- The word marks a literal, whose quote comes right behind it. -/
structure MarksLiteral (spelling : String) (after : List Char) (quote : Char) (tail : List Char) : Prop where
  mark : isLiteralMark spelling = true
  quotes : isQuote quote = true
  behind : after = quote :: tail

/-- What a word is read as, if `after` stands behind its `length` further characters. -/
def wordBefore (spelling : String) (length : Nat) (after : List Char) : TokenKind × Nat :=
  if isLiteralMark spelling && follows after '"' then
    (.string, length + 1 + quotedLength '"' after.tail)
  else if isLiteralMark spelling && follows after '\'' then
    (.character, length + 1 + quotedLength '\'' after.tail)
  else plainWord spelling length after

theorem word_eq (first : Char) (rest : List Char) :
    word first rest =
      wordBefore (String.ofList (first :: rest.take (wordLength rest))) (wordLength rest)
        (rest.drop (wordLength rest)) :=
  rfl

theorem word_before_literal {quote : Char} (literal : MarksLiteral spelling after quote tail) (length : Nat) :
    wordBefore spelling length after = (literalKind quote, length + 1 + quotedLength quote tail) := by
  obtain ⟨mark, quotes, rfl⟩ := literal
  unfold wordBefore
  rw [mark]
  rcases (Bool.or_eq_true _ _).mp quotes with double | single
  · obtain rfl := beq_iff_eq.1 double
    rfl
  · obtain rfl := beq_iff_eq.1 single
    rfl

theorem word_before_plain (plain : ∀ quote tail, ¬ MarksLiteral spelling after quote tail) (length : Nat) :
    wordBefore spelling length after = plainWord spelling length after := by
  have other {quote : Char} (quotes : isQuote quote = true) :
      ¬ (isLiteralMark spelling && follows after quote) = true := by
    intro marks
    obtain ⟨mark, here⟩ := (Bool.and_eq_true _ _).mp marks
    obtain ⟨tail, behind⟩ := follows_iff.1 here
    exact plain quote tail ⟨mark, quotes, behind⟩
  unfold wordBefore
  rw [if_neg (other rfl), if_neg (other rfl)]

theorem plain_word_le (spelling : String) (length : Nat) (after : List Char) :
    length ≤ (plainWord spelling length after).2 ∧
      (plainWord spelling length after).2 ≤ length + after.length := by
  have operand := pragma_length_le after
  unfold plainWord
  split <;> constructor <;> dsimp only <;> omega

theorem plain_word_front (inside : (plainWord spelling length (after ++ more)).2 ≤ length + after.length) :
    plainWord spelling length after = plainWord spelling length (after ++ more) := by
  unfold plainWord at inside ⊢
  split
  · rename_i pragma
    rw [pragma] at inside
    rw [pragma_length_front (Nat.le_of_add_le_add_left inside)]
  · rfl
  · rfl

theorem word_before_le (spelling : String) (length : Nat) (after : List Char) :
    length ≤ (wordBefore spelling length after).2 ∧
      (wordBefore spelling length after).2 ≤ length + after.length := by
  by_cases literal : ∃ quote tail, MarksLiteral spelling after quote tail
  · obtain ⟨quote, tail, literal⟩ := literal
    have quoted := (quoted_length_local quote).le tail
    rw [word_before_literal literal, literal.behind, List.length_cons]
    constructor <;> dsimp only <;> omega
  · rw [word_before_plain fun quote tail found => literal ⟨quote, tail, found⟩]
    exact plain_word_le spelling length after

theorem word_before_front (inside : (wordBefore spelling length (after ++ more)).2 ≤ length + after.length) :
    wordBefore spelling length after = wordBefore spelling length (after ++ more) := by
  by_cases literal : ∃ quote tail, MarksLiteral spelling (after ++ more) quote tail
  · obtain ⟨quote, tail, literal⟩ := literal
    rw [word_before_literal literal] at inside ⊢
    dsimp only at inside
    have some : after ≠ [] := List.ne_nil_of_length_pos (by omega)
    obtain ⟨own, rfl⟩ := head_of_append some literal.behind
    obtain rfl : own ++ more = tail := (List.cons.inj literal.behind).2
    rw [List.length_cons] at inside
    have quoted : quotedLength quote (own ++ more) ≤ own.length := by omega
    rw [word_before_literal ⟨literal.mark, literal.quotes, rfl⟩, (quoted_length_local quote).front quoted]
  · have long := fun quote tail found => literal ⟨quote, tail, found⟩
    have short (quote : Char) (tail : List Char) : ¬ MarksLiteral spelling after quote tail := by
      rintro ⟨mark, quotes, rfl⟩
      exact long quote (tail ++ more) ⟨mark, quotes, rfl⟩
    rw [word_before_plain long] at inside ⊢
    rw [word_before_plain short, plain_word_front inside]

/-- A pragma operator that stands alone has no operand yet. -/
theorem word_before_stops (inside : (wordBefore spelling length after).2 < length + after.length)
    (given : (wordBefore spelling length after).1 = .pragma → length < (wordBefore spelling length after).2)
    (more : List Char) : wordBefore spelling length (after ++ more) = wordBefore spelling length after := by
  have some : after ≠ [] := List.ne_nil_of_length_pos (by have own := (word_before_le spelling length after).1; omega)
  by_cases literal : ∃ quote tail, MarksLiteral spelling after quote tail
  · obtain ⟨quote, tail, mark, quotes, rfl⟩ := literal
    rw [word_before_literal ⟨mark, quotes, rfl⟩] at inside ⊢
    rw [List.length_cons] at inside
    dsimp only at inside
    rw [List.cons_append, word_before_literal ⟨mark, quotes, rfl⟩, (quoted_length_local quote).stops (by omega)]
  · have short := fun quote tail found => literal ⟨quote, tail, found⟩
    have long (quote : Char) (tail : List Char) : ¬ MarksLiteral spelling (after ++ more) quote tail := by
      rintro ⟨mark, quotes, behind⟩
      obtain ⟨own, rfl⟩ := head_of_append some behind
      exact short quote own ⟨mark, quotes, rfl⟩
    rw [word_before_plain short] at given ⊢
    rw [word_before_plain long]
    unfold plainWord at given ⊢
    split
    · rename_i pragma
      rw [pragma] at given
      have operand : 0 < pragmaLength after := by
        have taken := given rfl
        dsimp only at taken
        omega
      rw [(pragma_length_append operand more).2]
    · rfl
    · rfl

/-- Only its keyword makes a word a pragma operator. -/
theorem word_before_pragma {spelling : String} {length : Nat} {after : List Char}
    (pragma : (wordBefore spelling length after).1 = .pragma) : TokenKind.ofKeyword? spelling = some .pragma := by
  by_cases literal : ∃ quote tail, MarksLiteral spelling after quote tail
  · obtain ⟨quote, tail, literal⟩ := literal
    rw [word_before_literal literal] at pragma
    unfold literalKind at pragma
    split at pragma <;> cases pragma
  · rw [word_before_plain fun quote tail found => literal ⟨quote, tail, found⟩] at pragma
    unfold plainWord at pragma
    split at pragma
    · assumption
    · rename_i known
      rw [known]
      exact congrArg some pragma
    · cases pragma

/-- A word that ends inside a text is of the same kind when the text goes on. -/
theorem word_before_kind (some : after ≠ []) (more : List Char) :
    (wordBefore spelling length (after ++ more)).1 = (wordBefore spelling length after).1 := by
  by_cases literal : ∃ quote tail, MarksLiteral spelling after quote tail
  · obtain ⟨quote, tail, mark, quotes, rfl⟩ := literal
    rw [List.cons_append, word_before_literal ⟨mark, quotes, rfl⟩, word_before_literal ⟨mark, quotes, rfl⟩]
  · have short := fun quote tail found => literal ⟨quote, tail, found⟩
    have long (quote : Char) (tail : List Char) : ¬ MarksLiteral spelling (after ++ more) quote tail := by
      rintro ⟨mark, quotes, behind⟩
      obtain ⟨own, rfl⟩ := head_of_append some behind
      exact short quote own ⟨mark, quotes, rfl⟩
    rw [word_before_plain short, word_before_plain long]
    unfold plainWord
    split <;> rfl

theorem keyword_kind {kind : TokenKind} (keyword : TokenKind.ofKeyword? spelling = some kind) :
    kind.isKeyword = true := by
  unfold TokenKind.ofKeyword? at keyword
  split at keyword <;> cases keyword <;> rfl

/-- What starts like a word is one, or a literal with a mark. -/
theorem word_before_word (spelling : String) (length : Nat) (after : List Char) :
    let kind := (wordBefore spelling length after).1
    kind.isWord = true ∨ kind = .string ∨ kind = .character := by
  by_cases literal : ∃ quote tail, MarksLiteral spelling after quote tail
  · obtain ⟨quote, tail, literal⟩ := literal
    rw [word_before_literal literal]
    unfold literalKind
    split
    · exact .inr (.inl rfl)
    · exact .inr (.inr rfl)
  · rw [word_before_plain fun quote tail found => literal ⟨quote, tail, found⟩]
    unfold plainWord
    split
    · exact .inl rfl
    · rename_i known
      refine .inl ?_
      rw [TokenKind.isWord, keyword_kind known, Bool.or_true]
    · exact .inl rfl

theorem word_length_le (cs : List Char) : wordLength cs ≤ cs.length :=
  (run_length_local _).le cs

theorem word_le (first : Char) (rest : List Char) :
    wordLength rest ≤ (word first rest).2 ∧ (word first rest).2 ≤ rest.length := by
  have own := word_length_le rest
  have bounds := word_before_le (String.ofList (first :: rest.take (wordLength rest)))
    (wordLength rest) (rest.drop (wordLength rest))
  rw [List.length_drop, ← word_eq] at bounds
  omega

theorem word_front (inside : (word first (cs ++ more)).2 ≤ cs.length) : word first cs = word first (cs ++ more) := by
  have own : wordLength (cs ++ more) ≤ cs.length := Nat.le_trans (word_le first (cs ++ more)).1 inside
  have same : wordLength cs = wordLength (cs ++ more) := (run_length_local _).front own
  rw [← same] at own
  have behind : cs.length = wordLength cs + (cs.drop (wordLength cs)).length := by
    rw [List.length_drop]
    omega
  rw [word_eq, ← same, List.take_append_of_le_length own, List.drop_append_of_le_length own, behind]
    at inside
  rw [word_eq, word_eq first (cs ++ more), ← same, List.take_append_of_le_length own,
    List.drop_append_of_le_length own]
  exact word_before_front inside

/-- A pragma operator with nothing but its keyword. -/
def isBarePragma (token : TokenKind) (spelling : List Char) : Bool :=
  token == .pragma && TokenKind.ofKeyword? (String.ofList spelling) == some .pragma

theorem word_stops (inside : (word first cs).2 < cs.length)
    (given : isBarePragma (word first cs).1 (first :: cs.take (word first cs).2) = false) (more : List Char) :
    word first (cs ++ more) = word first cs := by
  have own : wordLength cs < cs.length := Nat.lt_of_le_of_lt (word_le first cs).1 inside
  have same : wordLength (cs ++ more) = wordLength cs := (run_length_local _).stops own more
  have behind : cs.length = wordLength cs + (cs.drop (wordLength cs)).length := by
    rw [List.length_drop]
    omega
  rw [word_eq first (cs ++ more), same, List.take_append_of_le_length (Nat.le_of_lt own),
    List.drop_append_of_le_length (Nat.le_of_lt own), word_eq]
  refine word_before_stops (by rw [← behind]; exact inside) (fun pragma => ?_) more
  refine Nat.lt_of_le_of_ne (word_le first cs).1 fun alone => ?_
  rw [word_eq, ← alone, isBarePragma, pragma, word_before_pragma pragma] at given
  cases given

theorem word_word (first : Char) (rest : List Char) :
    (word first rest).1.isWord = true ∨ (word first rest).1 = .string ∨ (word first rest).1 = .character :=
  word_before_word _ (wordLength rest) (rest.drop (wordLength rest))

theorem word_kind (inside : (word first cs).2 < cs.length) (more : List Char) :
    (word first (cs ++ more)).1 = (word first cs).1 := by
  have own : wordLength cs < cs.length := Nat.lt_of_le_of_lt (word_le first cs).1 inside
  have same : wordLength (cs ++ more) = wordLength cs := (run_length_local _).stops own more
  have behind : cs.drop (wordLength cs) ≠ [] := by
    rw [Ne, List.drop_eq_nil_iff]
    omega
  rw [word_eq first (cs ++ more), same, List.take_append_of_le_length (Nat.le_of_lt own),
    List.drop_append_of_le_length (Nat.le_of_lt own), word_eq]
  exact word_before_kind behind more

/-! ## Punctuators -/

theorem punctuator_le (c : Char) (cs : List Char) : (punctuator c cs).2 ≤ cs.length := by
  rcases cs with _ | ⟨x, _ | ⟨y, cs⟩⟩
  · unfold punctuator
    split <;> rfl
  · unfold punctuator
    split
    all_goals grind [follows, assigned, doubledOrAssigned, punctuator.shiftLength]
  · unfold punctuator
    split
    all_goals grind [follows, assigned, doubledOrAssigned, punctuator.shiftLength]

theorem punctuator_significant (c : Char) (cs : List Char) : (punctuator c cs).1.isTrivia = false := by
  unfold punctuator
  split
  all_goals first | rfl | (unfold assigned; split <;> rfl) | (split <;> rfl)

/-- A punctuator looks at two characters behind its first one. -/
theorem punctuator_two (c x y : Char) (cs cs' : List Char) :
    punctuator c (x :: y :: cs) = punctuator c (x :: y :: cs') := by
  have shift (d : Char) :
      punctuator.shiftLength d (x :: y :: cs) = punctuator.shiftLength d (x :: y :: cs') := by
    unfold punctuator.shiftLength
    by_cases doubled : x = d
    · simp [follows, doubled]
    · simp [follows, doubled]
  unfold punctuator
  split
  all_goals first | rfl | rw [shift]

theorem punctuator_front (inside : (punctuator c (cs ++ more)).2 ≤ cs.length) :
    punctuator c cs = punctuator c (cs ++ more) := by
  rcases cs with _ | ⟨x, _ | ⟨y, cs⟩⟩
  · unfold punctuator at inside ⊢
    split
    all_goals grind [follows, assigned, doubledOrAssigned, punctuator.shiftLength]
  · unfold punctuator at inside ⊢
    split
    all_goals grind [follows, assigned, doubledOrAssigned, punctuator.shiftLength]
  · exact punctuator_two c x y cs (cs ++ more)

theorem punctuator_stops (inside : (punctuator c cs).2 < cs.length)
    (dots : c = '.' → cs = ['.'] → more.head? ≠ some '.') : punctuator c (cs ++ more) = punctuator c cs := by
  rcases cs with _ | ⟨x, _ | ⟨y, cs⟩⟩
  · cases inside
  · unfold punctuator at inside ⊢
    split
    all_goals grind [follows, assigned, doubledOrAssigned, punctuator.shiftLength]
  · exact punctuator_two c x y (cs ++ more) cs

/-! ## Tokens -/

/-- A count that takes the first character and goes on behind it. -/
def afterFirst (length : List Char → Nat) : List Char → Nat
  | [] => 0
  | _ :: rest => 1 + length rest

theorem after_first_local {length : List Char → Nat} (stable : Local length) : Local (afterFirst length) where
  le cs := by
    cases cs with
    | nil => exact Nat.le_refl 0
    | cons c cs =>
      have bound := stable.le cs
      rw [afterFirst, List.length_cons]
      omega
  stops {cs} inside more := by
    cases cs with
    | nil => cases inside
    | cons c cs =>
      rw [afterFirst, List.length_cons] at inside
      rw [List.cons_append, afterFirst, afterFirst, stable.stops (by omega)]
  goesOn {cs} whole more := by
    cases cs with
    | nil => exact Nat.zero_le _
    | cons c cs =>
      rw [afterFirst, List.length_cons] at whole
      have later : cs.length ≤ length (cs ++ more) := stable.goesOn (by omega) more
      rw [List.cons_append, afterFirst, List.length_cons]
      omega

/-- How a token is read from what follows its first character. -/
inductive Reader (first : Char) : (List Char → TokenKind × Nat) → Prop
  | counts (kind : TokenKind) {length : List Char → Nat} (stable : Local length) :
      Reader first fun rest => (kind, length rest)
  | word : Reader first (word first)
  | punctuator : Reader first (punctuator first)

theorem Reader.le (reads : Reader first reader) (cs : List Char) : (reader cs).2 ≤ cs.length := by
  cases reads with
  | counts kind stable => exact stable.le cs
  | word => exact (word_le first cs).2
  | punctuator => exact punctuator_le first cs

theorem Reader.front (reads : Reader first reader) (inside : (reader (cs ++ more)).2 ≤ cs.length) :
    reader cs = reader (cs ++ more) := by
  cases reads with
  | counts kind stable => exact congrArg (Prod.mk kind) (stable.front inside)
  | word => exact word_front inside
  | punctuator => exact punctuator_front inside

theorem Reader.stops (reads : Reader first reader) (inside : (reader cs).2 < cs.length)
    (given : isBarePragma (reader cs).1 (first :: cs.take (reader cs).2) = false)
    (dots : first = '.' → cs = ['.'] → more.head? ≠ some '.') : reader (cs ++ more) = reader cs := by
  cases reads with
  | counts kind stable => exact congrArg (Prod.mk kind) (stable.stops inside more)
  | word => exact word_stops inside given more
  | punctuator => exact punctuator_stops inside dots

theorem Reader.kind (reads : Reader first reader) (inside : (reader cs).2 < cs.length)
    (dots : first = '.' → cs = ['.'] → more.head? ≠ some '.') : (reader (cs ++ more)).1 = (reader cs).1 := by
  cases reads with
  | counts kind stable => rfl
  | word => exact word_kind inside more
  | punctuator => rw [punctuator_stops inside dots]

/-- What tells the readers apart, behind a first character. -/
structure SameStart (first : Char) (cs cs' : List Char) : Prop where
  line : (first == '/' && follows cs '/') = (first == '/' && follows cs' '/')
  block : (first == '/' && follows cs '*') = (first == '/' && follows cs' '*')
  number : (first.isDigit || (first == '.' && cs.head?.any Char.isDigit)) =
    (first.isDigit || (first == '.' && cs'.head?.any Char.isDigit))

theorem same_start_append (some : cs ≠ []) (first : Char) (more : List Char) : SameStart first cs (cs ++ more) := by
  cases cs with
  | nil => exact absurd rfl some
  | cons c cs => exact ⟨rfl, rfl, rfl⟩

/-- Texts with the same start are read in the same way. -/
theorem read_by_reader (lineStart : Bool) {first : Char} {cs cs' : List Char} (same : SameStart first cs cs') :
    ∃ reader, Reader first reader ∧ read lineStart first cs = reader cs ∧
      read lineStart first cs' = reader cs' := by
  unfold read
  rw [← same.line, ← same.block, ← same.number]
  split
  · exact ⟨_, .counts .space (run_length_local _), rfl, rfl⟩
  · split
    · exact ⟨_, .counts .comment (run_length_local _), rfl, rfl⟩
    · split
      · rename_i opens
        refine ⟨_, .counts .comment (after_first_local block_length_local), ?_⟩
        obtain ⟨tail, rfl⟩ := follows_iff.1 ((Bool.and_eq_true _ _).mp opens).2
        rw [same.block] at opens
        obtain ⟨tail', rfl⟩ := follows_iff.1 ((Bool.and_eq_true _ _).mp opens).2
        exact ⟨rfl, rfl⟩
      · split
        · exact ⟨_, .counts .directive directive_length_local, rfl, rfl⟩
        · split
          · exact ⟨_, .counts .string (quoted_length_local _), rfl, rfl⟩
          · split
            · exact ⟨_, .counts .character (quoted_length_local _), rfl, rfl⟩
            · split
              · exact ⟨_, .counts .number (number_length_local _), rfl, rfl⟩
              · split
                · exact ⟨_, .word, rfl, rfl⟩
                · exact ⟨_, .punctuator, rfl, rfl⟩

/-- A token does not take more characters than there are. -/
theorem read_le (lineStart : Bool) (first : Char) (rest : List Char) :
    (read lineStart first rest).2 ≤ rest.length := by
  obtain ⟨reader, reads, here, _⟩ := @read_by_reader lineStart first rest rest ⟨rfl, rfl, rfl⟩
  rw [here]
  exact reads.le rest

/-- A token that takes no further character starts neither a comment nor a number with a dot. -/
theorem same_start_alone (alone : (read lineStart first more).2 = 0) : SameStart first [] more := by
  have slash {d : Char} (opens : d = '/' ∨ d = '*') : (first == '/' && follows more d) = false := by
    rw [Bool.eq_false_iff]
    intro both
    obtain ⟨first', here⟩ := (Bool.and_eq_true _ _).mp both
    obtain rfl := beq_iff_eq.1 first'
    obtain ⟨tail, rfl⟩ := follows_iff.1 here
    rcases opens with rfl | rfl
    · have taken : (read lineStart '/' ('/' :: tail)).2 = lineLength tail + 1 := rfl
      rw [taken] at alone
      cases alone
    · have taken : (read lineStart '/' ('*' :: tail)).2 = 1 + blockLength tail := rfl
      omega
  refine ⟨(slash (.inl rfl)).symm ▸ Bool.and_false _, (slash (.inr rfl)).symm ▸ Bool.and_false _, ?_⟩
  by_cases dot : first = '.'
  · subst dot
    cases more with
    | nil => rfl
    | cons d more =>
      have taken : (read lineStart '.' (d :: more)) =
          if d.isDigit then (.number, numberLength false (d :: more)) else punctuator '.' (d :: more) := rfl
      by_cases digit : d.isDigit = true
      · have goesOn : (d.isAlphanum || d == '_' || d == '.') = true := by
          rw [Char.isAlphanum, digit, Bool.or_true]
          rfl
        rw [taken, if_pos digit, numberLength, if_pos goesOn] at alone
        cases alone
      · show false = (false || (true && d.isDigit))
        rw [Bool.eq_false_iff.2 digit]
        rfl
  · rw [beq_false_of_ne dot]
    rfl

/-- A token that ends inside a text is read in the same way when the text is cut off behind it. -/
theorem read_front (inside : (read lineStart first (cs ++ more)).2 ≤ cs.length) :
    read lineStart first cs = read lineStart first (cs ++ more) := by
  have same : SameStart first cs (cs ++ more) := by
    by_cases some : cs = []
    · subst some
      exact same_start_alone (Nat.le_zero.1 inside)
    · exact same_start_append some first more
  obtain ⟨reader, reads, short, long⟩ := read_by_reader lineStart same
  rw [long] at inside
  rw [short, long, reads.front inside]

/-- A token that ends inside a text is read in the same way when the text goes on, apart from a pragma
operator, which may find its operand then, and from a dot in front of two others. -/
theorem read_stops (inside : (read lineStart first cs).2 < cs.length)
    (given : isBarePragma (read lineStart first cs).1 (first :: cs.take (read lineStart first cs).2) = false)
    (dots : first = '.' → cs = ['.'] → more.head? ≠ some '.') :
    read lineStart first (cs ++ more) = read lineStart first cs := by
  have some : cs ≠ [] := List.ne_nil_of_length_pos (Nat.zero_lt_of_lt inside)
  obtain ⟨reader, reads, short, long⟩ := read_by_reader lineStart (same_start_append some first more)
  rw [short] at inside given
  rw [short, long, reads.stops inside given dots]

/-- The kind of a token that ends inside a text stays the same when the text goes on. -/
theorem read_kind (inside : (read lineStart first cs).2 < cs.length)
    (dots : first = '.' → cs = ['.'] → more.head? ≠ some '.') :
    (read lineStart first (cs ++ more)).1 = (read lineStart first cs).1 := by
  have some : cs ≠ [] := List.ne_nil_of_length_pos (Nat.zero_lt_of_lt inside)
  obtain ⟨reader, reads, short, long⟩ := read_by_reader lineStart (same_start_append some first more)
  rw [short] at inside
  rw [short, long, reads.kind inside dots]

/-! ## Kinds -/

/-- What a token can be read as. -/
inductive ReadAs (lineStart : Bool) (first : Char) (rest : List Char) : Prop
  | space (starts : isSpace first = true)
      (read : read lineStart first rest = (.space, runLength isSpace rest))
  | comment (slash : first = '/') {mark : Char} {tail : List Char} (marks : mark = '/' ∨ mark = '*')
      (opens : rest = mark :: tail) (read : (read lineStart first rest).1 = .comment)
  | other (kind : TokenKind) (member : kind ∈ [TokenKind.directive, .string, .character, .number])
      (read : (read lineStart first rest).1 = kind)
  | word (starts : isIdentStart first = true) (read : read lineStart first rest = word first rest)
  | punctuator (read : read lineStart first rest = punctuator first rest)

theorem read_cases (lineStart : Bool) (first : Char) (rest : List Char) : ReadAs lineStart first rest := by
  by_cases space : isSpace first = true
  · exact .space space (by rw [read, if_pos space])
  by_cases line : (first == '/' && follows rest '/') = true
  · obtain ⟨slash, here⟩ := (Bool.and_eq_true _ _).mp line
    obtain ⟨tail, opens⟩ := follows_iff.1 here
    exact .comment (beq_iff_eq.1 slash) (.inl rfl) opens (by rw [read, if_neg space, if_pos line])
  by_cases block : (first == '/' && follows rest '*') = true
  · obtain ⟨slash, here⟩ := (Bool.and_eq_true _ _).mp block
    obtain ⟨tail, opens⟩ := follows_iff.1 here
    exact .comment (beq_iff_eq.1 slash) (.inr rfl) opens
      (by rw [read, if_neg space, if_neg line, if_pos block])
  have chain := @read.eq_1 lineStart first rest
  rw [if_neg space, if_neg line, if_neg block] at chain
  split at chain
  · exact .other .directive (by decide) (by rw [chain])
  · split at chain
    · exact .other .string (by decide) (by rw [chain])
    · split at chain
      · exact .other .character (by decide) (by rw [chain])
      · split at chain
        · exact .other .number (by decide) (by rw [chain])
        · split at chain
          · rename_i starts
            exact .word starts chain
          · exact .punctuator chain

/-- A comment starts with its mark. -/
theorem read_comment_iff :
    (read lineStart first rest).1 = .comment ↔
      first = '/' ∧ ∃ d tail, (d = '/' ∨ d = '*') ∧ rest = d :: tail := by
  constructor
  · intro comment
    cases read_cases lineStart first rest with
    | space _ read =>
      rw [read] at comment
      cases comment
    | comment slash marks opens _ => exact ⟨slash, _, _, marks, opens⟩
    | other kind member read =>
      rw [← read, comment] at member
      exact absurd member (by decide)
    | word _ read =>
      rw [read] at comment
      have kind := word_word first rest
      rw [comment] at kind
      exact absurd kind (by decide)
    | punctuator read =>
      rw [read] at comment
      have kind := punctuator_significant first rest
      rw [comment] at kind
      cases kind
  · rintro ⟨rfl, d, tail, rfl | rfl, rfl⟩
    · rfl
    · rfl

/-- Kinds of single characters that are tokens whatever follows them. -/
def standsAlone : TokenKind → Bool
  | .openBrace | .closeBrace | .openParen | .closeParen | .openBracket | .closeBracket => true
  | .comma | .semicolon | .question | .colon => true
  | _ => false

theorem word_not_alone {kind : TokenKind} (word : kind.isWord = true) : standsAlone kind = false := by
  cases kind <;> first | rfl | cases word

theorem punctuator_alone (alone : standsAlone (punctuator c cs).1 = true) :
    c ∈ ['\x7b', '\x7d', '(', ')', '[', ']', ',', ';', '?', ':'] := by
  unfold punctuator at alone
  split at alone
  all_goals first
    | decide
    | cases alone
    | (split at alone <;> cases alone)
    | (unfold assigned at alone; split at alone <;> cases alone)

/-- A token that stands alone is read from its first character. -/
theorem read_alone (alone : standsAlone (read lineStart first rest).1 = true) (rest' : List Char) :
    read lineStart first rest' = read lineStart first rest := by
  have mark : first ∈ ['\x7b', '\x7d', '(', ')', '[', ']', ',', ';', '?', ':'] := by
    cases read_cases lineStart first rest with
    | space _ read =>
      rw [read] at alone
      cases alone
    | comment _ _ _ read =>
      rw [read] at alone
      cases alone
    | other kind member read =>
      rw [read] at alone
      simp only [List.mem_cons, List.not_mem_nil, or_false] at member
      rcases member with rfl | rfl | rfl | rfl <;> cases alone
    | word _ read =>
      rw [read] at alone
      rcases word_word first rest with word | string | character
      · rw [word_not_alone word] at alone
        cases alone
      · rw [string] at alone
        cases alone
      · rw [character] at alone
        cases alone
    | punctuator read =>
      rw [read] at alone
      exact punctuator_alone alone
  simp only [List.mem_cons, List.not_mem_nil, or_false] at mark
  rcases mark with rfl | rfl | rfl | rfl | rfl | rfl | rfl | rfl | rfl | rfl <;> rfl

/-! ## Comments -/

/-- A comment that takes what follows it: one to the end of the line, or one without a closing mark. -/
def isOpenComment : List Char → Bool
  | '/' :: '/' :: _ => true
  | '/' :: '*' :: body => !(['*', '/'].isSuffixOf body)
  | _ => false

/-- A block comment that takes all of a text goes on exactly if the text does not close it. -/
theorem block_goes_on_iff {body : List Char} (whole : blockLength body = body.length) (d : Char) (more : List Char) :
    body.length < blockLength (body ++ d :: more) ↔ ¬ ['*', '/'] <:+ body := by
  fun_induction blockLength body with
  | case1 =>
    refine ⟨fun _ closes => ?_, fun _ => block_length_pos (List.cons_ne_nil d more)⟩
    cases List.eq_nil_of_suffix_nil closes
  | case2 tail =>
    obtain rfl : tail = [] := List.eq_nil_of_length_eq_zero (Nat.succ.inj (Nat.succ.inj whole)).symm
    refine ⟨fun longer => absurd longer (Nat.lt_irrefl 2), fun opened => absurd (List.suffix_refl _) opened⟩
  | case3 c rest other ih =>
    have later := ih (Nat.succ.inj whole)
    have suffix : ['*', '/'] <:+ c :: rest ↔ ['*', '/'] <:+ rest := by
      rw [List.suffix_cons_iff]
      refine or_iff_right fun same => ?_
      exact other [] (List.cons.inj same).1.symm (List.cons.inj same).2.symm
    rw [suffix, ← later, List.cons_append, List.length_cons]
    cases rest with
    | nil =>
      have pos : 0 < blockLength (d :: more) := block_length_pos (List.cons_ne_nil d more)
      refine ⟨fun _ => pos, fun _ => ?_⟩
      rw [List.nil_append, blockLength.eq_def]
      split
      · cases ‹_ = ([] : List Char)›
      · exact Nat.one_lt_two
      · rename_i same
        rw [← (List.cons.inj same).2]
        exact Nat.succ_lt_succ pos
    | cons e rest =>
      rw [block_length_cons]
      · exact Nat.succ_lt_succ_iff
      · intro tail star slash
        obtain ⟨own, here⟩ := head_of_append (List.cons_ne_nil e rest) slash
        exact other own star here

/-- A comment that takes all of a text goes on behind it exactly if it is open. -/
theorem comment_goes_on_iff (comment : (read lineStart first rest).1 = .comment)
    (whole : (read lineStart first rest).2 = rest.length) (newline : d ≠ '\n') (more : List Char) :
    (read lineStart first (rest ++ d :: more)).1 = .comment ∧
      (rest.length < (read lineStart first (rest ++ d :: more)).2 ↔
        isOpenComment (first :: rest) = true) := by
  obtain ⟨rfl, mark, tail, rfl | rfl, rfl⟩ := read_comment_iff.1 comment
  · refine ⟨rfl, fun _ => rfl, fun _ => ?_⟩
    have taken : (read lineStart '/' ('/' :: tail ++ d :: more)).2 =
        lineLength ('/' :: tail ++ d :: more) := rfl
    rw [taken, lineLength, run_length_whole whole, run_length_cons, if_pos (bne_iff_ne.2 newline)]
    omega
  · refine ⟨rfl, ?_⟩
    have taken : (read lineStart '/' ('*' :: tail ++ d :: more)).2 =
        1 + blockLength (tail ++ d :: more) := rfl
    have closes : blockLength tail = tail.length := by
      have count : 1 + blockLength tail = tail.length + 1 := whole
      omega
    have marks : isOpenComment ('/' :: '*' :: tail) = !(['*', '/'].isSuffixOf tail) := rfl
    rw [taken, marks, Bool.not_eq_true', Bool.eq_false_iff, Ne, List.isSuffixOf_iff_suffix,
      ← block_goes_on_iff closes d more, List.length_cons]
    omega

/-- A token that goes on behind a text takes all of it already without what follows, unless it is a
pragma operator that finds its operand there. -/
theorem read_goes_on (dot : d ≠ '.') (longer : rest.length < (read lineStart first (rest ++ d :: more)).2) :
    (read lineStart first rest).2 = rest.length ∨
      (read lineStart first (rest ++ d :: more)).1 = .pragma := by
  rcases Nat.lt_or_eq_of_le (read_le lineStart first rest) with inside | whole
  · have dots : first = '.' → rest = ['.'] → (d :: more).head? ≠ some '.' :=
      fun _ _ same => dot (Option.some.inj same)
    cases bare : isBarePragma (read lineStart first rest).1
        (first :: rest.take (read lineStart first rest).2) with
    | true =>
      refine .inr ?_
      rw [read_kind inside dots]
      exact beq_iff_eq.1 ((Bool.and_eq_true _ _).mp bare).1
    | false =>
      rw [read_stops inside bare dots] at longer
      exact absurd inside (Nat.lt_asymm longer)
  · exact .inl whole

/-! ## Complete tokens -/

/-- Whether a token of this kind, spelled like this, ends where it is, if no white space follows. -/
def isComplete (kind : TokenKind) (spelling : List Char) : Bool :=
  kind == .space || standsAlone kind || (kind == .comment && !isOpenComment spelling)

theorem read_space (space : (read lineStart first rest).1 = .space) : isSpace first = true := by
  cases read_cases lineStart first rest with
  | space starts _ => exact starts
  | comment _ _ _ read =>
    rw [space] at read
    cases read
  | other kind member read =>
    rw [← read, space] at member
    exact absurd member (by decide)
  | word _ read =>
    rw [read] at space
    have kind := word_word first rest
    rw [space] at kind
    exact absurd kind (by decide)
  | punctuator read =>
    rw [read] at space
    have kind := punctuator_significant first rest
    rw [space] at kind
    cases kind

/-- A complete token that takes all of a text is read in the same way when the text goes on. -/
theorem read_complete (whole : (read lineStart first rest).2 = rest.length)
    (complete : isComplete (read lineStart first rest).1 (first :: rest) = true)
    (other : ∀ c ∈ more.head?, isSpace c = false) :
    read lineStart first (rest ++ more) = read lineStart first rest := by
  cases more with
  | nil => rw [List.append_nil]
  | cons d more =>
    have next : isSpace d = false := other d rfl
    unfold isComplete at complete
    rcases (Bool.or_eq_true _ _).mp complete with blank | closed
    · rcases (Bool.or_eq_true _ _).mp blank with space | alone
      · have starts := read_space (beq_iff_eq.1 space)
        have taken (cs : List Char) : read lineStart first cs = (.space, runLength isSpace cs) := by
          rw [read, if_pos starts]
        rw [taken] at whole
        rw [taken, taken, run_length_whole whole, run_length_cons, if_neg (Bool.eq_false_iff.1 next)]
        exact congrArg (Prod.mk TokenKind.space) whole.symm
      · exact read_alone alone _
    · obtain ⟨comment, ends⟩ := (Bool.and_eq_true _ _).mp closed
      have newline : d ≠ '\n' := by
        rintro rfl
        cases next
      have goesOn := (comment_goes_on_iff (beq_iff_eq.1 comment) whole newline more).2
      refine (read_front (Nat.le_of_not_lt fun longer => ?_)).symm
      rw [goesOn.1 longer] at ends
      cases ends

end AllocGuard.Lexeme
