import AllocGuard.Proofs.WordReading

/-! Text that is put between two tokens. The tokens on both sides stay as they are, and those of the new
text come in between, if the new text is read by itself and what stands in front of it is complete. What
asks for an argument is a pragma operator without an operand. It has looked for one along its line, across
the place of the insertion, and still finds none when the parentheses of the new text are in pairs. -/
namespace AllocGuard

/-! ## Operands across an insertion -/

namespace Lexeme

variable {lineStart : Bool} {c first d : Char} {cs rest : List Char}

/-- The text opens no literal and no trigraph, joins and ends no line, and its parentheses are in pairs. -/
structure Insertable (text : List Char) : Prop where
  plain : ∀ c ∈ text, c ≠ '?' ∧ c ≠ '\\' ∧ c ≠ '\n' ∧ isQuote c = false
  paired : ∀ depth back, 0 < depth →
    operandLength depth (text ++ back) = (operandLength depth back).map (· + text.length)

/-- A character that opens or closes nothing and is read as it is written. -/
def isInert (c : Char) : Bool :=
  c != '?' && c != '\\' && c != '\n' && c != '(' && c != ')' && !isQuote c

theorem inert_iff : isInert c = true ↔ (c ≠ '?' ∧ c ≠ '\\' ∧ c ≠ '\n' ∧ isQuote c = false) ∧ c ≠ '(' ∧ c ≠ ')' := by
  simp only [isInert, Bool.and_eq_true, bne_iff_ne, Bool.not_eq_true']
  constructor
  · rintro ⟨⟨⟨⟨⟨mark, backslash⟩, newline⟩, opens⟩, closes⟩, quote⟩
    exact ⟨⟨mark, backslash, newline, quote⟩, opens, closes⟩
  · rintro ⟨⟨mark, backslash, newline, quote⟩, opens, closes⟩
    exact ⟨⟨⟨⟨⟨mark, backslash⟩, newline⟩, opens⟩, closes⟩, quote⟩

theorem operand_inert (inert : ∀ c ∈ cs, isInert c = true) (depth : Nat) (back : List Char) :
    operandLength depth (cs ++ back) = (operandLength depth back).map (· + cs.length) := by
  induction cs with
  | nil =>
    rw [List.nil_append]
    cases operandLength depth back <;> rfl
  | cons c cs ih =>
    obtain ⟨here, later⟩ := List.forall_mem_cons.1 inert
    obtain ⟨⟨_, _, newline, quote⟩, opens, closes⟩ := inert_iff.1 here
    rw [List.cons_append, operand_length_cons depth newline opens closes, quote,
      if_neg Bool.false_ne_true, ih later, Option.map_map]
    rfl

theorem insertable_inert (inert : ∀ c ∈ cs, isInert c = true) : Insertable cs where
  plain c member := (inert_iff.1 (inert c member)).1
  paired depth back _ := operand_inert inert depth back

/-- A group between other characters can be put in. -/
theorem insertable_group {front inner back : List Char} (before : ∀ c ∈ front, isInert c = true)
    (within : ∀ c ∈ inner, isInert c = true) (after : ∀ c ∈ back, isInert c = true) :
    Insertable (front ++ '(' :: (inner ++ ')' :: back)) where
  plain c member := by
    have paren (other : c = '(' ∨ c = ')') : c ≠ '?' ∧ c ≠ '\\' ∧ c ≠ '\n' ∧ isQuote c = false := by
      rcases other with rfl | rfl <;> decide
    simp only [List.mem_append, List.mem_cons] at member
    rcases member with member | opens | member | closes | member
    · exact (inert_iff.1 (before c member)).1
    · exact paren (.inl opens)
    · exact (inert_iff.1 (within c member)).1
    · exact paren (.inr closes)
    · exact (inert_iff.1 (after c member)).1
  paired depth rest deep := by
    have split : front ++ '(' :: (inner ++ ')' :: back) ++ rest =
        front ++ '(' :: (inner ++ ')' :: (back ++ rest)) := by
      simp
    rw [split, operand_inert before, operandLength, operand_inert within, operandLength, if_neg (by omega),
      Nat.add_sub_cancel, operand_inert after, Option.map_map, Option.map_map, Option.map_map, Option.map_map]
    congr 1
    funext count
    simp only [Function.comp_apply, List.length_append, List.length_cons]
    omega

theorem last_of_cons (other : (c :: cs).getLast? ≠ some d) : cs.getLast? ≠ some d :=
  fun last => other (@last_append [c] _ _ last)

theorem last_of_drop (other : cs.getLast? ≠ some d) (count : Nat) : (cs.drop count).getLast? ≠ some d := by
  rw [List.getLast?_drop]
  split
  · intro none
    cases none
  · exact other

/-- A literal ends inside a text, or it goes on behind it. -/
theorem quoted_length_split (quote : Char) (last : cs.getLast? ≠ some '\\') :
    (∀ more, quotedLength quote (cs ++ more) = quotedLength quote cs) ∨
      ∀ more, quotedLength quote (cs ++ more) = cs.length + quotedLength quote more := by
  fun_induction quotedLength quote cs with
  | case1 => exact .inr fun more => by rw [List.nil_append, List.length_nil, Nat.zero_add]
  | case2 tail => exact .inl fun _ => rfl
  | case3 => exact absurd rfl last
  | case4 tail => exact .inl fun _ => rfl
  | case5 c rest newline ih =>
    refine (ih (last_of_cons (last_of_cons last))).imp (fun ends more => ?_) fun goesOn more => ?_
    · rw [List.cons_append, List.cons_append, quoted_length_escape newline, ends]
    · rw [List.cons_append, List.cons_append, quoted_length_escape newline, goesOn, List.length_cons,
        List.length_cons]
      omega
  | case6 rest newline alone joined escape =>
    have backslash : quote ≠ '\\' := by
      rintro rfl
      cases rest with
      | nil => exact alone rfl rfl
      | cons next more => exact escape next more rfl rfl
    exact .inl fun more => by rw [List.cons_append, quoted_length_cons newline backslash, if_pos rfl]
  | case7 c rest newline alone joined escape other ih =>
    have backslash : c ≠ '\\' := by
      rintro rfl
      cases rest with
      | nil => exact alone rfl rfl
      | cons next more => exact escape next more rfl rfl
    refine (ih (last_of_cons last)).imp (fun ends more => ?_) fun goesOn more => ?_
    · rw [List.cons_append, quoted_length_cons newline backslash, if_neg other, ends]
    · rw [List.cons_append, quoted_length_cons newline backslash, if_neg other, goesOn, List.length_cons]
      omega

theorem gap_length_local : Local gapLength :=
  run_length_local _

theorem gap_blank (gap : gapLength cs = cs.length) (listed : c ∈ cs) : isSpace c = true := by
  rw [← List.take_length (l := cs), ← gap] at listed
  have blank := run_chars listed
  simp only [Bool.or_eq_true, beq_iff_eq] at blank
  rcases blank with rfl | rfl <;> rfl

theorem pragma_bare_iff :
    pragmaLength cs = 0 ↔
      ∀ operand, cs.drop (gapLength cs) = '(' :: operand → operandLength 1 operand = none := by
  constructor
  · intro bare operand opens
    by_contra closed
    obtain ⟨count, closes⟩ := Option.ne_none_iff_exists'.1 closed
    have taken := (pragma_length_iff (by omega)).2 ⟨operand, count, opens, closes, rfl⟩
    omega
  · intro unclosed
    by_contra taken
    obtain ⟨operand, count, opens, closes, _⟩ := (pragma_length_iff (Nat.pos_of_ne_zero taken)).1 rfl
    rw [unclosed operand opens] at closes
    cases closes

/-- A pragma operator is not the mark of a literal. -/
theorem pragma_no_mark {spelling : String} (keyword : TokenKind.ofKeyword? spelling = some .pragma)
    (after : List Char) : ∀ quote tail, ¬ MarksLiteral spelling after quote tail := by
  intro quote tail literal
  have mark := literal.mark
  simp only [isLiteralMark, Bool.or_eq_true, beq_iff_eq] at mark
  rcases mark with ((rfl | rfl) | rfl) | rfl <;> cases keyword

section Insertion

variable {text : List Char}

/-- A literal that is open in front of the text is open behind it. -/
theorem Insertable.quoted (insertable : Insertable text) {quote : Char} (quotes : isQuote quote = true)
    (back : List Char) : quotedLength quote (text ++ back) = text.length + quotedLength quote back := by
  have plain := insertable.plain
  clear insertable
  induction text with
  | nil => rw [List.nil_append, List.length_nil, Nat.zero_add]
  | cons c text ih =>
    obtain ⟨⟨_, backslash, newline, other⟩, later⟩ := List.forall_mem_cons.1 plain
    have differs : c ≠ quote := by
      rintro rfl
      rw [quotes] at other
      cases other
    rw [List.cons_append, quoted_length_cons newline backslash, if_neg differs, ih later, List.length_cons]
    omega

/-- An operand that has no end has none either when the text is put in. -/
theorem Insertable.operand (insertable : Insertable text) {depth : Nat} {front back : List Char} (deep : 0 < depth)
    (last : front.getLast? ≠ some '\\') (none : operandLength depth (front ++ back) = none) :
    operandLength depth (front ++ (text ++ back)) = .none := by
  induction depth, front using operandLength.induct with
  | case1 depth =>
    rw [List.nil_append] at none ⊢
    rw [insertable.paired depth back deep, none, Option.map_none]
  | case2 depth rest => rw [List.cons_append, operandLength]
  | case3 depth rest ih =>
    rw [List.cons_append, operandLength, Option.map_eq_none_iff] at none ⊢
    exact ih (Nat.succ_pos depth) (last_of_cons last) none
  | case4 depth rest ends =>
    rw [List.cons_append, operandLength, if_pos ends] at none
    cases none
  | case5 depth rest goesOn ih =>
    rw [List.cons_append, operandLength, if_neg goesOn, Option.map_eq_none_iff] at none ⊢
    exact ih (by omega) (last_of_cons last) none
  | case6 depth c rest newline opens closes quotes quoted =>
    rename_i ih
    rw [List.cons_append, operand_length_cons depth newline opens closes, if_pos quotes,
      Option.map_eq_none_iff] at none ⊢
    rcases quoted_length_split c (last_of_cons last) with ends | goesOn
    · have inside := (quoted_length_local c).le rest
      rw [ends, List.drop_append_of_le_length inside] at none ⊢
      exact ih deep (last_of_drop (last_of_cons last) _) none
    · rw [goesOn, List.drop_length_add_append] at none ⊢
      rw [insertable.quoted quotes, List.drop_length_add_append]
      exact none
  | case7 depth c rest newline opens closes other ih =>
    rw [List.cons_append, operand_length_cons depth newline opens closes, if_neg other,
      Option.map_eq_none_iff] at none ⊢
    exact ih deep (last_of_cons last) none

/-- A pragma operator without an operand gets none when the text is put in. -/
theorem Insertable.pragma (insertable : Insertable text) {front back : List Char} {d : Char}
    (starts : text.head? = some d) (paren : d ≠ '(') (some : front ≠ [])
    (last : ∀ c ∈ front.getLast?, c ≠ '\\' ∧ (isSpace d = true → isSpace c = false))
    (bare : pragmaLength (front ++ back) = 0) : pragmaLength (front ++ (text ++ back)) = 0 := by
  refine pragma_bare_iff.2 fun operand opens => ?_
  rcases Nat.lt_or_eq_of_le (gap_length_local.le front) with inside | gap
  · have behind (more : List Char) : (front ++ more).drop (gapLength (front ++ more)) =
        front.drop (gapLength front) ++ more := by
      rw [gap_length_local.stops inside, List.drop_append_of_le_length (Nat.le_of_lt inside)]
    rw [behind] at opens
    obtain ⟨inner, here⟩ := head_of_append (mt List.drop_eq_nil_iff.1 (Nat.not_le_of_lt inside)) opens
    rw [here, List.cons_append, List.cons_inj_right] at opens
    have backslash : inner.getLast? ≠ .some '\\' := by
      intro ends
      have whole : front.getLast? = .some '\\' := by
        rw [← List.take_append_drop (gapLength front) front, here]
        exact last_append (@last_append ['('] _ _ ends)
      exact (last '\\' whole).1 rfl
    have unclosed := pragma_bare_iff.1 bare (inner ++ back) (by rw [behind, here, List.cons_append])
    rw [← opens, insertable.operand Nat.one_pos backslash unclosed]
  · -- nothing but blanks stands in between, and the text starts with something else
    exfalso
    have other : isSpace d = false := by
      rw [Bool.eq_false_iff]
      intro space
      obtain ⟨c, ends⟩ := Option.ne_none_iff_exists'.1 (mt List.getLast?_eq_none_iff.1 some)
      have blank := gap_blank gap (List.mem_of_getLast? ends)
      rw [(last c ends).2 space] at blank
      cases blank
    obtain ⟨rest, split⟩ := List.head?_eq_some_iff.1 starts
    have none : gapLength (text ++ back) = 0 := by
      rw [split, List.cons_append, gapLength, run_length_cons, if_neg]
      simp only [Bool.or_eq_true, beq_iff_eq]
      rintro (rfl | rfl) <;> cases other
    have whole : gapLength (front ++ (text ++ back)) = front.length := by
      have run : gapLength (front ++ (text ++ back)) = front.length + gapLength (text ++ back) :=
        run_length_whole gap (text ++ back)
      rw [run, none, Nat.add_zero]
    rw [whole, List.drop_left, split, List.cons_append] at opens
    exact paren (List.cons.inj opens).1

/-- A pragma operator takes the operand that it finds behind its word. -/
theorem read_pragma_append (pragma : (read lineStart first rest).1 = .pragma)
    (inside : (read lineStart first rest).2 < rest.length) (more : List Char) :
    read lineStart first (rest ++ more) =
      (.pragma, wordLength rest + pragmaLength (rest.drop (wordLength rest) ++ more)) := by
  obtain ⟨starts, plain⟩ := read_plain_word (show (read lineStart first rest).1.isWord = true by rw [pragma]; rfl)
  have own : wordLength rest < rest.length := by
    have le := (word_le first rest).1
    rw [← read_word starts lineStart] at le
    omega
  have keyword : TokenKind.ofKeyword? (String.ofList (first :: rest.take (wordLength rest))) = some .pragma := by
    refine @word_before_pragma _ (wordLength rest) (rest.drop (wordLength rest)) ?_
    rw [← word_eq, ← read_word starts lineStart]
    exact pragma
  have same : wordLength (rest ++ more) = wordLength rest := (run_length_local _).stops own more
  rw [read_word starts, word_eq, same, List.take_append_of_le_length (Nat.le_of_lt own),
    List.drop_append_of_le_length (Nat.le_of_lt own), word_before_plain (pragma_no_mark keyword _), plainWord, keyword]

/-- A pragma operator is read in the same way with the text put in behind it. -/
theorem Insertable.read_pragma (insertable : Insertable text) {back : List Char} {d : Char}
    (starts : text.head? = some d) (paren : d ≠ '(') {lineStart : Bool} {first : Char} {rest : List Char}
    (pragma : (read lineStart first rest).1 = .pragma)
    (inside : (read lineStart first rest).2 < rest.length)
    (last : ∀ c ∈ rest.getLast?, c ≠ '\\' ∧ (isSpace d = true → isSpace c = false))
    (same : read lineStart first (rest ++ back) = read lineStart first rest) :
    read lineStart first (rest ++ (text ++ back)) = read lineStart first rest := by
  have alone := read_pragma_append pragma inside []
  rw [List.append_nil, List.append_nil] at alone
  rw [read_pragma_append pragma inside, alone] at same ⊢
  rw [alone] at inside
  have length := Nat.add_left_cancel (Prod.mk.inj same).2
  have some : rest.drop (wordLength rest) ≠ [] := by
    rw [Ne, List.drop_eq_nil_iff]
    have inside : wordLength rest + _ < rest.length := inside
    omega
  refine congrArg (fun count => (TokenKind.pragma, wordLength rest + count)) ?_
  rcases Nat.eq_zero_or_pos (pragmaLength (rest.drop (wordLength rest))) with bare | given
  · rw [bare] at length ⊢
    refine insertable.pragma starts paren some (fun c ends => last c ?_) length
    rw [← List.take_append_drop (wordLength rest) rest]
    exact last_append ends
  · exact (pragma_length_append given _).2

end Insertion

/-! ## The last token in front -/

/-- A token with this spelling ends where the character `d` follows. -/
def endsBefore (kind : TokenKind) (spelling : List Char) (d : Char) : Bool :=
  standsAlone kind || (kind == .identifier && !isIdentChar d && !isQuote d) ||
    (isComplete kind spelling && !isSpace d)

theorem ends_before_iff {kind : TokenKind} {spelling : List Char} :
    endsBefore kind spelling d = true ↔
      standsAlone kind = true ∨ (kind = .identifier ∧ isIdentChar d = false ∧ isQuote d = false) ∨
        isComplete kind spelling = true ∧ isSpace d = false := by
  simp only [endsBefore, Bool.or_eq_true, Bool.and_eq_true, beq_iff_eq, Bool.not_eq_true', or_assoc, and_assoc]

/-- A token that takes a whole text and ends there is read in the same way when the text goes on. -/
theorem read_ends_before (whole : (read lineStart first rest).2 = rest.length)
    (ends : endsBefore (read lineStart first rest).1 (first :: rest) d = true) (more : List Char) :
    read lineStart first (rest ++ d :: more) = read lineStart first rest := by
  rcases ends_before_iff.1 ends with alone | ⟨identifier, mark, quote⟩ | ⟨complete, other⟩
  · exact read_alone alone _
  · have name := read_identifier identifier
    rw [whole, List.take_length] at name
    rw [name.read mark quote]
    exact Prod.ext identifier.symm whole.symm
  · refine read_complete whole complete ?_
    rintro _ ⟨⟩
    exact other

theorem read_alone_first (alone : standsAlone (read lineStart first rest).1 = true) :
    (read lineStart first rest).2 = 0 ∧ first ≠ '\\' ∧ isSpace first = false := by
  have short := read_alone alone []
  rw [← short] at alone ⊢
  refine ⟨Nat.le_zero.1 (read_le lineStart first []), ?_, ?_⟩
  · rintro rfl
    cases lineStart <;> cases alone
  · rw [Bool.eq_false_iff]
    intro space
    rw [read, if_pos space] at alone
    cases alone

/-- The last character of such a token is no backslash, and no white space that would go on. -/
theorem ends_before_last (whole : (read lineStart first rest).2 = rest.length)
    (ends : endsBefore (read lineStart first rest).1 (first :: rest) d = true) :
    ∀ c ∈ (first :: rest).getLast?, c ≠ '\\' ∧ (isSpace d = true → isSpace c = false) := by
  intro c last
  have alone (stands : standsAlone (read lineStart first rest).1 = true) :
      c ≠ '\\' ∧ isSpace c = false := by
    obtain ⟨none, backslash, other⟩ := read_alone_first stands
    rw [List.length_eq_zero_iff.1 (whole.symm.trans none)] at last
    cases last
    exact ⟨backslash, other⟩
  rcases ends_before_iff.1 ends with stands | ⟨identifier, _, _⟩ | ⟨complete, other⟩
  · exact ⟨(alone stands).1, fun _ => (alone stands).2⟩
  · have name := read_identifier identifier
    rw [whole, List.take_length] at name
    have char : isIdentChar c = true := by
      rcases List.mem_cons.1 (List.mem_of_getLast? last) with rfl | later
      · rw [isIdentChar, name.starts, Bool.true_or]
      · exact name.chars c later
    refine ⟨?_, fun _ => ?_⟩
    · rintro rfl
      cases char
    · rw [Bool.eq_false_iff]
      intro space
      simp only [isSpace, Bool.or_eq_true, beq_iff_eq] at space
      rcases space with ((((rfl | rfl) | rfl) | rfl) | rfl) | rfl <;> cases char
  · refine ⟨?_, fun space => absurd space (by rw [other]; exact Bool.false_ne_true)⟩
    rintro rfl
    simp only [isComplete, Bool.or_eq_true, Bool.and_eq_true, beq_iff_eq, Bool.not_eq_true'] at complete
    rcases complete with (space | stands) | ⟨comment, closed⟩
    · have starts := read_space space
      rw [read, if_pos starts] at whole
      rcases List.mem_cons.1 (List.mem_of_getLast? last) with same | later
      · rw [← same] at starts
        cases starts
      · rw [← List.take_length (l := rest), ← whole] at later
        cases (run_chars later : isSpace '\\' = true)
    · exact (alone stands).1 rfl
    · obtain ⟨rfl, mark, tail, marks, rfl⟩ := read_comment_iff.1 comment
      rcases marks with rfl | rfl
      · cases closed
      · simp only [isOpenComment, Bool.not_eq_false'] at closed
        obtain ⟨body, rfl⟩ := List.isSuffixOf_iff_suffix.1 closed
        have slash : ('/' :: '*' :: (body ++ ['*', '/'])).getLast? = some '/' :=
          @last_append ('/' :: '*' :: body) _ _ rfl
        rw [slash] at last
        cases last

end Lexeme

/-! ## Tokens wherever they stand -/

/-- What a token is and how it is written. -/
abbrev TokenFace := TokenKind × List Char

def Token.face (t : Token) : TokenFace :=
  (t.kind, t.raw)

namespace TokenSeq

open Glyph

variable {source : String} {lineStart : Bool} {front gs back : List Glyph} {position : Nat} {rest : List TokenFace}
  {left tail : List Char} {first d : Char}

/-- The faces of the tokens of glyphs. -/
def facesOf (lineStart : Bool) (left : List Char) (gs : List Glyph) : List TokenFace :=
  (scanGlyphs lineStart 0 left gs).map Token.face

theorem scan_glyphs_end (lineStart : Bool) (start : Nat) (left : List Char) :
    scanGlyphs lineStart start left [] = if left.isEmpty then [] else [⟨.space, start, left⟩] := by
  simp only [scanGlyphs, List.map_nil, scan]

/-- Where glyphs stand makes no difference to the faces of their tokens. -/
theorem faces_moved (lineStart : Bool) (start : Nat) (left : List Char) (gs : List Glyph) :
    (scanGlyphs lineStart start left gs).map Token.face = facesOf lineStart left gs := by
  have moved (start' : Nat) : (scanGlyphs lineStart start left gs).map Token.face =
      (scanGlyphs lineStart start' left gs).map Token.face := by
    induction gs using scan_induction generalizing lineStart start start' with
    | nil =>
      rw [scan_glyphs_end, scan_glyphs_end]
      split <;> rfl
    | cons g rest ih =>
      rw [scan_glyphs_cons, scan_glyphs_cons, List.map_cons, List.map_cons]
      exact congrArg _ (ih _ _ _ _)
  exact moved 0

theorem faces_cons (lineStart : Bool) (left : List Char) (g : Glyph) (rest : List Glyph) :
    facesOf lineStart left (g :: rest) =
      (firstToken lineStart 0 g rest).face ::
        facesOf (behind lineStart (firstToken lineStart 0 g rest)) left
          (rest.drop (firstLength lineStart g rest)) := by
  rw [facesOf, scan_glyphs_cons, List.map_cons, faces_moved]

theorem faces_nil (lineStart : Bool) : facesOf lineStart [] [] = [] :=
  congrArg (List.map Token.face) (scan_glyphs_nil lineStart 0)

/-! ## The tokens in front -/

/-- The last token of glyphs takes the last of them, and takes no more of what follows. -/
theorem Settled.last_face {more : List Char} (settled : Settled more lineStart gs) (reads : Reads gs left)
    (some : gs ≠ []) :
    ∃ front lineStart' g rest, gs = front ++ g :: rest ∧ Reads (g :: rest) left ∧
      firstLength lineStart' g rest = rest.length ∧
      Lexeme.read lineStart' g.char (rest.map char ++ more) = Lexeme.read lineStart' g.char (rest.map char) ∧
      (facesOf lineStart [] gs).getLast? = .some (firstToken lineStart' 0 g rest).face := by
  induction settled with
  | done => exact absurd rfl some
  | @token lineStart g rest same later ih =>
    rw [faces_cons]
    rcases Nat.lt_or_eq_of_le (first_length_le lineStart g rest) with inside | whole
    · obtain ⟨front, lineStart', g', rest', split, reads', whole, same', last⟩ :=
        ih (reads.drop (firstLength lineStart g rest + 1)) (mt List.drop_eq_nil_iff.1 (Nat.not_le_of_lt inside))
      refine ⟨g :: (rest.take (firstLength lineStart g rest) ++ front), lineStart', g', rest', ?_, reads',
        whole, same', ?_⟩
      · rw [List.cons_append, List.append_assoc, ← split, List.take_append_drop]
      · rw [List.getLast?_cons, last, Option.getD_some]
    · refine ⟨[], lineStart, g, rest, rfl, reads, whole, same, ?_⟩
      rw [whole, List.drop_length, faces_nil]
      rfl

/-- The last token of the glyphs ends where the character follows. -/
def EndsBefore (lineStart : Bool) (gs : List Glyph) (d : Char) : Prop :=
  ∀ face ∈ (facesOf lineStart [] gs).getLast?, Lexeme.endsBefore face.1 (logicalChars face.2) d = true

theorem ends_before_char (reads : Reads gs left) (ends : EndsBefore lineStart gs d) :
    ∀ c ∈ (gs.map char).getLast?, c ≠ '\\' ∧ (Lexeme.isSpace d = true → Lexeme.isSpace c = false) := by
  rcases eq_or_ne gs [] with rfl | some
  · exact fun c none => absurd none (Option.not_mem_none c)
  · obtain ⟨front, lineStart', g, rest, rfl, reads', whole, _, last⟩ :=
      (settled_end lineStart gs).last_face reads some
    have complete := ends _ last
    rw [Token.face, first_spelled reads', whole,
      List.take_of_length_le (Nat.le_of_eq (List.length_map char))] at complete
    intro c ends
    rw [List.map_append, List.getLast?_append_of_ne_nil _ (List.map_eq_nil_iff.not.2 (List.cons_ne_nil g rest)),
      List.map_cons] at ends
    refine Lexeme.ends_before_last ?_ complete c ends
    rwa [List.length_map]

/-- Glyphs that are settled stay so when the text is put in behind them. -/
theorem Settled.insert {text back : List Char} (insertable : Lexeme.Insertable text) {d : Char}
    (starts : text.head? = some d) (paren : d ≠ '(') (dot : d ≠ '.') {lineStart : Bool} {front : List Glyph}
    {left : List Char} (reads : Reads front left) (settled : Settled back lineStart front)
    (ends : EndsBefore lineStart front d) : Settled (text ++ back) lineStart front := by
  induction settled with
  | done => exact .done
  | @token lineStart g rest same later ih =>
    obtain ⟨tail, rfl⟩ := List.head?_eq_some_iff.1 starts
    refine .token ?_ (ih (reads.drop (firstLength lineStart g rest + 1)) fun face last => ends face ?_)
    · rcases Nat.lt_or_eq_of_le (first_length_le lineStart g rest) with inside | whole
      · have inside : (Lexeme.read lineStart g.char (rest.map char)).2 < (rest.map char).length := by
          rwa [List.length_map]
        cases bare : Lexeme.isBarePragma (Lexeme.read lineStart g.char (rest.map char)).1
          (g.char :: (rest.map char).take (Lexeme.read lineStart g.char (rest.map char)).2) with
        | true =>
          have pragma : (Lexeme.read lineStart g.char (rest.map char)).1 = .pragma :=
            beq_iff_eq.1 (Bool.and_eq_true_iff.1 bare).1
          refine insertable.read_pragma starts paren pragma inside (fun c last => ?_) same
          exact ends_before_char reads ends c (@Lexeme.last_append [g.char] _ _ last)
        | false =>
          refine Lexeme.read_stops inside bare fun _ _ dots => ?_
          exact dot (Option.some.inj dots)
      · have complete := ends (firstToken lineStart 0 g rest).face (by
          rw [faces_cons, whole, List.drop_length, faces_nil]
          rfl)
        rw [Token.face, first_spelled reads, whole,
          List.take_of_length_le (Nat.le_of_eq (List.length_map char))] at complete
        refine Lexeme.read_ends_before ?_ complete (tail ++ back)
        rwa [List.length_map]
    · rw [faces_cons, List.getLast?_cons, Option.mem_def.1 last]
      rfl

/-! ## The text between -/

/-- Whether a directive may start behind tokens with these faces. -/
def lineBehind (lineStart : Bool) (faces : List TokenFace) : Bool :=
  faces.foldl (fun before face => lineStartAfter before face.1 face.2) lineStart

theorem Settled.faces_append (settled : Settled (back.map char) lineStart front) (left : List Char) :
    facesOf lineStart left (front ++ back) =
      facesOf lineStart [] front ++ facesOf (lineBehind lineStart (facesOf lineStart [] front)) left back := by
  have line : (scanGlyphs lineStart 0 [] front).foldl behind lineStart =
      lineBehind lineStart (facesOf lineStart [] front) := by
    rw [lineBehind, facesOf, List.foldl_map]
    rfl
  rw [facesOf, settled.scan_append, List.map_append, line, faces_moved (lineBehind _ _)]
  rfl

/-- Tokens with these faces are read off their own text when `next` comes behind it. -/
def ReadsOff (next : List Char) : List TokenFace → Prop
  | [] => True
  | face :: rest =>
    (∃ first tail, face.2 = first :: tail ∧ ∀ lineStart,
      Lexeme.read lineStart first (tail ++ (rest.flatMap Prod.snd ++ next)) = (face.1, tail.length)) ∧
        ReadsOff next rest

theorem faces_first {kind : TokenKind}
    (read : Lexeme.read lineStart first (tail ++ back.map char) = (kind, tail.length)) (left : List Char) :
    facesOf lineStart left (singles (first :: tail) ++ back) =
      (kind, first :: tail) :: facesOf (lineStartAfter lineStart kind (first :: tail)) left back := by
  have read : Lexeme.read lineStart first ((singles tail ++ back).map char) = (kind, tail.length) := by
    rwa [List.map_append, singles_char]
  have length : firstLength lineStart ⟨first, [first]⟩ (singles tail ++ back) = (singles tail).length := by
    rw [firstLength, read]
    exact (List.length_map _).symm
  have face : (firstToken lineStart 0 ⟨first, [first]⟩ (singles tail ++ back)).face =
      (kind, first :: tail) := by
    rw [Token.face, firstToken, length, List.take_left, List.flatMap_cons, singles_raw, read]
    rfl
  have split : singles (first :: tail) ++ back = ⟨first, [first]⟩ :: (singles tail ++ back) := rfl
  rw [split, faces_cons, face, length, List.drop_left]
  rw [Token.face, Prod.mk.injEq] at face
  rw [behind, face.1, face.2]

/-- Such text has these tokens, and those of what follows come behind. -/
theorem ReadsOff.faces_append {faces : List TokenFace} (reads : ReadsOff (back.map char) faces) (lineStart : Bool)
    (left : List Char) :
    facesOf lineStart left (singles (faces.flatMap Prod.snd) ++ back) =
      faces ++ facesOf (lineBehind lineStart faces) left back := by
  induction faces generalizing lineStart with
  | nil => rfl
  | cons face rest ih =>
    obtain ⟨⟨first, tail, text, read⟩, later⟩ := reads
    have split : singles ((face :: rest).flatMap Prod.snd) ++ back =
        singles (first :: tail) ++ (singles (rest.flatMap Prod.snd) ++ back) := by
      rw [List.flatMap_cons, text, singles, List.map_append, List.append_assoc]
      rfl
    have own : Lexeme.read lineStart first
        (tail ++ (singles (rest.flatMap Prod.snd) ++ back).map char) = (face.1, tail.length) := by
      rw [List.map_append, singles_char, read]
    rw [split, faces_first own, ih later, ← text]
    rfl

theorem reads_off_append {next : List Char} {front back : List TokenFace} :
    ReadsOff next (front ++ back) ↔ ReadsOff (back.flatMap Prod.snd ++ next) front ∧ ReadsOff next back := by
  induction front with
  | nil => exact (and_iff_right trivial).symm
  | cons face front ih =>
    rw [List.cons_append, ReadsOff, ReadsOff, ih, List.flatMap_append, List.append_assoc, and_assoc]

def blank : TokenFace :=
  (.space, [' '])

theorem reads_blank {next : List Char} (other : ∀ c ∈ (rest.flatMap Prod.snd ++ next).head?, Lexeme.isSpace c = false)
    (later : ReadsOff next rest) : ReadsOff next (blank :: rest) := by
  refine ⟨⟨' ', [], rfl, fun lineStart => ?_⟩, later⟩
  show (TokenKind.space, Lexeme.runLength Lexeme.isSpace (rest.flatMap Prod.snd ++ next)) = (.space, 0)
  cases text : rest.flatMap Prod.snd ++ next with
  | nil => rfl
  | cons c text' =>
    rw [text] at other
    rw [Lexeme.run_length_cons, other c rfl, if_neg Bool.false_ne_true]

theorem reads_name {next : List Char} (name : Lexeme.IsIdentifier first tail)
    (ends : (rest.flatMap Prod.snd ++ next).head? = some d) (mark : Lexeme.isIdentChar d = false)
    (quote : Lexeme.isQuote d = false) (later : ReadsOff next rest) :
    ReadsOff next ((.identifier, first :: tail) :: rest) := by
  obtain ⟨more, text⟩ := List.head?_eq_some_iff.1 ends
  refine ⟨⟨first, tail, rfl, fun lineStart => ?_⟩, later⟩
  rw [text, name.read mark quote]

theorem no_line_behind {kind : TokenKind} (carries : kind.isTrivia = false) (lineStart : Bool)
    (raw : List Char) : lineStartAfter lineStart kind raw = false := by
  cases kind with
  | space => cases carries
  | comment => cases carries
  | _ => rfl

/-- A token that is neither a directive nor white space or a comment does not depend on the line. -/
theorem faces_any_line
    (first : ∀ face ∈ (facesOf lineStart left gs).head?, face.1.isTrivia = false ∧ face.1 ≠ .directive) :
    facesOf lineStart left gs = facesOf false left gs := by
  cases lineStart with
  | false => rfl
  | true =>
    cases gs with
    | nil => rw [facesOf, facesOf, scan_glyphs_end, scan_glyphs_end]
    | cons g rest =>
      obtain ⟨carries, other⟩ := first (firstToken true 0 g rest).face (by rw [faces_cons]; rfl)
      have carries : (firstToken true 0 g rest).kind.isTrivia = false := carries
      have hash : (g.char == '#') = false := by
        refine beq_eq_false_iff_ne.2 fun hash => other ?_
        rw [Token.face, firstToken, hash]
        rfl
      have same : Lexeme.read true g.char (rest.map char) = Lexeme.read false g.char (rest.map char) := by
        simp only [Lexeme.read, hash, Bool.false_and]
      have length : firstLength true g rest = firstLength false g rest := congrArg Prod.snd same
      have token : firstToken true 0 g rest = firstToken false 0 g rest := by
        rw [firstToken, firstToken, length, same]
      rw [faces_cons, faces_cons, length, token]
      rw [token] at carries
      rw [behind, behind, no_line_behind carries, no_line_behind carries]

/-! ## Insertions -/

/-- The text of a sequence with more text put in front of a token. -/
def textWith (ts : TokenSeq) (position : Nat) (text : List Char) : String :=
  ts.textRange 0 position ++ String.ofList text ++ ts.textRange position ts.size

def faces (ts : TokenSeq) : List TokenFace :=
  ts.tokens.toList.map Token.face

theorem kind_of_faces (ts : TokenSeq) (i : Nat) : ts.kind? i = ts.faces[i]?.map Prod.fst := by
  rw [kind?, get?, faces, List.getElem?_map, Array.getElem?_toList, Option.map_map]
  rfl

theorem spelling_of_faces (ts : TokenSeq) (i : Nat) :
    ts.spelling i = (ts.faces[i]?.map fun face => String.ofList (logicalChars face.2)).getD "" := by
  rw [spelling, get?, faces, List.getElem?_map, Array.getElem?_toList, Option.map_map]
  rfl

theorem text_range_faces (ts : TokenSeq) (start stop : Nat) :
    (ts.textRange start stop).toList = ((ts.faces.drop start).take (stop - start)).flatMap Prod.snd := by
  rw [text_range_eq, String.toList_ofList, faces, ← List.map_drop, ← List.map_take, List.flatMap_map]
  rfl

theorem faces_raw (lineStart : Bool) (left : List Char) (gs : List Glyph) :
    (facesOf lineStart left gs).flatMap Prod.snd = gs.flatMap raw ++ left := by
  have whole := scan_raw lineStart 0 left (gs.map char) (gs.map raw) (by rw [List.length_map, List.length_map])
  rw [facesOf, List.flatMap_map, List.flatMap_def (l := gs), ← whole]
  rfl

/-- Joined line ends at the end of a source make no token that carries meaning. -/
theorem scan_length_le (inside : position < (ofSource source).size ∨
      position = (ofSource source).size ∧ (ofSource source).isSignificant (position - 1) = true) :
    position ≤ (scanGlyphs true 0 [] (glyphs source.toList).1).length := by
  have split := @Settled.scan_append true (glyphs source.toList).1 [] (settled_end _ _) 0 (glyphs source.toList).2
  rw [List.append_nil, ← of_source_scan, scan_glyphs_end] at split
  rcases inside with inside | ⟨rfl, carries⟩
  · have size : (ofSource source).size ≤ (scanGlyphs true 0 [] (glyphs source.toList).1).length + 1 :=
      scan_left_length true 0 (glyphs source.toList).2 (glyphs source.toList).1
    omega
  · split at split
    · rw [List.append_nil] at split
      exact Nat.le_of_eq (congrArg List.length split)
    · have size := congrArg List.length split
      rw [List.length_append, List.length_singleton] at size
      have last := get_append split 0
      have place : (ofSource source).size - 1 = (scanGlyphs true 0 [] (glyphs source.toList).1).length := by
        have size : (ofSource source).size = _ + 1 := size
        omega
      rw [isSignificant, kindIs, kind?, place, ← Nat.add_zero (List.length _), last] at carries
      cases carries

/-- The text of a source is cut in front of a token between two glyphs. -/
theorem faces_cut (inside : position < (ofSource source).size ∨
      position = (ofSource source).size ∧ (ofSource source).isSignificant (position - 1) = true) :
    ∃ front back left, Reads front [] ∧ Reads back left ∧ Settled (back.map char) true front ∧
      (ofSource source).faces.take position = facesOf true [] front ∧
      (ofSource source).faces.drop position =
        facesOf (lineBehind true (facesOf true [] front)) left back ∧
      ((ofSource source).textRange 0 position).toList = front.flatMap raw ∧
      ((ofSource source).textRange position (ofSource source).size).toList = back.flatMap raw ++ left := by
  obtain ⟨cut, settled, counted⟩ := settled_cut (scan_length_le inside)
  have reads := reads_glyphs source.toList
  have whole : (ofSource source).faces = facesOf true [] ((glyphs source.toList).1.take cut) ++
      facesOf (lineBehind true (facesOf true [] ((glyphs source.toList).1.take cut)))
        (glyphs source.toList).2 ((glyphs source.toList).1.drop cut) := by
    rw [← settled.faces_append, List.take_append_drop]
    rfl
  have length : (facesOf true [] ((glyphs source.toList).1.take cut)).length = position := by
    rw [facesOf, List.length_map, counted]
  have front := congrArg (List.take position) whole
  have back := congrArg (List.drop position) whole
  rw [← length, List.take_left, length] at front
  rw [← length, List.drop_left, length] at back
  refine ⟨_, _, _, reads.take cut, reads.drop cut, settled, front, back, ?_, ?_⟩
  · rw [text_range_faces, List.drop_zero, Nat.sub_zero, front, faces_raw, List.append_nil]
  · rw [text_range_faces, back, ← faces_raw, List.take_of_length_le]
    rw [← back, List.length_drop, faces, List.length_map]
    exact Nat.le_refl _

theorem line_behind_last {faces : List TokenFace} {face : TokenFace} (last : faces.getLast? = some face)
    (carries : face.1.isTrivia = false) : lineBehind lineStart faces = false := by
  obtain ⟨front, rfl⟩ := List.getLast?_eq_some_iff.1 last
  rw [lineBehind, List.foldl_append]
  exact no_line_behind carries _ _

/-- Glyphs that start with white space have a first token that is white space. -/
theorem faces_space {lineStart : Bool} {left : List Char} {gs : List Glyph} {c : Char}
    (starts : (gs.map char).head? = some c) (space : Lexeme.isSpace c = true) :
    ∃ raw, (facesOf lineStart left gs).head? = some (.space, raw) := by
  cases gs with
  | nil => cases starts
  | cons g rest =>
    cases starts
    refine ⟨(firstToken lineStart 0 g rest).raw, ?_⟩
    rw [faces_cons, List.head?_cons, Token.face, firstToken, Lexeme.read, if_pos space]

/-- A comment in front of a token that carries meaning is a block comment with its end. -/
theorem comment_closed (carries : (ofSource source).isSignificant position = true) {raw : List Char}
    (last : ((ofSource source).faces.take position).getLast? = some (.comment, raw)) :
    Lexeme.isOpenComment (logicalChars raw) = false := by
  have inside := lt_size_of_significant carries
  obtain ⟨front, back, left, own, _, settled, take, drop, _⟩ := faces_cut (.inl inside)
  rw [take] at last
  have some : front ≠ [] := by
    rintro rfl
    rw [faces_nil] at last
    cases last
  obtain ⟨_, lineStart, g, rest, _, reads, whole, same, found⟩ := settled.last_face own some
  obtain ⟨kind, text⟩ := Prod.mk.inj (Option.some.inj (found.symm.trans last))
  rw [← text, first_spelled reads, whole, List.take_of_length_le (Nat.le_of_eq (List.length_map char))]
  have meaning : ∀ face ∈ (facesOf (lineBehind true (facesOf true [] front)) left back).head?, face.1 ≠ .space := by
    rw [← drop, List.head?_drop]
    rintro ⟨_, _⟩ first rfl
    rw [isSignificant, kindIs, kind_of_faces, Option.mem_def.1 first] at carries
    cases carries
  rw [Bool.eq_false_iff]
  intro isOpen
  cases back with
  | nil =>
    have size : ((ofSource source).faces.drop position).length ≠ 0 := by
      rw [List.length_drop, faces, List.length_map]
      exact Nat.sub_ne_zero_of_lt inside
    rw [drop, facesOf, scan_glyphs_end] at size
    rw [facesOf, scan_glyphs_end] at meaning
    split at size
    · exact size rfl
    · rename_i some
      rw [if_neg some] at meaning
      exact meaning _ rfl rfl
  | cons next back =>
    have newline : next.char ≠ '\n' := by
      intro newline
      obtain ⟨raw, first⟩ := @faces_space (lineBehind true (facesOf true [] front)) left (next :: back) _ rfl
        (show Lexeme.isSpace next.char = true by rw [newline]; rfl)
      exact meaning _ first rfl
    have longer := (Lexeme.comment_goes_on_iff kind (by rwa [List.length_map]) newline (back.map char)).2.2 isOpen
    rw [List.map_cons] at same
    rw [same, List.length_map] at longer
    exact absurd whole (Nat.ne_of_gt longer)

/-- The glyphs of a text with more text put in. -/
theorem glyphs_insert {text : List Char} (reads : Reads front []) (reads' : Reads back left)
    (plain : ∀ c ∈ text, c ≠ '?' ∧ c ≠ '\\') (starts : text.head? = some d) (mark : d = ' ' ∨ d = '\x7b') :
    glyphs (front.flatMap raw ++ (text ++ (back.flatMap raw ++ left))) =
      (front ++ (singles text ++ back), left) := by
  obtain ⟨tail, rfl⟩ := List.head?_eq_some_iff.1 starts
  have seam : Seam (front.flatMap raw) (d :: tail ++ (back.flatMap raw ++ left)) := by
    refine ⟨?_, .inr ?_⟩
    · rintro _ ⟨⟩
      rcases mark with rfl | rfl <;> decide
    · rintro _ ⟨⟩
      rcases mark with rfl | rfl
      · exact ⟨by decide, .inl rfl⟩
      · exact ⟨by decide, .inl rfl⟩
  have own : glyphs (front.flatMap raw) = (front, []) := by
    have whole : glyphs (front.flatMap raw ++ []) = (front, []) := reads
    rwa [List.append_nil] at whole
  have later := glyphs_singles plain (back.flatMap raw ++ left)
  have behind : glyphs (back.flatMap raw ++ left) = (back, left) := reads'
  rw [behind] at later
  rw [glyphs_append seam, own]
  dsimp only
  rw [← glyphs, later]

/-- Text that is read by itself adds its own tokens to those on both sides of it. -/
theorem faces_insert {added : List TokenFace} (inside : position < (ofSource source).size ∨
      position = (ofSource source).size ∧ (ofSource source).isSignificant (position - 1) = true)
    (insertable : Lexeme.Insertable (added.flatMap Prod.snd)) (starts : (added.flatMap Prod.snd).head? = some d)
    (mark : d = ' ' ∨ d = '\x7b') (ends : ∀ face ∈ ((ofSource source).faces.take position).getLast?,
      Lexeme.endsBefore face.1 (logicalChars face.2) d = true)
    (reads : ∀ next, (∀ c ∈ next.head?, Lexeme.isSpace c = true →
      ∃ raw, ((ofSource source).faces.drop position).head? = some (.space, raw)) → ReadsOff next added)
    (line : ∀ lineStart, lineBehind lineStart added = false)
    (apart : (∃ face ∈ ((ofSource source).faces.take position).getLast?, face.1.isTrivia = false) ∨
      ∀ face ∈ ((ofSource source).faces.drop position).head?, face.1.isTrivia = false ∧ face.1 ≠ .directive) :
    (ofSource ((ofSource source).textWith position (added.flatMap Prod.snd))).faces =
      (ofSource source).faces.take position ++ (added ++ (ofSource source).faces.drop position) := by
  obtain ⟨front, back, left, own, own', settled, take, drop, text, text'⟩ := faces_cut inside
  have plain : ∀ c ∈ added.flatMap Prod.snd, c ≠ '?' ∧ c ≠ '\\' := fun c member =>
    ⟨(insertable.plain c member).1, (insertable.plain c member).2.1⟩
  rw [take] at ends apart ⊢
  rw [drop] at reads apart ⊢
  have glyphs : glyphs ((ofSource source).textWith position (added.flatMap Prod.snd)).toList =
      (front ++ (singles (added.flatMap Prod.snd) ++ back), left) := by
    rw [textWith, String.toList_append, String.toList_append, String.toList_ofList, text, text',
      List.append_assoc, glyphs_insert own own' plain starts mark]
  have settled : Settled ((singles (added.flatMap Prod.snd) ++ back).map char) true front := by
    rw [List.map_append, singles_char]
    exact settled.insert insertable starts (by rcases mark with rfl | rfl <;> decide)
      (by rcases mark with rfl | rfl <;> decide) own ends
  have reads : ReadsOff (back.map char) added := reads _ fun c first space => faces_space first space
  have same : facesOf false left back = facesOf (lineBehind true (facesOf true [] front)) left back := by
    rcases apart with ⟨face, last, carries⟩ | first
    · rw [line_behind_last last carries]
    · exact (faces_any_line first).symm
  show ((ofSource _).tokens.toList).map Token.face = _
  rw [of_source_scan, glyphs]
  show facesOf true left (front ++ (singles (added.flatMap Prod.snd) ++ back)) = _
  rw [settled.faces_append, reads.faces_append, line, same]

/-! ## Tokens at a position -/

/-- The faces stand in the sequence from the position on. -/
def FacesAt (ts : TokenSeq) (i : Nat) (faces : List TokenFace) : Prop :=
  faces <+: ts.faces.drop i

section FacesAt

variable {ts : TokenSeq} {i limit : Nat} {face : TokenFace} {rest : List TokenFace}

theorem faces_at_cons : ts.FacesAt i (face :: rest) ↔ ts.faces[i]? = some face ∧ ts.FacesAt (i + 1) rest := by
  rw [FacesAt, FacesAt, ← List.head?_drop, ← List.tail_drop]
  cases ts.faces.drop i with
  | nil => simp
  | cons other later => simp [List.cons_prefix_cons, eq_comm]

theorem faces_at_append {front back : List TokenFace} (there : ts.FacesAt i (front ++ back)) :
    ts.FacesAt i front ∧ ts.FacesAt (i + front.length) back := by
  induction front generalizing i with
  | nil => exact ⟨List.nil_prefix, there⟩
  | cons face front ih =>
    obtain ⟨here, later⟩ := faces_at_cons.1 there
    obtain ⟨first, second⟩ := ih later
    refine ⟨faces_at_cons.2 ⟨here, first⟩, ?_⟩
    rwa [List.length_cons, Nat.add_comm front.length, ← Nat.add_assoc]

theorem FacesAt.kind (there : ts.FacesAt i (face :: rest)) : ts.kind? i = some face.1 := by
  rw [kind_of_faces, (faces_at_cons.1 there).1, Option.map_some]

theorem FacesAt.spelling (there : ts.FacesAt i (face :: rest)) :
    ts.spelling i = String.ofList (logicalChars face.2) := by
  rw [spelling_of_faces, (faces_at_cons.1 there).1, Option.map_some, Option.getD_some]

theorem FacesAt.next (there : ts.FacesAt i (face :: rest)) (carries : face.1.isTrivia = false)
    (inside : i < limit) : ts.nextSignificant i limit = some i :=
  next_significant_here (significant_of_kind there.kind carries) inside

theorem FacesAt.next_blank (there : ts.FacesAt i (blank :: face :: rest)) (carries : face.1.isTrivia = false)
    (inside : i + 1 < limit) : ts.nextSignificant i limit = some (i + 1) := by
  have behind := (faces_at_cons.1 there).2
  refine next_significant_iff.2 ⟨Nat.le_succ i, inside, significant_of_kind behind.kind carries, ?_⟩
  intro q lower upper
  obtain rfl : q = i := by omega
  rw [isSignificant, kindIs, there.kind]
  rfl

end FacesAt

end TokenSeq

end AllocGuard
