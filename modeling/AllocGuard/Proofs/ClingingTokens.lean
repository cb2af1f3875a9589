import Mathlib.Data.List.Nodup
import AllocGuard.Proofs.CopiedTokens
import AllocGuard.Proofs.FaithfulKinds

/-! When a token goes on into the text behind it. A word takes more word characters, a mark becomes a
longer one, two slashes or a slash and a star make a comment, and a literal without an end takes the rest
of the line. A token is said to cling to such a text. In front of any other text on its line it is read as
it is by itself. -/
namespace AllocGuard

namespace Lexeme

variable {lineStart : Bool} {spelling : String} {first quote c : Char} {tail rest body next : List Char}
  {kind : TokenKind}

/-- Whether a literal has its closing quote, given what stands behind the opening one. -/
def closesQuote (quote : Char) : List Char → Bool
  | [] => false
  | '\\' :: _ :: rest => closesQuote quote rest
  | c :: rest => c == quote || closesQuote quote rest

/-- A literal that is spelled so has no closing quote. It may start with an encoding mark. -/
def isOpenLiteral (spelling : List Char) : Bool :=
  match spelling.dropWhile (!isQuote ·) with
  | quote :: body => !closesQuote quote body
  | [] => false

/-- Whether a number that is spelled so takes the character as well. -/
def numberTakes (spelling : List Char) (c : Char) : Bool :=
  c.isAlphanum || c == '_' || c == '.' ||
    ((c == '+' || c == '-') && spelling.getLast?.any isExponentMark)

/-- Whether a word that is spelled so takes the character as well, or becomes the mark of a literal. -/
def wordTakes (spelling : List Char) (c : Char) : Bool :=
  isIdentChar c || isLiteralMark (String.ofList spelling) && isQuote c

/-- Whether a mark goes on behind its end: as a longer mark, a comment or a number. -/
def markGoesOn : List Char → List Char → Bool
  | [], _ => false
  | first :: tail, next =>
    (marksFrom first).any (fun mark => tail.length < mark.1.length && mark.1.isPrefixOf (tail ++ next)) ||
      tail.isEmpty && (first == '/' && (follows next '/' || follows next '*') ||
        first == '.' && next.head?.any Char.isDigit)

/-- Whether a token goes on into the text behind it, or is read as another one there. A directive is none
inside a line. A pragma operator without an operand may find one. -/
def clings (kind : TokenKind) (spelling next : List Char) : Bool :=
  match kind with
  | .directive => true
  | .string | .character => isOpenLiteral spelling && !next.isEmpty
  | .number => next.head?.any (numberTakes spelling)
  | .pragma =>
    isBarePragma .pragma spelling && (next.head?.any isIdentChar || pragmaLength next != 0)
  | kind => if kind.isWord then next.head?.any (wordTakes spelling) else markGoesOn spelling next

/-! ## Literals -/

theorem quoted_length_pos (newline : c ≠ '\n') (rest : List Char) : 0 < quotedLength quote (c :: rest) := by
  rcases eq_or_ne c '\\' with rfl | backslash
  · exact quoted_escape_pos quote rest
  · rw [quoted_length_cons newline backslash]
    split
    · exact Nat.one_pos
    · exact Nat.succ_pos _

theorem closes_quote_cons (backslash : c ≠ '\\') (rest : List Char) :
    closesQuote quote (c :: rest) = (c == quote || closesQuote quote rest) := by
  rw [closesQuote]
  exact fun _ _ escape => absurd escape backslash

/-- A literal ends in front of everything if it has its closing quote, and else only at the end of a line. -/
theorem quoted_again_iff (quotes : isQuote quote = true) (own : quotedLength quote body = body.length)
    (line : next.head? ≠ some '\n') :
    quotedLength quote (body ++ next) = body.length ↔ (!closesQuote quote body && !next.isEmpty) = false := by
  have other {d : Char} {more : List Char} (here : next = d :: more) : d ≠ '\n' := by
    rintro rfl
    exact line (here ▸ rfl)
  fun_induction quotedLength quote body with
  | case1 =>
    cases next with
    | nil => exact iff_of_true rfl rfl
    | cons d next =>
      exact iff_of_false (Nat.ne_of_gt (quoted_length_pos (other rfl) next)) (Ne.symm Bool.false_ne_true)
  | case2 tail => cases own
  | case3 =>
    have opened : closesQuote quote ['\\'] = false := by
      rw [closesQuote, closesQuote, Bool.or_false, beq_eq_false_iff_ne]
      · rintro rfl
        cases quotes
      · rintro _ _ _ ⟨⟩
    rw [opened]
    cases next with
    | nil => exact iff_of_true rfl rfl
    | cons d next =>
      refine iff_of_false ?_ (Ne.symm Bool.false_ne_true)
      rw [List.singleton_append, quoted_length_escape (other rfl)]
      exact fun same => by cases same
  | case4 tail => cases own
  | case5 c rest newline ih =>
    rw [List.cons_append, List.cons_append, quoted_length_escape newline, closesQuote]
    exact Nat.add_right_cancel_iff.trans (ih (Nat.add_right_cancel own))
  | case6 rest newline alone joined escape =>
    cases rest with
    | cons d rest => cases own
    | nil =>
      have backslash : quote ≠ '\\' := fun same => alone same rfl
      rw [List.singleton_append, quoted_length_cons newline backslash, if_pos rfl, closes_quote_cons backslash,
        beq_self_eq_true]
      exact iff_of_true rfl rfl
  | case7 c rest newline alone joined escape different ih =>
    have backslash : c ≠ '\\' := by
      rintro rfl
      cases rest with
      | nil => exact alone rfl rfl
      | cons d rest => exact escape d rest rfl rfl
    rw [List.cons_append, quoted_length_cons newline backslash, if_neg different, closes_quote_cons backslash,
      beq_false_of_ne different, Bool.false_or]
    exact Nat.add_right_cancel_iff.trans (ih (Nat.add_right_cancel own))

/-! ## Numbers -/

theorem number_length_cons (c d : Char) (rest : List Char) :
    numberLength (isExponentMark c) (d :: rest) =
      if numberTakes [c] d then numberLength (isExponentMark d) rest + 1 else 0 := by
  have takes : numberTakes [c] d = (d.isAlphanum || d == '_' || d == '.' ||
      ((d == '+' || d == '-') && isExponentMark c)) := rfl
  rw [numberLength, takes]
  by_cases word : (d.isAlphanum || d == '_' || d == '.') = true
  · rw [if_pos word, word, Bool.true_or, if_pos rfl]
  · rw [if_neg word, Bool.eq_false_iff.2 word, Bool.false_or]
    by_cases sign : ((d == '+' || d == '-') && isExponentMark c) = true
    · have none : isExponentMark d = false := by
        rw [Bool.and_eq_true, Bool.or_eq_true, beq_iff_eq, beq_iff_eq] at sign
        rcases sign.1 with rfl | rfl <;> rfl
      rw [if_pos sign, if_pos sign, none]
    · rw [if_neg sign, if_neg sign]

theorem number_again_iff {c : Char} {tail : List Char}
    (own : numberLength (isExponentMark c) tail = tail.length) (next : List Char) :
    numberLength (isExponentMark c) (tail ++ next) = tail.length ↔
      next.head?.any (numberTakes (c :: tail)) = false := by
  induction tail generalizing c with
  | nil =>
    cases next with
    | nil => exact iff_of_true rfl rfl
    | cons d next =>
      rw [List.nil_append, number_length_cons, List.head?_cons, Option.any_some]
      cases numberTakes [c] d with
      | true => exact iff_of_false (Nat.succ_ne_zero _) (Ne.symm Bool.false_ne_true)
      | false => exact iff_of_true rfl rfl
  | cons d tail ih =>
    have spelled : numberTakes (c :: d :: tail) = numberTakes (d :: tail) := by
      funext next
      rw [numberTakes, numberTakes, List.getLast?_cons_cons]
    rw [number_length_cons] at own
    rw [List.cons_append, number_length_cons, spelled]
    split at own
    · rename_i takes
      rw [if_pos takes]
      exact Nat.add_right_cancel_iff.trans (ih (Nat.add_right_cancel own))
    · cases own

theorem read_number (number : (first.isDigit || (first == '.' && rest.head?.any Char.isDigit)) = true) :
    read false first rest = (.number, numberLength false rest) := by
  have other (c : Char) (mark : c.isDigit = false) (dot : c ≠ '.') : first ≠ c := by
    rintro rfl
    rw [mark, beq_false_of_ne dot] at number
    cases number
  have space : isSpace first = false := by
    simp only [isSpace, Bool.or_eq_false_iff, beq_eq_false_iff_ne]
    exact ⟨⟨⟨⟨⟨other _ rfl (by decide), other _ rfl (by decide)⟩, other _ rfl (by decide)⟩,
      other _ rfl (by decide)⟩, other _ rfl (by decide)⟩, other _ rfl (by decide)⟩
  have slash := beq_false_of_ne (other '/' rfl (by decide))
  have double := beq_false_of_ne (other '"' rfl (by decide))
  have single := beq_false_of_ne (other '\'' rfl (by decide))
  simp only [read, space, slash, double, single, number, Bool.false_and, Bool.and_false, Bool.false_eq_true,
    if_false, if_true]

/-- A number starts like one with other text behind it, and not with an exponent mark. -/
theorem number_behind (number : (first.isDigit || (first == '.' && tail.head?.any Char.isDigit)) = true)
    (next : List Char) :
    (first.isDigit || (first == '.' && (tail ++ next).head?.any Char.isDigit)) = true ∧
      isExponentMark first = false := by
  rw [Bool.or_eq_true, Bool.and_eq_true, beq_iff_eq] at number ⊢
  rcases number with digit | ⟨rfl, point⟩
  · refine ⟨.inl digit, Bool.eq_false_iff.2 fun exponent => ?_⟩
    simp only [isExponentMark, Bool.or_eq_true, beq_iff_eq] at exponent
    rcases exponent with ((rfl | rfl) | rfl) | rfl <;> cases digit
  · cases tail with
    | nil => cases point
    | cons d tail => exact ⟨.inr ⟨rfl, point⟩, rfl⟩

/-! ## Marks -/

theorem marks_differ (c : Char) : ((marksFrom c).map Prod.fst).Nodup := by
  unfold marksFrom
  split <;> decide

/-- The longest mark is a given one that stands there, unless a longer one does. -/
theorem Longest.eq_iff {table : List (List Char × TokenKind)} (distinct : (table.map Prod.fst).Nodup)
    (listed : (tail, kind) ∈ table) {token : TokenKind × Nat} (found : Longest table (tail ++ next) token)
    (inside : token.2 ≤ (tail ++ next).length) :
    token = (kind, tail.length) ↔
      table.any (fun mark => tail.length < mark.1.length && mark.1.isPrefixOf (tail ++ next)) = false := by
  have reaches : tail.length ≤ token.2 := found.longest (tail, kind) listed (List.prefix_append tail next)
  rw [List.any_eq_false]
  constructor
  · rintro rfl mark member longer
    rw [Bool.and_eq_true, decide_eq_true_eq, List.isPrefixOf_iff_prefix] at longer
    exact absurd longer.1 (Nat.not_lt.2 (found.longest mark member longer.2))
  · intro shorter
    have most : token.2 ≤ tail.length := by
      by_contra more
      refine shorter _ found.listed ?_
      rw [Bool.and_eq_true, decide_eq_true_eq, List.isPrefixOf_iff_prefix, List.length_take_of_le inside]
      exact ⟨Nat.lt_of_not_le more, List.take_prefix _ _⟩
    have length := Nat.le_antisymm most reaches
    have taken := found.listed
    rw [length, List.take_left] at taken
    exact Prod.ext (Prod.mk.inj (List.inj_on_of_nodup_map distinct taken listed rfl)).2 length

/-- A mark is read again if no longer one stands there. -/
theorem punctuator_again_iff (own : punctuator first tail = (kind, tail.length)) (next : List Char) :
    punctuator first (tail ++ next) = (kind, tail.length) ↔
      (marksFrom first).any (fun mark =>
        tail.length < mark.1.length && mark.1.isPrefixOf (tail ++ next)) = false := by
  have alone := punctuator_longest first tail
  rw [own] at alone
  rcases alone with ⟨listed, _⟩ | ⟨none, same⟩
  · rw [List.take_length] at listed
    rcases punctuator_longest first (tail ++ next) with found | ⟨none, _⟩
    · exact found.eq_iff (marks_differ first) listed (punctuator_le first (tail ++ next))
    · rw [none] at listed
      cases listed
  · rcases punctuator_longest first (tail ++ next) with found | ⟨_, unknown⟩
    · have listed := found.listed
      rw [none] at listed
      cases listed
    · rw [unknown, none, same]
      exact iff_of_true rfl rfl

/-- The kinds that a mark can have, with that of a character that is none. -/
def isMarkKind (kind : TokenKind) : Bool :=
  !kind.isWord && !kind.isTrivia && kind != .directive && kind != .string && kind != .character &&
    kind != .number

theorem punctuator_mark (c : Char) (rest : List Char) : isMarkKind (punctuator c rest).1 = true := by
  unfold punctuator
  split
  all_goals first | rfl | (unfold assigned; split <;> rfl) | (split <;> rfl)

theorem clings_mark (mark : isMarkKind kind = true) (spelling next : List Char) :
    clings kind spelling next = markGoesOn spelling next := by
  cases kind <;> first | rfl | cases mark

/-- The text is not read as anything but a mark. -/
structure StartsMark (first : Char) (rest : List Char) : Prop where
  space : isSpace first = false
  comment : (first == '/' && (follows rest '/' || follows rest '*')) = false
  quote : isQuote first = false
  number : (first.isDigit || (first == '.' && rest.head?.any Char.isDigit)) = false
  word : isIdentStart first = false

theorem StartsMark.read (starts : StartsMark first rest) : Lexeme.read false first rest = punctuator first rest := by
  obtain ⟨space, comment, quote, number, word⟩ := starts
  rw [Bool.and_or_distrib_left, Bool.or_eq_false_iff] at comment
  rw [isQuote, Bool.or_eq_false_iff] at quote
  simp only [Lexeme.read, space, comment.1, comment.2, quote.1, quote.2, number, word, Bool.and_false,
    Bool.false_eq_true, if_false]

/-- What is a mark by itself is one in front of other text, unless it becomes a comment or a number. -/
theorem StartsMark.again_iff (starts : StartsMark first tail) (next : List Char) :
    StartsMark first (tail ++ next) ↔
      (tail.isEmpty && (first == '/' && (follows next '/' || follows next '*') ||
        first == '.' && next.head?.any Char.isDigit)) = false := by
  cases tail with
  | nil =>
    rw [List.nil_append, List.isEmpty_nil, Bool.true_and, Bool.or_eq_false_iff]
    have digit : first.isDigit = false := (Bool.or_eq_false_iff.1 starts.number).1
    constructor
    · exact fun again => ⟨again.comment, (Bool.or_eq_false_iff.1 again.number).2⟩
    · exact fun ⟨comment, number⟩ =>
        ⟨starts.space, comment, starts.quote, Bool.or_eq_false_iff.2 ⟨digit, number⟩, starts.word⟩
  | cons d tail =>
    exact iff_of_true ⟨starts.space, starts.comment, starts.quote, starts.number, starts.word⟩ rfl

theorem starts_mark (mark : isMarkKind (read lineStart first rest).1 = true) :
    StartsMark first rest ∧ read lineStart first rest = punctuator first rest := by
  unfold read at mark ⊢
  split_ifs at mark ⊢ with space line block directive string character number word
  all_goals first | cases mark | skip
  · rcases word_word first rest with word | string | character
    · rw [isMarkKind, word] at mark
      cases mark
    · rw [string] at mark
      cases mark
    · rw [character] at mark
      cases mark
  · refine ⟨⟨Bool.eq_false_iff.2 space, ?_, ?_, Bool.eq_false_iff.2 number, Bool.eq_false_iff.2 word⟩, rfl⟩
    · rw [Bool.and_or_distrib_left, Bool.eq_false_iff.2 line, Bool.eq_false_iff.2 block, Bool.or_false]
    · rw [isQuote, Bool.eq_false_iff.2 string, Bool.eq_false_iff.2 character, Bool.or_false]

theorem read_mark_again_iff (mark : isMarkKind kind = true) (own : read lineStart first tail = (kind, tail.length))
    (next : List Char) :
    read false first (tail ++ next) = (kind, tail.length) ↔ clings kind (first :: tail) next = false := by
  obtain ⟨starts, same⟩ := starts_mark (show isMarkKind (read lineStart first tail).1 = true by rwa [own])
  rw [clings_mark mark, markGoesOn, Bool.or_eq_false_iff, ← punctuator_again_iff (same.symm.trans own),
    ← starts.again_iff]
  constructor
  · intro again
    obtain ⟨starts', same'⟩ := starts_mark (show isMarkKind (read false first (tail ++ next)).1 = true by
      rwa [again])
    exact ⟨same'.symm.trans again, starts'⟩
  · rintro ⟨again, starts'⟩
    rw [starts'.read, again]

/-! ## Words -/

theorem plain_word_pragma (keyword : TokenKind.ofKeyword? spelling = some .pragma) (length : Nat) (after : List Char) :
    plainWord spelling length after = (.pragma, length + pragmaLength after) := by
  rw [plainWord, keyword]

theorem plain_word_other (other : TokenKind.ofKeyword? spelling ≠ some .pragma) (length : Nat) (after : List Char) :
    plainWord spelling length after = ((TokenKind.ofKeyword? spelling).getD .identifier, length) := by
  unfold plainWord
  split
  · rename_i pragma
    exact absurd pragma other
  · rename_i keyword
    rw [keyword]
    rfl
  · rename_i none
    rw [none]
    rfl

/-- The first character behind a word tells where the word ends. -/
theorem word_behind (whole : wordLength tail = tail.length) (ends : next.head?.any isIdentChar = false) :
    word first (tail ++ next) = wordBefore (String.ofList (first :: tail)) tail.length next := by
  have none : runLength isIdentChar next = 0 := by
    cases next with
    | nil => rfl
    | cons d next => rw [run_length_cons, show isIdentChar d = false from ends, if_neg Bool.false_ne_true]
  have length : wordLength (tail ++ next) = tail.length := by
    rw [wordLength, run_length_whole whole, none, Nat.add_zero]
  rw [word_eq, length, List.take_left, List.drop_left]

theorem word_longer {first : Char} {tail next : List Char} (whole : wordLength tail = tail.length)
    (goesOn : next.head?.any isIdentChar = true) : tail.length < (word first (tail ++ next)).2 := by
  refine Nat.lt_of_lt_of_le ?_ (word_le first (tail ++ next)).1
  rw [wordLength, run_length_whole whole]
  cases next with
  | nil => cases goesOn
  | cons d next =>
    rw [run_length_cons, if_pos (show isIdentChar d = true from goesOn)]
    omega

theorem clings_word (word : kind.isWord = true) (other : kind ≠ .pragma) (spelling next : List Char) :
    clings kind spelling next = next.head?.any (wordTakes spelling) := by
  cases kind <;> first | rfl | exact absurd rfl other | cases word

theorem clings_literal {spelling : List Char} :
    clings (literalKind quote) spelling next = (isOpenLiteral spelling && !next.isEmpty) := by
  unfold literalKind
  split <;> rfl

theorem is_open_literal_marked {front : List Char} (word : ∀ c ∈ front, isQuote c = false)
    (quotes : isQuote quote = true) (body : List Char) :
    isOpenLiteral (front ++ quote :: body) = !closesQuote quote body := by
  have cut : (front ++ quote :: body).dropWhile (!isQuote ·) = quote :: body := by
    rw [List.dropWhile_append_of_pos fun c member => by rw [word c member]; rfl,
      List.dropWhile_cons_of_neg (by rw [quotes]; exact Bool.false_ne_true)]
  rw [isOpenLiteral, cut]

theorem ident_no_quote (ident : isIdentChar c = true) : isQuote c = false :=
  (passed_iff.1 (ident_passed ident)).2

/-- A literal with an encoding mark. -/
theorem marked_again_iff (starts : isIdentStart first = true)
    (literal : MarksLiteral (String.ofList (first :: tail.take (wordLength tail))) (tail.drop (wordLength tail)) quote
      body) (own : word first tail = (kind, tail.length)) (line : next.head? ≠ some '\n') :
    word first (tail ++ next) = (kind, tail.length) ↔ clings kind (first :: tail) next = false := by
  obtain ⟨mark, quotes, behind⟩ := literal
  have inside : wordLength tail < tail.length := by
    by_contra whole
    rw [List.drop_eq_nil_of_le (Nat.le_of_not_lt whole)] at behind
    cases behind
  have length : wordLength (tail ++ next) = wordLength tail := (run_length_local _).stops inside next
  have split : tail = tail.take (wordLength tail) ++ quote :: body := by
    rw [← behind, List.take_append_drop]
  have size : tail.length = wordLength tail + 1 + body.length := by
    have size := congrArg List.length split
    rw [List.length_append, List.length_take_of_le (Nat.le_of_lt inside), List.length_cons] at size
    omega
  rw [word_eq, word_before_literal ⟨mark, quotes, behind⟩, Prod.mk.injEq] at own
  obtain ⟨rfl, own⟩ := own
  have again : word first (tail ++ next) =
      (literalKind quote, wordLength tail + 1 + quotedLength quote (body ++ next)) := by
    rw [word_eq, length, List.take_append_of_le_length (Nat.le_of_lt inside),
      List.drop_append_of_le_length (Nat.le_of_lt inside), behind]
    exact word_before_literal ⟨mark, quotes, rfl⟩ _
  have word : ∀ c ∈ first :: tail.take (wordLength tail), isQuote c = false := by
    refine List.forall_mem_cons.2 ⟨ident_no_quote ?_, fun c member => ident_no_quote (run_chars member)⟩
    rw [isIdentChar, starts, Bool.true_or]
  have opened : isOpenLiteral (first :: tail) = !closesQuote quote body := by
    rw [split, ← List.cons_append]
    exact is_open_literal_marked word quotes body
  rw [again, clings_literal, opened, ← quoted_again_iff quotes (by omega) line, Prod.mk.injEq]
  constructor
  · rintro ⟨_, same⟩
    omega
  · intro same
    exact ⟨rfl, by omega⟩

/-- A word that is not a pragma operator. -/
theorem plain_again_iff (other : TokenKind.ofKeyword? (String.ofList (first :: tail)) ≠ some .pragma)
    (whole : wordLength tail = tail.length)
    (named : (TokenKind.ofKeyword? (String.ofList (first :: tail))).getD .identifier = kind) (next : List Char) :
    word first (tail ++ next) = (kind, tail.length) ↔ clings kind (first :: tail) next = false := by
  have isWord : kind.isWord = true ∧ kind ≠ .pragma := by
    cases keyword : TokenKind.ofKeyword? (String.ofList (first :: tail)) with
    | none =>
      rw [keyword] at named
      exact named ▸ ⟨rfl, by decide⟩
    | some kind' =>
      rw [keyword, Option.getD_some] at named
      subst named
      refine ⟨?_, fun pragma => other (pragma ▸ keyword)⟩
      rw [TokenKind.isWord, keyword_kind keyword, Bool.or_true]
  rw [clings_word isWord.1 isWord.2]
  cases goesOn : next.head?.any isIdentChar with
  | true =>
    refine iff_of_false (fun again => ?_) ?_
    · have longer := @word_longer first tail next whole goesOn
      rw [again] at longer
      exact Nat.lt_irrefl _ longer
    · cases next with
      | nil => cases goesOn
      | cons d next =>
        have ident : isIdentChar d = true := goesOn
        rw [List.head?_cons, Option.any_some, wordTakes, ident, Bool.true_or]
        exact Ne.symm Bool.false_ne_true
  | false =>
    rw [word_behind whole goesOn]
    by_cases literal : ∃ quote body, MarksLiteral (String.ofList (first :: tail)) next quote body
    · obtain ⟨quote, body, literal⟩ := literal
      obtain ⟨mark, quotes, rfl⟩ := literal
      refine iff_of_false ?_ ?_
      · rw [word_before_literal ⟨mark, quotes, rfl⟩, Prod.mk.injEq]
        omega
      · rw [List.head?_cons, Option.any_some, wordTakes, mark, quotes, Bool.and_true, Bool.or_true]
        exact Ne.symm Bool.false_ne_true
    · refine iff_of_true ?_ ?_
      · rw [word_before_plain fun quote body marks => literal ⟨quote, body, marks⟩, plain_word_other other, named]
      · cases next with
        | nil => rfl
        | cons d next =>
          have ident : isIdentChar d = false := goesOn
          rw [List.head?_cons, Option.any_some, wordTakes, ident, Bool.false_or, Bool.eq_false_iff,
            Ne, Bool.and_eq_true]
          exact fun marks => literal ⟨d, next, marks.1, marks.2, rfl⟩

/-- A pragma operator without an operand. -/
theorem bare_again_iff (keyword : TokenKind.ofKeyword? (String.ofList (first :: tail)) = some .pragma)
    (whole : wordLength tail = tail.length) (next : List Char) :
    word first (tail ++ next) = (.pragma, tail.length) ↔ clings .pragma (first :: tail) next = false := by
  have bare : clings .pragma (first :: tail) next =
      (next.head?.any isIdentChar || pragmaLength next != 0) := by
    rw [clings, isBarePragma, keyword]
    rfl
  rw [bare]
  cases goesOn : next.head?.any isIdentChar with
  | true =>
    refine iff_of_false (fun again => ?_) (Ne.symm Bool.false_ne_true)
    have longer := @word_longer first tail next whole goesOn
    rw [again] at longer
    exact Nat.lt_irrefl _ longer
  | false =>
    rw [word_behind whole goesOn, word_before_plain (pragma_no_mark keyword next), plain_word_pragma keyword,
      Prod.mk.injEq, Nat.add_eq_left, Bool.false_or, bne_eq_false_iff_eq]
    exact and_iff_right rfl

/-- A pragma operator with its operand ends with it. -/
theorem given_again (inside : wordLength tail < tail.length)
    (own : plainWord (String.ofList (first :: tail.take (wordLength tail))) (wordLength tail)
      (tail.drop (wordLength tail)) = (kind, tail.length)) (next : List Char) :
    word first (tail ++ next) = (kind, tail.length) ∧ clings kind (first :: tail) next = false := by
  have keyword : TokenKind.ofKeyword? (String.ofList (first :: tail.take (wordLength tail))) = some .pragma := by
    by_contra other
    rw [plain_word_other other, Prod.mk.injEq] at own
    omega
  rw [plain_word_pragma keyword, Prod.mk.injEq] at own
  obtain ⟨rfl, size⟩ := own
  have given : 0 < pragmaLength (tail.drop (wordLength tail)) := by omega
  have length : wordLength (tail ++ next) = wordLength tail := (run_length_local _).stops inside next
  constructor
  · rw [word_eq, length, List.take_append_of_le_length (Nat.le_of_lt inside),
      List.drop_append_of_le_length (Nat.le_of_lt inside), word_before_plain (pragma_no_mark keyword _),
      plain_word_pragma keyword, (pragma_length_append given next).2, size]
  · -- the parenthesis of the operand is not part of a keyword
    have operand : isBarePragma .pragma (first :: tail) = false := by
      rw [Bool.eq_false_iff]
      intro bare
      rw [isBarePragma, Bool.and_eq_true, beq_iff_eq, beq_iff_eq] at bare
      have chars := (List.forall_mem_cons.1 (keyword_pragma bare.2)).2
      have whole : wordLength tail = tail.length := by
        rw [wordLength, runLength, List.takeWhile_eq_self_iff.2 chars]
      omega
    rw [clings, operand, Bool.false_and]

theorem word_again_iff (starts : isIdentStart first = true) (own : word first tail = (kind, tail.length))
    (line : next.head? ≠ some '\n') :
    word first (tail ++ next) = (kind, tail.length) ↔ clings kind (first :: tail) next = false := by
  by_cases literal : ∃ quote body, MarksLiteral (String.ofList (first :: tail.take (wordLength tail)))
      (tail.drop (wordLength tail)) quote body
  · obtain ⟨quote, body, literal⟩ := literal
    exact marked_again_iff starts literal own line
  have plain := own
  rw [word_eq, word_before_plain fun quote body marks => literal ⟨quote, body, marks⟩] at plain
  rcases Nat.lt_or_eq_of_le (word_length_le tail) with inside | whole
  · obtain ⟨again, apart⟩ := given_again inside plain next
    exact iff_of_true again apart
  · rw [whole, List.take_length, List.drop_length] at plain
    by_cases keyword : TokenKind.ofKeyword? (String.ofList (first :: tail)) = some .pragma
    · rw [plain_word_pragma keyword, Prod.mk.injEq] at plain
      rw [← plain.1]
      exact bare_again_iff keyword whole next
    · rw [plain_word_other keyword, Prod.mk.injEq] at plain
      exact plain_again_iff keyword whole plain.1 next

/-! ## All tokens -/

theorem is_open_literal_cons (quotes : isQuote quote = true) (body : List Char) :
    isOpenLiteral (quote :: body) = !closesQuote quote body :=
  is_open_literal_marked (List.forall_mem_nil _) quotes body

/-- A token that carries meaning is read again from its spelling, with other text behind it on the same
line, exactly if it does not cling to that text. -/
theorem read_again_iff (own : read lineStart first tail = (kind, tail.length)) (carries : kind.isTrivia = false)
    (line : next.head? ≠ some '\n') :
    read false first (tail ++ next) = (kind, tail.length) ↔ clings kind (first :: tail) next = false := by
  by_cases mark : isMarkKind kind = true
  · exact read_mark_again_iff mark own next
  have quoted {quote : Char} (quotes : isQuote quote = true) (length : quotedLength quote tail = tail.length) :
      quotedLength quote (tail ++ next) = tail.length ↔
        (isOpenLiteral (quote :: tail) && !next.isEmpty) = false := by
    rw [is_open_literal_cons quotes]
    exact quoted_again_iff quotes length line
  unfold read at own
  split_ifs at own with space lineMark blockMark directive string character number word
  · rw [← (Prod.mk.inj own).1] at carries
    cases carries
  · rw [← (Prod.mk.inj own).1] at carries
    cases carries
  · rw [← (Prod.mk.inj own).1] at carries
    cases carries
  · rw [Bool.and_eq_true, beq_iff_eq] at directive
    obtain ⟨rfl, _⟩ := directive
    rw [← (Prod.mk.inj own).1]
    refine iff_of_false (fun again => ?_) (Ne.symm Bool.false_ne_true)
    have operator := (read_hash (tail ++ next)).2
    rw [again] at operator
    cases operator
  · obtain rfl := beq_iff_eq.1 string
    obtain ⟨rfl, length⟩ := Prod.mk.inj own
    show (TokenKind.string, quotedLength '"' (tail ++ next)) = (.string, tail.length) ↔ _
    rw [Prod.mk.injEq, and_iff_right rfl]
    exact quoted rfl length
  · obtain rfl := beq_iff_eq.1 character
    obtain ⟨rfl, length⟩ := Prod.mk.inj own
    show (TokenKind.character, quotedLength '\'' (tail ++ next)) = (.character, tail.length) ↔ _
    rw [Prod.mk.injEq, and_iff_right rfl]
    exact quoted rfl length
  · obtain ⟨rfl, length⟩ := Prod.mk.inj own
    obtain ⟨longer, exponent⟩ := number_behind number next
    have again := @number_again_iff first tail (exponent ▸ length) next
    rw [exponent] at again
    rw [read_number longer, Prod.mk.injEq, and_iff_right rfl]
    exact again
  · rw [read_word word]
    exact word_again_iff word own line
  · refine absurd ?_ mark
    have mark := punctuator_mark first tail
    rwa [own] at mark

end Lexeme

end AllocGuard
