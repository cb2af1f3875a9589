import AllocGuard.Proofs.SpelledSource
import AllocGuard.Proofs.WordReading

/-! What the kind of a token says about its spelling. A mark is the longest one of a table that stands
there. An identifier or a keyword is all the word characters that stand there, and white space is nothing
else. Tokens are spelled by logical characters, so this holds with trigraphs and joined line ends inside
them or right behind them. -/
namespace AllocGuard

/-! ## Marks -/

/-- The mark that a token of the kind is, if there is only one. -/
def TokenKind.mark? : TokenKind → Option String
  | openBrace => some "\x7b"
  | closeBrace => some "\x7d"
  | openParen => some "("
  | closeParen => some ")"
  | openBracket => some "["
  | closeBracket => some "]"
  | comma => some ","
  | semicolon => some ";"
  | colon => some ":"
  | star => some "*"
  | question => some "?"
  | assign => some "="
  | equal => some "=="
  | notEqual => some "!="
  | bang => some "!"
  | ampersand => some "&"
  | dot => some "."
  | arrow => some "->"
  | ellipsis => some "..."
  | _ => none

namespace Lexeme

variable {p : Char → Bool} {rest cs : List Char} {c : Char}

/-- The operators that have no kind of their own. -/
def operators : List String :=
  ["~", "*=", "&&", "&=", "-", "--", "-=", "+", "++", "+=", "|", "||", "|=", "<", "<<", "<=", "<<=",
    ">", ">>", ">=", ">>=", "#", "##", "/", "/=", "%", "%=", "^", "^="]

/-- The marks that start with a character: what stands behind it, and the kind. -/
def marksFrom : Char → List (List Char × TokenKind)
  | '\x7b' => [([], .openBrace)]
  | '\x7d' => [([], .closeBrace)]
  | '(' => [([], .openParen)]
  | ')' => [([], .closeParen)]
  | '[' => [([], .openBracket)]
  | ']' => [([], .closeBracket)]
  | ',' => [([], .comma)]
  | ';' => [([], .semicolon)]
  | '?' => [([], .question)]
  | ':' => [([], .colon)]
  | '~' => [([], .operator)]
  | '*' => [([], .star), (['='], .operator)]
  | '=' => [([], .assign), (['='], .equal)]
  | '!' => [([], .bang), (['='], .notEqual)]
  | '&' => [([], .ampersand), (['&'], .operator), (['='], .operator)]
  | '.' => [([], .dot), (['.', '.'], .ellipsis)]
  | '-' => [([], .operator), (['>'], .arrow), (['-'], .operator), (['='], .operator)]
  | '+' => [([], .operator), (['+'], .operator), (['='], .operator)]
  | '|' => [([], .operator), (['|'], .operator), (['='], .operator)]
  | '<' => [([], .operator), (['<'], .operator), (['='], .operator), (['<', '='], .operator)]
  | '>' => [([], .operator), (['>'], .operator), (['='], .operator), (['>', '='], .operator)]
  | '#' => [([], .operator), (['#'], .operator)]
  | '/' => [([], .operator), (['='], .operator)]
  | '%' => [([], .operator), (['='], .operator)]
  | '^' => [([], .operator), (['='], .operator)]
  | _ => []

/-- The token is a mark of the table, and none of those that stand at the front of the text is longer. -/
structure Longest (table : List (List Char × TokenKind)) (rest : List Char) (token : TokenKind × Nat) :
    Prop where
  listed : (rest.take token.2, token.1) ∈ table
  longest : ∀ mark ∈ table, mark.1 <+: rest → mark.1.length ≤ token.2

theorem follows_of_front {tail : List Char} (front : c :: tail <+: rest) : follows rest c = true := by
  obtain ⟨more, rfl⟩ := front
  exact follows_iff.2 ⟨tail ++ more, rfl⟩

/-- A mark that may go on with one more character, the first of the choices that follows. -/
theorem longest_choice (kind : TokenKind) (choices : List (Char × TokenKind)) (rest : List Char) :
    Longest (([], kind) :: choices.map fun choice => ([choice.1], choice.2)) rest
      (((choices.find? fun choice => follows rest choice.1).map fun choice => (choice.2, 1)).getD
        (kind, 0)) := by
  cases found : choices.find? fun choice => follows rest choice.1 with
  | some choice =>
    have follow : follows rest choice.1 = true := by simpa using List.find?_some found
    obtain ⟨more, rfl⟩ := follows_iff.1 follow
    refine ⟨List.mem_cons_of_mem _ (List.mem_map.2 ⟨choice, List.mem_of_find?_eq_some found, rfl⟩), ?_⟩
    intro mark member _
    rcases List.mem_cons.1 member with rfl | later
    · exact Nat.zero_le 1
    · obtain ⟨_, _, rfl⟩ := List.mem_map.1 later
      exact Nat.le_refl 1
  | none =>
    refine ⟨List.mem_cons_self, fun mark member front => ?_⟩
    rcases List.mem_cons.1 member with rfl | later
    · exact Nat.le_refl 0
    · obtain ⟨other, inside, rfl⟩ := List.mem_map.1 later
      exact absurd (follows_of_front front) (List.find?_eq_none.1 found other inside)

theorem longest_shift (c : Char) (rest : List Char) :
    Longest [([], .operator), ([c], .operator), (['='], .operator), ([c, '='], .operator)] rest
      (.operator, punctuator.shiftLength c rest) := by
  by_cases doubled : follows rest c = true
  · obtain ⟨more, rfl⟩ := follows_iff.1 doubled
    have length : punctuator.shiftLength c (c :: more) = 1 + if follows more '=' then 1 else 0 := by
      rw [punctuator.shiftLength, if_pos doubled]
      rfl
    rw [length]
    by_cases assigns : follows more '=' = true
    · obtain ⟨more, rfl⟩ := follows_iff.1 assigns
      rw [if_pos assigns]
      exact ⟨by simp, by simp⟩
    · rw [if_neg assigns]
      refine ⟨by simp, ?_⟩
      simp only [List.forall_mem_cons, List.length_cons, List.length_nil]
      refine ⟨fun _ => Nat.zero_le 1, fun _ => Nat.le_refl 1, fun _ => Nat.le_refl 1, fun front => ?_,
        List.forall_mem_nil _⟩
      exact absurd (follows_of_front (List.cons_prefix_cons.1 front).2) assigns
  · have length : punctuator.shiftLength c rest = 0 + if follows rest '=' then 1 else 0 := by
      rw [punctuator.shiftLength, if_neg doubled]
      rfl
    rw [length]
    by_cases assigns : follows rest '=' = true
    · obtain ⟨more, rfl⟩ := follows_iff.1 assigns
      rw [if_pos assigns]
      refine ⟨by simp, ?_⟩
      simp only [List.forall_mem_cons, List.length_cons, List.length_nil]
      refine ⟨fun _ => Nat.zero_le 1, fun _ => Nat.le_refl 1, fun _ => Nat.le_refl 1, fun front => ?_,
        List.forall_mem_nil _⟩
      exact absurd (follows_of_front front) doubled
    · rw [if_neg assigns]
      refine ⟨by simp, ?_⟩
      simp only [List.forall_mem_cons]
      exact ⟨fun _ => Nat.le_refl 0, fun front => absurd (follows_of_front front) doubled,
        fun front => absurd (follows_of_front front) assigns,
        fun front => absurd (follows_of_front front) doubled, List.forall_mem_nil _⟩

theorem longest_dots (rest : List Char) :
    Longest [([], .dot), (['.', '.'], .ellipsis)] rest
      (if follows rest '.' && follows rest.tail '.' then (.ellipsis, 2) else (.dot, 0)) := by
  split
  · rename_i both
    obtain ⟨second, third⟩ := Bool.and_eq_true_iff.1 both
    obtain ⟨more, rfl⟩ := follows_iff.1 second
    obtain ⟨more, rfl⟩ := follows_iff.1 third
    exact ⟨by simp, by simp⟩
  · rename_i alone
    refine ⟨by simp, List.forall_mem_cons.2 ⟨fun _ => Nat.le_refl 0, ?_⟩⟩
    refine List.forall_mem_singleton.2 fun front => ?_
    obtain ⟨more, rfl⟩ := front
    exact absurd rfl alone

/-- A punctuator is the longest mark that stands there. A character that starts no mark is unknown. -/
theorem punctuator_longest (c : Char) (rest : List Char) :
    Longest (marksFrom c) rest (punctuator c rest) ∨
      marksFrom c = [] ∧ punctuator c rest = (.unknown, 0) := by
  have chosen {token : TokenKind × Nat} (kind : TokenKind) (choices : List (Char × TokenKind))
      (same : token = ((choices.find? fun choice => follows rest choice.1).map fun choice =>
        (choice.2, 1)).getD (kind, 0)) :
      Longest (([], kind) :: choices.map fun choice => ([choice.1], choice.2)) rest token :=
    same ▸ longest_choice kind choices rest
  have assigns (kind : TokenKind) : Longest [([], kind), (['='], .operator)] rest (assigned kind rest) := by
    refine chosen kind [('=', .operator)] ?_
    simp only [assigned, List.find?]
    cases follows rest '=' <;> rfl
  have doubles (c : Char) : Longest [([], .operator), ([c], .operator), (['='], .operator)] rest
      (doubledOrAssigned c rest) := by
    refine chosen .operator [(c, .operator), ('=', .operator)] ?_
    simp only [doubledOrAssigned, List.find?]
    cases follows rest c <;> cases follows rest '=' <;> rfl
  by_cases none : marksFrom c = []
  · refine .inr ⟨none, ?_⟩
    unfold punctuator
    split <;> first | rfl | cases none
  left
  unfold punctuator
  split
  all_goals first
    | exact chosen _ [] rfl
    | exact assigns _
    | exact doubles _
    | exact longest_shift _ rest
    | exact longest_dots rest
    | skip
  -- what is left has kinds of its own: `=`, `!`, `&`, `-` and `#`
  · refine chosen .assign [('=', .equal)] ?_
    simp only [List.find?]
    cases follows rest '=' <;> rfl
  · refine chosen .bang [('=', .notEqual)] ?_
    simp only [List.find?]
    cases follows rest '=' <;> rfl
  · refine chosen .ampersand [('&', .operator), ('=', .operator)] ?_
    simp only [List.find?]
    cases follows rest '&' <;> cases follows rest '=' <;> rfl
  · refine chosen .operator [('>', .arrow), ('-', .operator), ('=', .operator)] ?_
    simp only [doubledOrAssigned, List.find?]
    cases follows rest '>' <;> cases follows rest '-' <;> cases follows rest '=' <;> rfl
  · refine chosen .operator [('#', .operator)] ?_
    simp only [List.find?]
    cases follows rest '#' <;> rfl
  · refine absurd ?_ none
    unfold marksFrom
    split <;> first | rfl | contradiction

/-- Whether a mark of this kind may be spelled so. -/
def spellsMark (kind : TokenKind) (text : String) : Bool :=
  kind.mark?.all (· == text) && (kind != .operator || operators.contains text)

theorem marks_spelled (c : Char) :
    (marksFrom c).all (fun mark => spellsMark mark.2 (String.ofList (c :: mark.1))) = true := by
  unfold marksFrom
  split <;> rfl

theorem punctuator_spelled (c : Char) (rest : List Char) :
    spellsMark (punctuator c rest).1 (String.ofList (c :: rest.take (punctuator c rest).2)) = true := by
  rcases punctuator_longest c rest with ⟨listed, _⟩ | ⟨_, unknown⟩
  · exact List.all_eq_true.1 (marks_spelled c) _ listed
  · rw [unknown]
    rfl

theorem word_spells {kind : TokenKind} (word : kind.isWord = true) (text : String) : spellsMark kind text = true := by
  cases kind <;> first | rfl | cases word

theorem read_spells (lineStart : Bool) (first : Char) (rest : List Char) :
    spellsMark (read lineStart first rest).1
      (String.ofList (first :: rest.take (read lineStart first rest).2)) = true := by
  cases read_cases lineStart first rest with
  | space _ own => rw [own]; rfl
  | comment _ _ _ own => rw [own]; rfl
  | other kind member own =>
    rw [own]
    simp only [List.mem_cons, List.not_mem_nil, or_false] at member
    rcases member with rfl | rfl | rfl | rfl <;> rfl
  | word _ own =>
    rw [own]
    rcases word_word first rest with word | string | character
    · exact word_spells word _
    · rw [string]; rfl
    · rw [character]; rfl
  | punctuator own =>
    rw [own]
    exact punctuator_spelled first rest

/-! ## Words and white space -/

/-- A word takes all the word characters that stand there, the operand of a pragma operator apart, and
its spelling tells whether it is a keyword. -/
theorem read_word_whole {lineStart : Bool} {first : Char} {rest : List Char}
    (word : (read lineStart first rest).1.isWord = true) (other : (read lineStart first rest).1 ≠ .pragma) :
    isIdentStart first = true ∧ (read lineStart first rest).2 = wordLength rest ∧
      ((read lineStart first rest).1 = .identifier ∧
        TokenKind.ofKeyword? (String.ofList (first :: rest.take (wordLength rest))) = none ∨
        TokenKind.ofKeyword? (String.ofList (first :: rest.take (wordLength rest))) =
          some (read lineStart first rest).1) := by
  obtain ⟨starts, plain⟩ := read_plain_word word
  rw [plain] at other ⊢
  refine ⟨starts, ?_⟩
  unfold plainWord at other ⊢
  split
  · rename_i pragma
    rw [pragma] at other
    exact absurd rfl other
  · rename_i keyword
    exact ⟨rfl, .inr keyword⟩
  · rename_i none
    exact ⟨rfl, .inl ⟨rfl, none⟩⟩

theorem read_spaces {lineStart : Bool} {first : Char} (space : (read lineStart first rest).1 = .space) :
    ∀ c ∈ first :: rest.take (read lineStart first rest).2, isSpace c = true := by
  have starts := read_space space
  rw [read, if_pos starts]
  exact List.forall_mem_cons.2 ⟨starts, fun c member => run_chars member⟩

/-! ## Bytes -/

open Text

/-- A test that says the same of all characters outside ASCII says the same of a character and its
bytes. -/
theorem uniform_units (uniform : Uniform p) {u : Char} (member : u ∈ units c) : p u = p c := by
  by_cases wide : IsWide c
  · exact uniform u c (units_wide wide u member) wide
  · rw [units_narrow wide] at member
    rw [List.mem_singleton.1 member]

theorem uniform_bytes (uniform : Uniform p) (all : ∀ c ∈ cs, p c = true) : ∀ u ∈ bytes cs, p u = true := by
  intro u member
  obtain ⟨c, inside, part⟩ := List.mem_flatMap.1 member
  rw [uniform_units uniform part, all c inside]

theorem uniform_head (uniform : Uniform p) {value : Bool} (first : ∀ c ∈ cs.head?, p c = value) :
    ∀ u ∈ (bytes cs).head?, p u = value := by
  cases cs with
  | nil => exact fun u none => absurd none (Option.not_mem_none u)
  | cons c cs =>
    obtain ⟨u, us, parts⟩ := units_first c
    rw [bytes_cons, parts]
    rintro _ ⟨⟩
    rw [uniform_units uniform (parts ▸ List.mem_cons_self), first c rfl]

theorem ident_start_uniform : Uniform isIdentStart :=
  fun _ _ wide wide' => by rw [ident_start_wide wide, ident_start_wide wide']

theorem ident_char_uniform : Uniform isIdentChar :=
  fun _ _ wide wide' => by rw [ident_char_wide wide, ident_char_wide wide']

theorem space_uniform : Uniform isSpace := by
  have other {c : Char} (wide : Text.IsWide c) : isSpace c = false := start_no_space (ident_start_wide wide)
  intro c u wide wide'
  rw [other wide, other wide']

end Lexeme

/-! ## Tokens -/

/-- The spelling is one that a token of the kind can have. It is looked at byte by byte where the kind
does not list it. -/
structure TokenKind.FitsSpelling (kind : TokenKind) (spelling : String) : Prop where
  mark : ∀ mark, kind.mark? = some mark → spelling = mark
  operator : kind = .operator → spelling ∈ Lexeme.operators
  keyword : kind.isKeyword = true → kind ≠ .pragma → ofKeyword? spelling = some kind
  identifier : kind = .identifier → ofKeyword? spelling = none ∧
    (∃ u ∈ (Text.bytes spelling.toList).head?, Lexeme.isIdentStart u = true) ∧
      ∀ u ∈ Text.bytes spelling.toList, Lexeme.isIdentChar u = true
  space : kind = .space → ∀ u ∈ Text.bytes spelling.toList, Lexeme.isSpace u = true

namespace Lexeme

open Text

theorem head_starts {first : Char} (starts : isIdentStart first = true) (rest : List Char) :
    ∃ u ∈ (Text.bytes (first :: rest)).head?, isIdentStart u = true := by
  obtain ⟨u, us, parts⟩ := Text.units_first first
  refine ⟨u, by rw [Text.bytes_cons, parts]; rfl, ?_⟩
  rw [uniform_units ident_start_uniform (parts ▸ List.mem_cons_self), starts]

/-- What is read as a token fits the kind of the token. -/
theorem read_fits (lineStart : Bool) (first : Char) (rest : List Char) :
    (read lineStart first rest).1.FitsSpelling
      (String.ofList (first :: rest.take (read lineStart first rest).2)) := by
  have spells := read_spells lineStart first rest
  simp only [spellsMark, Bool.and_eq_true, Bool.or_eq_true, bne_iff_ne, List.contains_iff_mem] at spells
  obtain ⟨one, listed⟩ := spells
  refine ⟨fun mark own => ?_, fun operator => ?_, fun keyword other => ?_, fun identifier => ?_, fun space => ?_⟩
  · rw [own, Option.all_some, beq_iff_eq] at one
    exact one.symm
  · exact listed.resolve_left fun no => no operator
  · have word : (read lineStart first rest).1.isWord = true := by
      rw [TokenKind.isWord, keyword, Bool.or_true]
    obtain ⟨_, length, ⟨identifier, _⟩ | found⟩ := read_word_whole word other
    · rw [identifier] at keyword
      cases keyword
    · rw [length, found]
  · have name := read_identifier identifier
    refine ⟨name.plain, ?_⟩
    rw [String.toList_ofList]
    refine ⟨head_starts name.starts _, uniform_bytes ident_char_uniform ?_⟩
    refine List.forall_mem_cons.2 ⟨?_, name.chars⟩
    rw [isIdentChar, name.starts, Bool.true_or]
  · rw [String.toList_ofList]
    exact uniform_bytes space_uniform (read_spaces space)

end Lexeme

namespace TokenSeq

/-- The kind of every token fits its spelling. An identifier or a keyword ends only where the next
logical byte of the source, read from the end of the token on, is not one of a word. -/
theorem kinds_faithful {source : String} {i : Nat} {t : Token}
    (there : (ofSource source).get? i = some t) :
    t.kind.FitsSpelling t.spelling ∧
      (t.kind.isWord = true → t.kind ≠ .pragma →
        ∀ u ∈ (logicalChars (Text.bytes ((ofSource source).textRange (i + 1)
          (ofSource source).size).toList)).head?, Lexeme.isIdentChar u = false) := by
  rw [Token.spelling]
  rcases token_in_text there with ⟨space, none⟩ | ⟨lineStart, first, tail, spelled, read⟩
  · rw [space, none]
    exact ⟨⟨by simp [TokenKind.mark?], by simp, by simp [TokenKind.isKeyword, TokenKind.isAggregate,
      TokenKind.isStorage, TokenKind.isQualifier], by simp, by simp [Text.bytes]⟩,
      fun word => by cases word⟩
  · rw [spelled]
    generalize (ofSource source).textRange (i + 1) (ofSource source).size = behind at read
    refine ⟨?_, fun word other => ?_⟩
    · have fits := Lexeme.read_fits lineStart first (tail ++ logicalChars behind.toList)
      rwa [read, List.take_left] at fits
    · rw [logical_chars_bytes]
      refine Lexeme.uniform_head Lexeme.ident_char_uniform ?_
      have whole := @Lexeme.read_word_whole lineStart first (tail ++ logicalChars behind.toList)
        (by rwa [read]) (by rwa [read])
      have ends := Lexeme.run_length_drop Lexeme.isIdentChar (tail ++ logicalChars behind.toList)
      have length : Lexeme.runLength Lexeme.isIdentChar (tail ++ logicalChars behind.toList) = tail.length := by
        rw [← Lexeme.wordLength, ← whole.2.1, read]
      rwa [length, List.drop_left] at ends

/-- A keyword with a joined line end inside, right in front of a trigraph. -/
theorem kinds_faithful_joined_keyword :
    let ts := ofSource "sta\\\ntic??(x"
    let t : Token := ⟨.static, 0, "sta\\\ntic".toList⟩
    ts.get? 0 = some t ∧ TokenKind.ofKeyword? t.spelling = some .static ∧
      (logicalChars (Text.bytes (ts.textRange 1 ts.size).toList)).head? = some '[' ∧
      Lexeme.isIdentChar '[' = false := by
  intro ts t
  obtain ⟨there, next⟩ : ts.get? 0 = some t ∧
      (logicalChars (Text.bytes (ts.textRange 1 ts.size).toList)).head? = some '[' := by
    decide +kernel
  obtain ⟨fits, ends⟩ := kinds_faithful there
  exact ⟨there, fits.keyword rfl (by decide), next, ends rfl (by decide) '[' next⟩

end TokenSeq

end AllocGuard
