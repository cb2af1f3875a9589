import AllocGuard.Proofs.Retokenizing

/-! Words in a text. What starts like a word is read as one, an identifier ends in front of everything that
cannot go on with it, and a token of a source that is a word or an identifier is spelled like one. -/
namespace AllocGuard

namespace Lexeme

variable {lineStart : Bool} {first : Char} {rest : List Char}

theorem digit_no_start {c : Char} (digit : c.isDigit = true) : isIdentStart c = false := by
  have range : 48 ≤ c.toNat ∧ c.toNat ≤ 57 := by
    simp only [Char.isDigit, Bool.and_eq_true, decide_eq_true_eq, ge_iff_le, UInt32.le_iff_toNat_le] at digit
    exact digit
  rw [Bool.eq_false_iff]
  intro starts
  unfold isIdentStart Char.isAlpha Char.isUpper Char.isLower at starts
  simp only [Bool.or_eq_true, Bool.and_eq_true, decide_eq_true_eq, ge_iff_le, UInt32.le_iff_toNat_le,
    beq_iff_eq] at starts
  rcases starts with (((⟨lower, _⟩ | ⟨lower, _⟩) | rfl) | rfl) | wide
  · have bound : 65 ≤ c.toNat := lower
    omega
  · have bound : 97 ≤ c.toNat := lower
    omega
  · exact absurd range (by decide)
  · exact absurd range (by decide)
  · omega

theorem start_ne {first c : Char} (starts : isIdentStart first = true) (mark : isIdentStart c = false) :
    (first == c) = false := by
  refine beq_false_of_ne fun same => ?_
  rw [same, mark] at starts
  cases starts

theorem start_no_space (starts : isIdentStart first = true) : isSpace first = false := by
  have other {c : Char} := @start_ne first c starts
  unfold isSpace
  rw [other rfl, other rfl, other rfl, other rfl, other rfl, other rfl]
  rfl

/-- What starts like a word is read as one. -/
theorem read_word (starts : isIdentStart first = true) (lineStart : Bool) (rest : List Char) :
    read lineStart first rest = word first rest := by
  have other {c : Char} := @start_ne first c starts
  have digit : first.isDigit = false := by
    rw [Bool.eq_false_iff]
    intro digit
    rw [digit_no_start digit] at starts
    cases starts
  unfold read
  rw [start_no_space starts, other (c := '/') rfl, other (c := '#') rfl, other (c := '"') rfl,
    other (c := '\'') rfl, other (c := '.') rfl, digit, starts]
  rfl

theorem run_chars {p : Char → Bool} {cs : List Char} {c : Char} (member : c ∈ cs.take (runLength p cs)) :
    p c = true := by
  have front := List.prefix_iff_eq_take.1 (List.takeWhile_prefix p : cs.takeWhile p <+: cs)
  rw [runLength, ← front] at member
  exact List.mem_takeWhile_imp member

/-- The characters of an identifier: a word that is no keyword. -/
structure IsIdentifier (first : Char) (tail : List Char) : Prop where
  starts : isIdentStart first = true
  chars : ∀ c ∈ tail, isIdentChar c = true
  plain : TokenKind.ofKeyword? (String.ofList (first :: tail)) = none

/-- An identifier is read as one in front of a mark. -/
theorem IsIdentifier.read {tail : List Char} (name : IsIdentifier first tail) {d : Char}
    (mark : isIdentChar d = false) (quote : isQuote d = false) (lineStart : Bool) (more : List Char) :
    read lineStart first (tail ++ d :: more) = (.identifier, tail.length) := by
  have length : wordLength (tail ++ d :: more) = tail.length := by
    rw [wordLength, runLength, List.takeWhile_append_of_pos name.chars,
      List.takeWhile_cons_of_neg (by rw [mark]; decide), List.append_nil]
  rw [read_word name.starts, word_eq, length, List.take_left, List.drop_left, word_before_plain, plainWord,
    name.plain]
  rintro other rest ⟨_, quotes, behind⟩
  obtain ⟨rfl, _⟩ := List.cons.inj behind
  rw [quote] at quotes
  cases quotes

theorem punctuator_no_word (c : Char) (rest : List Char) : (punctuator c rest).1.isWord = false := by
  unfold punctuator
  split
  all_goals first
    | rfl
    | (split <;> rfl)
    | (unfold assigned; split <;> rfl)

/-- What is read as a word starts like one and takes the characters of one, the operand of a pragma
operator apart. -/
theorem read_plain_word (word : (read lineStart first rest).1.isWord = true) :
    isIdentStart first = true ∧ read lineStart first rest =
      plainWord (String.ofList (first :: rest.take (wordLength rest))) (wordLength rest)
        (rest.drop (wordLength rest)) := by
  cases read_cases lineStart first rest with
  | space _ read =>
    rw [read] at word
    cases word
  | comment _ _ _ read =>
    rw [read] at word
    cases word
  | other kind member read =>
    rw [read] at word
    simp only [List.mem_cons, List.not_mem_nil, or_false] at member
    rcases member with rfl | rfl | rfl | rfl <;> cases word
  | punctuator read =>
    rw [read, punctuator_no_word] at word
    cases word
  | word starts read =>
    rw [read, word_eq] at word
    rw [read, word_eq]
    refine ⟨starts, ?_⟩
    by_cases literal : ∃ quote tail, MarksLiteral (String.ofList (first :: rest.take (wordLength rest)))
        (rest.drop (wordLength rest)) quote tail
    · obtain ⟨quote, tail, literal⟩ := literal
      rw [word_before_literal literal] at word
      unfold literalKind at word
      split at word <;> cases word
    · exact word_before_plain (fun quote tail found => literal ⟨quote, tail, found⟩) _

/-- A specifier that is a keyword is spelled as such. -/
theorem read_storage {lineStart : Bool} {first : Char} {rest : List Char}
    (storage : (read lineStart first rest).1.isStorage = true) :
    TokenKind.ofKeyword? (String.ofList (first :: rest.take (read lineStart first rest).2)) =
      some (read lineStart first rest).1 := by
  have word : (read lineStart first rest).1.isWord = true := by
    generalize (read lineStart first rest).1 = kind at storage
    cases kind <;> first | rfl | cases storage
  rw [(read_plain_word word).2] at storage ⊢
  unfold plainWord at storage ⊢
  split at storage
  · cases storage
  · assumption
  · cases storage

/-- An identifier starts like a word, goes on like one, and is no keyword. -/
theorem read_identifier (identifier : (read lineStart first rest).1 = .identifier) :
    IsIdentifier first (rest.take (read lineStart first rest).2) := by
  obtain ⟨starts, read⟩ := read_plain_word (show (read lineStart first rest).1.isWord = true by
    rw [identifier]
    rfl)
  rw [read] at identifier ⊢
  unfold plainWord at identifier ⊢
  split at identifier
  · cases identifier
  · rename_i keyword
    obtain rfl := identifier
    exact absurd (keyword_kind keyword) (by decide)
  · rename_i none
    exact ⟨starts, fun c member => run_chars member, none⟩

end Lexeme

namespace TokenSeq

open Glyph

variable {source : String} {ts : TokenSeq} {first : Char} {i : Nat} {tail : List Char} {t : Token}

/-- A token that is no white space was read from the characters that spell it, and its text leaves no
joined line end over. -/
theorem scan_read {gs : List Glyph} {left : List Char} (reads : Reads gs left) {lineStart : Bool}
    {start : Nat} : ∀ t ∈ scanGlyphs lineStart start left gs, t.kind ≠ .space →
      (glyphs t.raw).2 = [] ∧ ∃ lineStart first rest, (Lexeme.read lineStart first rest).1 = t.kind ∧
        logicalChars t.raw = first :: rest.take (Lexeme.read lineStart first rest).2 := by
  induction gs using scan_induction generalizing lineStart start with
  | nil =>
    simp only [scanGlyphs, List.map_nil, scan]
    split
    · exact List.forall_mem_nil _
    · exact List.forall_mem_singleton.2 (absurd rfl)
  | cons g rest ih =>
    rw [scan_glyphs_cons]
    refine List.forall_mem_cons.2 ⟨fun _ => ⟨?_, ?_⟩, ?_⟩
    · have whole := reads.take (firstLength lineStart g rest + 1)
      rw [Reads, List.append_nil, List.take_succ_cons] at whole
      exact congrArg Prod.snd whole
    · exact ⟨lineStart, g.char, rest.map char, rfl, first_spelled reads lineStart start⟩
    · exact ih _ (reads.drop (firstLength lineStart g rest + 1))

theorem token_read (there : (ofSource source).get? i = some t) (other : t.kind ≠ .space) :
    (glyphs t.raw).2 = [] ∧ ∃ lineStart first rest, (Lexeme.read lineStart first rest).1 = t.kind ∧
      logicalChars t.raw = first :: rest.take (Lexeme.read lineStart first rest).2 := by
  have member : t ∈ (ofSource source).tokens.toList := List.mem_of_getElem? (get_to_list there)
  rw [of_source_scan] at member
  exact scan_read (reads_glyphs source.toList) t member other

theorem spelling_of_get (there : ts.get? i = some t) : ts.spelling i = String.ofList (logicalChars t.raw) := by
  rw [spelling, there]
  rfl

theorem identifier_spelled (word : (ofSource source).hasKind i .identifier = true) :
    ∃ first tail, (ofSource source).spelling i = String.ofList (first :: tail) ∧
      Lexeme.IsIdentifier first tail := by
  obtain ⟨t, there, kind⟩ := Option.map_eq_some_iff.1 (has_kind_iff.1 word)
  obtain ⟨_, lineStart, first, rest, read, spelled⟩ := token_read there (by rw [kind]; decide)
  refine ⟨first, _, ?_, Lexeme.read_identifier (read.trans kind)⟩
  rw [spelling_of_get there, spelled]

/-- An identifier in front of a mark is a token of its own. -/
theorem scan_identifier (name : Lexeme.IsIdentifier first tail) {next : Glyph}
    (mark : Lexeme.isIdentChar next.char = false) (quote : Lexeme.isQuote next.char = false) (lineStart : Bool)
    (start : Nat) (left : List Char) (back : List Glyph) :
    scanGlyphs lineStart start left (singles (first :: tail) ++ next :: back) =
      ⟨.identifier, start, first :: tail⟩ ::
        scanGlyphs false (start + Text.byteLength (first :: tail)) left (next :: back) := by
  have read : Lexeme.read lineStart first ((singles tail ++ next :: back).map char) =
      (.identifier, tail.length) := by
    rw [List.map_append, singles_char, List.map_cons]
    exact name.read mark quote lineStart _
  have size : tail.length = (singles tail).length := (List.length_map _).symm
  have length : firstLength lineStart ⟨first, [first]⟩ (singles tail ++ next :: back) =
      (singles tail).length :=
    (congrArg Prod.snd read).trans size
  have token : firstToken lineStart start ⟨first, [first]⟩ (singles tail ++ next :: back) =
      ⟨.identifier, start, first :: tail⟩ := by
    rw [firstToken, length, List.take_left, read]
    exact congrArg (Token.mk .identifier start) (singles_raw (first :: tail))
  have split : singles (first :: tail) ++ next :: back =
      ⟨first, [first]⟩ :: (singles tail ++ next :: back) := rfl
  rw [split, scan_glyphs_cons, token, length, List.drop_left]
  rfl

theorem identifier_plain (name : Lexeme.IsIdentifier first tail) : ∀ c ∈ first :: tail, c ≠ '?' ∧ c ≠ '\\' := by
  have chars : ∀ c ∈ first :: tail, Lexeme.isIdentChar c = true := by
    refine List.forall_mem_cons.2 ⟨?_, name.chars⟩
    rw [Lexeme.isIdentChar, name.starts, Bool.true_or]
  intro c member
  constructor
  all_goals
    rintro rfl
    exact absurd (chars _ member) (by decide)

theorem keyword_storage {spelling : String} {kind : TokenKind} (keyword : TokenKind.ofKeyword? spelling = some kind)
    (storage : kind.isStorage = true) : Word.isStorage spelling = true := by
  unfold TokenKind.ofKeyword? at keyword
  split at keyword
  all_goals first
    | (cases keyword; cases storage; done)
    | (cases keyword; decide +kernel)
    | cases keyword

theorem get_append {front back : List Token} (tokens : ts.tokens.toList = front ++ back) (k : Nat) :
    ts.get? (front.length + k) = back[k]? := by
  rw [get?, ← Array.getElem?_toList, tokens, List.getElem?_append_right (Nat.le_add_right _ _),
    Nat.add_sub_cancel_left]

end TokenSeq

end AllocGuard
