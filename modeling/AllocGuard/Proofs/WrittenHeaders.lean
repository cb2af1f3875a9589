import AllocGuard.Proofs.CopiedTokens
import AllocGuard.Proofs.DeclaratorReading
import AllocGuard.Proofs.WordSpacing

/-! Headers that are written out: specifiers, `int`, a name, and what stands between two parentheses. Such a
text, read as a declaration, is a function of that name that returns `int`, whatever its parameters are, if
they are read from their text as tokens with brackets in pairs. -/
namespace AllocGuard

/-! ## Plain text -/

theorem starts_no_mark {c : Char} (mark : c ≠ '?') (backslash : c ≠ '\\') (rest : List Char) :
    startsMark (c :: rest) = false := by
  unfold startsMark
  split <;> simp_all

theorem quiet_of_all {cs : List Char} (all : cs.all (fun c => c != '?' && c != '\\') = true) :
    ∀ c ∈ cs, c ≠ '?' ∧ c ≠ '\\' := by
  intro c member
  have quiet := List.all_eq_true.1 all c member
  rwa [Bool.and_eq_true, bne_iff_ne, bne_iff_ne] at quiet

theorem plain_quiet {front : List Char} (quiet : ∀ c ∈ front, c ≠ '?' ∧ c ≠ '\\') (back : List Char) :
    isPlainText (front ++ back) = isPlainText back := by
  induction front with
  | nil => rfl
  | cons c front ih =>
    obtain ⟨⟨mark, backslash⟩, later⟩ := List.forall_mem_cons.1 quiet
    rw [List.cons_append, isPlainText, starts_no_mark mark backslash, ih later]
    rfl

/-- A text is plain with another one behind it, if the first character of that one completes no trigraph. -/
theorem plain_seam {front : List Char} (plain : isPlainText front = true) {d : Char}
    (mark : d ∉ ['?', '\n', '\r']) (trigraph : Glyph.trigraph d = none ∨ ¬ ['?', '?'] <:+ front)
    {back : List Char} (behind : isPlainText (d :: back) = true) : isPlainText (front ++ d :: back) = true := by
  induction front with
  | nil => exact behind
  | cons c front ih =>
    obtain ⟨starts, later⟩ := plain_tail plain
    have rest := ih later (trigraph.imp_right fun none ends => none (ends.trans (List.suffix_cons c front)))
    rw [List.cons_append, isPlainText, rest, Bool.and_true, Bool.not_eq_true']
    simp only [List.mem_cons, List.not_mem_nil, or_false, not_or] at mark
    rcases front with _ | ⟨x, _ | ⟨y, front⟩⟩
    · -- the mark would end in the first character of the other text
      rw [List.nil_append]
      unfold startsMark
      split <;> simp_all
    · rw [List.singleton_append]
      unfold startsMark at starts ⊢
      split <;> simp_all
    · unfold startsMark at starts ⊢
      split <;> simp_all

/-! ## Trimmed text -/

namespace Text

/-- Nothing is trimmed off exactly if no end is blank. -/
theorem trim_fixed_iff {cs : List Char} : trimChars cs = cs ↔
    (∀ c ∈ cs.head?, isBlank c = false) ∧ ∀ c ∈ cs.getLast?, isBlank c = false := by
  constructor
  · intro fixed
    rw [trim_eq] at fixed
    have behind := (List.rdropWhile_prefix isBlank (l := cs.dropWhile isBlank)).length_le
    rw [fixed] at behind
    have front := (List.dropWhile_suffix isBlank (l := cs)).eq_of_length_le behind
    rw [front] at fixed
    constructor
    · rintro c head
      cases cs with
      | nil => cases head
      | cons d cs =>
        cases head
        refine Bool.eq_false_iff.2 fun blank => ?_
        exact List.dropWhile_eq_self_iff.1 front (Nat.zero_lt_succ _) blank
    · intro c last
      obtain ⟨some, rfl⟩ := List.mem_getLast?_eq_getLast last
      exact Bool.eq_false_iff.2 (List.rdropWhile_eq_self_iff.1 fixed some)
  · rintro ⟨first, last⟩
    have front : cs.dropWhile isBlank = cs := by
      cases cs with
      | nil => rfl
      | cons c cs => exact List.dropWhile_cons_of_neg (by rw [first c rfl]; decide)
    rw [trim_eq, front, List.rdropWhile_eq_self_iff]
    intro some blank
    rw [last _ (List.getLast?_eq_some_getLast some)] at blank
    cases blank

theorem trim_chars {text : String} (fixed : trim text = text) : trimChars text.toList = text.toList := by
  rw [← String.toList_inj, trim, String.toList_ofList] at fixed
  exact fixed

/-- Blanks around a text of which nothing is trimmed off. -/
theorem trim_within {front cs back : List Char} (before : ∀ c ∈ front, isBlank c = true) (fixed : trimChars cs = cs)
    (behind : ∀ c ∈ back, isBlank c = true) : trimChars (front ++ (cs ++ back)) = cs := by
  cases cs with
  | nil => exact trim_around before (List.forall_mem_nil _) behind
  | cons c cs =>
    have first := (trim_fixed_iff.1 fixed).1 c rfl
    rw [trim_eq, List.dropWhile_cons_of_neg (by rw [first]; decide)] at fixed
    rw [trim_eq, List.dropWhile_append_of_pos before, List.cons_append,
      List.dropWhile_cons_of_neg (by rw [first]; decide), ← List.cons_append, List.rdropWhile, List.reverse_append,
      List.dropWhile_append_of_pos (by simpa using behind), ← List.rdropWhile, fixed]

end Text

/-! ## Words -/

namespace Lexeme

variable {kind : TokenKind} {first d : Char} {tail : List Char}

/-- A word of this kind, whatever follows it, so that it is no pragma operator. -/
structure IsWord (kind : TokenKind) (first : Char) (tail : List Char) : Prop where
  starts : isIdentStart first = true
  chars : ∀ c ∈ tail, isIdentChar c = true
  plain : ∀ length after, plainWord (String.ofList (first :: tail)) length after = (kind, length)

theorem word_length_before (chars : ∀ c ∈ tail, isIdentChar c = true) (mark : isIdentChar d = false)
    (more : List Char) : wordLength (tail ++ d :: more) = tail.length := by
  rw [wordLength, runLength, List.takeWhile_append_of_pos chars,
    List.takeWhile_cons_of_neg (by rw [mark]; decide), List.append_nil]

theorem read_word_before {first : Char} {tail : List Char} (starts : isIdentStart first = true)
    (chars : ∀ c ∈ tail, isIdentChar c = true) {d : Char} (mark : isIdentChar d = false)
    (quote : isQuote d = false) (lineStart : Bool) (more : List Char) :
    read lineStart first (tail ++ d :: more) =
      plainWord (String.ofList (first :: tail)) tail.length (d :: more) := by
  rw [read_word starts, word_eq, word_length_before chars mark, List.take_left, List.drop_left, word_before_plain]
  rintro other rest ⟨_, quotes, behind⟩
  obtain ⟨rfl, _⟩ := List.cons.inj behind
  rw [quote] at quotes
  cases quotes

theorem IsWord.read (word : IsWord kind first tail) (mark : isIdentChar d = false) (quote : isQuote d = false)
    (lineStart : Bool) (more : List Char) : read lineStart first (tail ++ d :: more) = (kind, tail.length) := by
  rw [read_word_before word.starts word.chars mark quote, word.plain]

/-- What is read as a word goes on to the first character that is not one of a word. -/
theorem read_is_word {lineStart : Bool} {next : List Char}
    (own : read lineStart first (tail ++ next) = (kind, tail.length)) (isWord : kind.isWord = true)
    (pragma : kind ≠ .pragma) : IsWord kind first tail ∧ ∀ c ∈ next.head?, isIdentChar c = false := by
  obtain ⟨starts, plain⟩ := read_plain_word (show (read lineStart first (tail ++ next)).1.isWord = true by
    rw [own]
    exact isWord)
  rw [own] at plain
  have kinds (length : Nat) (after : List Char) :
      plainWord (String.ofList (first :: (tail ++ next).take (wordLength (tail ++ next)))) length after =
        (kind, length) := by
    unfold plainWord at plain ⊢
    split at plain
    · exact absurd (Prod.mk.inj plain).1 pragma
    · rw [(Prod.mk.inj plain).1]
    · rw [(Prod.mk.inj plain).1]
  have length : wordLength (tail ++ next) = tail.length := by
    rw [kinds] at plain
    exact (Prod.mk.inj plain).2.symm
  rw [length, List.take_left] at kinds
  refine ⟨⟨starts, fun c member => ?_, kinds⟩, ?_⟩
  · refine @run_chars isIdentChar (tail ++ next) c ?_
    rwa [← wordLength, length, List.take_left]
  · have drop := run_length_drop isIdentChar (tail ++ next)
    rwa [← wordLength, length, List.drop_left] at drop

/-- A word in front of a closing parenthesis, keyword or not. -/
theorem read_word_closed (starts : isIdentStart first = true) (chars : ∀ c ∈ tail, isIdentChar c = true) :
    ∃ kind : TokenKind, kind.isWord = true ∧
      ∀ lineStart more, read lineStart first (tail ++ ')' :: more) = (kind, tail.length) := by
  have own (lineStart : Bool) (more : List Char) :=
    @read_word_before first tail starts chars ')' rfl rfl lineStart more
  cases keyword : TokenKind.ofKeyword? (String.ofList (first :: tail)) with
  | none =>
    refine ⟨.identifier, rfl, fun lineStart more => ?_⟩
    rw [own, plainWord, keyword]
  | some kind =>
    refine ⟨kind, by rw [TokenKind.isWord, keyword_kind keyword, Bool.or_true], fun lineStart more => ?_⟩
    rw [own, plainWord, keyword]
    split
    · rename_i pragma
      cases pragma
      rfl
    · rename_i same
      cases same
      rfl
    · rename_i none
      cases none

end Lexeme

/-! ## Type words -/

namespace Word

variable {word rest : List Char} {c : Char}

theorem space_blank (space : Lexeme.isSpace c = true) :
    Text.isBlank c = true ∧ isStart c = false ∧ isChar c = false := by
  simp only [Lexeme.isSpace, Bool.or_eq_true, beq_iff_eq] at space
  rcases space with ((((rfl | rfl) | rfl) | rfl) | rfl) | rfl <;> decide

theorem type_words_gap {gap : List Char} (blank : ∀ c ∈ gap, Lexeme.isSpace c = true) (cs : List Char) :
    typeWordsOf (gap ++ cs) = typeWordsOf cs := by
  induction gap with
  | nil => rfl
  | cons c gap ih =>
    obtain ⟨here, later⟩ := List.forall_mem_cons.1 blank
    obtain ⟨blank, start, _⟩ := space_blank here
    rw [← ih later, List.cons_append, typeWordsOf, Spaced.strip_other start, Text.words, Text.words_from_blank blank]
    rfl

theorem words_from_word (chars : ∀ c ∈ word, Text.isBlank c = false) (run rest : List Char) :
    Text.wordsFrom run (word ++ rest) = Text.wordsFrom (run ++ word) rest := by
  induction word generalizing run with
  | nil => rw [List.nil_append, List.append_nil]
  | cons c word ih =>
    obtain ⟨here, later⟩ := List.forall_mem_cons.1 chars
    rw [List.cons_append, Text.words_from_char here, ih later, List.append_assoc]
    rfl

theorem storage_word {word : String} (storage : isStorage word = true) :
    word.toList.head?.all isStart = true ∧ isAttribute word = false := by
  rw [isStorage, List.contains_iff_mem] at storage
  revert word
  decide +kernel

/-- A run of word characters that ends is cut off whole. -/
theorem word_cut (chars : ∀ c ∈ word, isChar c = true) (ends : ∀ c ∈ rest.head?, isChar c = false) :
    (word ++ rest).takeWhile isChar = word ∧ (word ++ rest).dropWhile isChar = rest := by
  rw [List.takeWhile_append_of_pos chars, List.dropWhile_append_of_pos chars]
  cases rest with
  | nil => exact ⟨List.append_nil word, rfl⟩
  | cons d rest =>
    have stops : ¬ isChar d = true := by rw [ends d rfl]; exact Bool.false_ne_true
    rw [List.takeWhile_cons_of_neg stops, List.dropWhile_cons_of_neg stops]
    exact ⟨List.append_nil word, rfl⟩

/-- A storage word that white space follows is left out. -/
theorem type_words_storage (storage : isStorage (String.ofList word) = true) (space : Lexeme.isSpace c = true) :
    typeWordsOf (word ++ c :: rest) = typeWordsOf (c :: rest) := by
  obtain ⟨blank, start, gap⟩ := space_blank space
  have chars := storage_plain storage
  obtain ⟨starts, plain⟩ := storage_word storage
  rw [String.toList_ofList] at chars starts
  cases word with
  | nil => rfl
  | cons first tail =>
    have behind : ∀ d ∈ tail, isChar d = true := (List.forall_mem_cons.1 chars).2
    have ends : ∀ d ∈ (c :: rest).head?, isChar d = false := by
      rintro d ⟨⟩
      exact gap
    obtain ⟨own, after⟩ := word_cut behind ends
    have strip : stripAttributes (first :: tail ++ c :: rest) = first :: tail ++ c :: stripAttributes rest := by
      rw [List.cons_append, Spaced.strip_word starts, own, after, plain, if_neg Bool.false_ne_true,
        Spaced.strip_other start]
    rw [typeWordsOf, typeWordsOf, strip, Spaced.strip_other start, Text.words, Text.words,
      words_from_word fun d member => char_not_blank (chars d member), Text.words_from_blank blank,
      Text.words_from_blank blank]
    exact List.filter_cons_of_neg (by rw [List.nil_append, storage]; decide)

end Word

namespace TokenSeq

theorem storage_is_word {kind : TokenKind} (storage : kind.isStorage = true) :
    kind.isWord = true ∧ kind ≠ .pragma := by
  constructor
  · cases kind <;> first | rfl | cases storage
  · rintro rfl
    cases storage

theorem storage_face {next : List Char} {face : TokenFace} {rest : List TokenFace}
    (reads : ReadsOff next (face :: rest)) (storage : face.1.isStorage = true) :
    Word.isStorage (String.ofList face.2) = true := by
  obtain ⟨⟨first, tail, text, own⟩, _⟩ := reads
  have keyword := @Lexeme.read_storage true first (tail ++ (rest.flatMap Prod.snd ++ next)) (by
    rw [own]
    exact storage)
  rw [own, List.take_left, ← text] at keyword
  exact keyword_storage keyword storage

/-- What is left of storage words and `int` is `int`. -/
theorem type_words_int {next : List Char} {front : List TokenFace} (reads : ReadsOff ('i' :: next) front)
    (storage : ∀ face ∈ front, face.1 = .space ∨ face.1.isStorage = true) :
    Word.typeWordsOf (front.flatMap Prod.snd ++ "int".toList) = ["int"] := by
  induction front with
  | nil => decide +kernel
  | cons face rest ih =>
    obtain ⟨here, later⟩ := List.forall_mem_cons.1 storage
    have words := ih reads.2 later
    rw [List.flatMap_cons, List.append_assoc]
    rcases here with space | specifier
    · rw [Word.type_words_gap, words]
      exact space_face (reads.reads_from true) face List.mem_cons_self space
    · have isStorage := storage_face reads specifier
      obtain ⟨⟨first, tail, text, own⟩, readsRest⟩ := reads
      obtain ⟨isWord, pragma⟩ := storage_is_word specifier
      obtain ⟨_, apart⟩ := Lexeme.read_is_word (own true) isWord pragma
      cases rest with
      | nil => cases apart 'i' rfl
      | cons second rest =>
        have spaces := space_face (readsRest.reads_from true) second List.mem_cons_self
        obtain ⟨⟨first', tail', text', own'⟩, _⟩ := readsRest
        have starts : Lexeme.isIdentChar first' = false := apart first' (by rw [List.flatMap_cons, text']; rfl)
        rcases (List.forall_mem_cons.1 later).1 with space | specifier'
        · have blank := spaces space first' (by rw [text']; exact List.mem_cons_self)
          rw [← words, List.flatMap_cons, text', List.cons_append, List.cons_append,
            Word.type_words_storage isStorage blank]
        · obtain ⟨isWord', pragma'⟩ := storage_is_word specifier'
          have ident := (Lexeme.read_is_word (own' true) isWord' pragma').1.starts
          rw [Lexeme.isIdentChar, ident] at starts
          cases starts

/-! ## Functions that return `int` -/

/-- White space at the end of a text is one token, or none. -/
def ending (trail : List Char) : List TokenFace :=
  if trail = [] then [] else [(.space, trail)]

theorem ending_text (trail : List Char) : (ending trail).flatMap Prod.snd = trail := by
  rw [ending]
  split
  · rename_i none
    rw [none]
    rfl
  · exact List.append_nil trail

theorem reads_ending {trail : List Char} (blank : ∀ c ∈ trail, Lexeme.isSpace c = true) :
    ReadsOff [] (ending trail) := by
  cases trail with
  | nil => trivial
  | cons c trail =>
    obtain ⟨here, later⟩ := List.forall_mem_cons.1 blank
    refine ⟨⟨c, trail, rfl, fun lineStart => ?_⟩, trivial⟩
    rw [Lexeme.read, if_pos here, List.flatMap_nil, List.append_nil, List.append_nil, Lexeme.runLength,
      List.takeWhile_eq_self_iff.2 later]

/-- The tokens of a header: what stands in front of `int`, a name, what stands between the parentheses, and
white space. -/
def headerFaces (front : List TokenFace) (name : List Char) (content : List TokenFace) (trail : List Char) :
    List TokenFace :=
  front ++ ((.identifier, "int".toList) :: blank :: (.identifier, name) :: (.openParen, ['(']) ::
    (content ++ (.closeParen, [')']) :: ending trail))

theorem int_name : Lexeme.IsIdentifier 'i' ['n', 't'] :=
  ⟨rfl, List.all_eq_true.1 rfl, by decide⟩

theorem header_reads {front content : List TokenFace} {first : Char} {tail trail : List Char}
    (name : Lexeme.IsIdentifier first tail) (before : ∀ next, ReadsOff ('i' :: next) front)
    (within : ReadsFrom (')' :: trail) false content) (blanks : ∀ c ∈ trail, Lexeme.isSpace c = true) :
    ReadsFrom [] true (headerFaces front (first :: tail) content trail) := by
  have text : ((.closeParen, [')']) :: ending trail).flatMap Prod.snd ++ [] = ')' :: trail := by
    rw [List.flatMap_cons, ending_text, List.append_nil]
    rfl
  rw [headerFaces]
  refine reads_from_append.2 ⟨(before _).reads_from true, ?_⟩
  refine (@reads_from_append [] _ [_, _, _, _] _).2 ⟨ReadsOff.reads_from ?_ _, ?_⟩
  · refine reads_name int_name (d := ' ') rfl rfl rfl (reads_blank ?_ (reads_name name (d := '(') rfl rfl rfl ?_))
    · rintro c ⟨⟩
      exact Lexeme.start_no_space name.starts
    · exact ⟨⟨'(', [], rfl, fun _ => rfl⟩, trivial⟩
  · have closing : ReadsOff [] ((.closeParen, [')']) :: ending trail) :=
      ⟨⟨')', [], rfl, fun _ => rfl⟩, reads_ending blanks⟩
    exact reads_from_append.2 ⟨by rwa [text], closing.reads_from _⟩

theorem carrying_ending (i : Nat) (trail : List Char) : carrying i (ending trail) = [] := by
  rw [ending]
  split <;> rfl

theorem storage_specifiers {ts : TokenSeq} {i : Nat} {front back : List TokenFace} {words : List Nat}
    (there : ts.FacesAt i (front ++ back)) (storage : ∀ face ∈ front, face.1 = .space ∨ face.1.isStorage = true)
    (named : ts.TypeWords words) : ts.Specifiers (carrying i front ++ words) := by
  induction front generalizing i with
  | nil => exact .type named
  | cons face rest ih =>
    obtain ⟨here, later⟩ := List.forall_mem_cons.1 storage
    have behind := ih (faces_at_cons.1 there).2 later
    rw [carrying]
    split
    · exact behind
    · rename_i carries
      rcases here with space | specifier
      · rw [space] at carries
        exact absurd rfl carries
      · exact .keyword (FacesAt.kind there) (.inl specifier) behind

theorem carrying_blanks {faces : List TokenFace} (blanks : ∀ face ∈ faces, face.1 = .space) (i : Nat) :
    carrying i faces = [] := by
  induction faces generalizing i with
  | nil => rfl
  | cons face rest ih =>
    obtain ⟨here, later⟩ := List.forall_mem_cons.1 blanks
    rw [carrying, here]
    exact ih later (i + 1)

theorem leading_blanks (faces : List TokenFace) (kinds : ∀ face ∈ faces, face.1 = .space ∨ face.1.isStorage = true) :
    ∃ gap core, faces = gap ++ core ∧ (∀ face ∈ gap, face.1 = .space) ∧
      ∀ face ∈ core.head?, face.1.isStorage = true := by
  induction faces with
  | nil => exact ⟨[], [], rfl, List.forall_mem_nil _, by simp⟩
  | cons face rest ih =>
    obtain ⟨here, later⟩ := List.forall_mem_cons.1 kinds
    rcases here with space | specifier
    · obtain ⟨gap, core, rfl, blanks, starts⟩ := ih later
      exact ⟨face :: gap, core, rfl, List.forall_mem_cons.2 ⟨space, blanks⟩, starts⟩
    · exact ⟨[], face :: rest, rfl, List.forall_mem_nil _, by rintro _ ⟨⟩; exact specifier⟩

section Declared

variable {ts : TokenSeq} {front content : List TokenFace} {name trail : List Char}
  (spelled : ts.faces = headerFaces front name content trail)

include spelled

theorem header_significant : ts.significant 0 ts.size =
    carrying 0 front ++ [front.length] ++ (front.length + 2) :: (front.length + 3) ::
      (carrying (front.length + 4) content ++ [front.length + 4 + content.length]) := by
  have there : ts.FacesAt 0 ts.faces := List.prefix_rfl
  have all := there.significant
  rw [faces_length, Nat.zero_add] at all
  rw [all, spelled, headerFaces, carrying_append]
  simp only [carrying, carrying_append, carrying_ending, blank, TokenKind.isTrivia, if_true, if_false,
    Nat.zero_add, Nat.add_assoc, Bool.false_eq_true, List.append_assoc, List.singleton_append, Nat.reduceAdd]

/-- The text of the specifiers, from the first of them to `int`. -/
theorem header_specifiers {gap core : List TokenFace} (split : front = gap ++ core)
    (blanks : ∀ face ∈ gap, face.1 = .space) (starts : ∀ face ∈ core.head?, face.1.isTrivia = false) :
    ts.written (carrying 0 front ++ [front.length]) =
      Text.trim (String.ofList (core.flatMap Prod.snd ++ "int".toList)) := by
  subst split
  have range : ts.textRange gap.length ((gap ++ core).length + 1) =
      String.ofList (core.flatMap Prod.snd ++ "int".toList) := by
    apply String.toList_injective
    have count : (gap ++ core).length + 1 - gap.length = core.length + 1 := by
      rw [List.length_append]
      omega
    rw [text_range_faces, spelled, headerFaces, List.append_assoc, List.drop_left, count, List.take_length_add_append,
      @String.toList_ofList (core.flatMap Prod.snd ++ "int".toList), List.flatMap_append]
    rfl
  rw [carrying_append, carrying_blanks blanks, List.nil_append, Nat.zero_add]
  cases core with
  | nil =>
    rw [List.append_nil] at range ⊢
    exact congrArg Text.trim range
  | cons face core =>
    rw [carrying, starts face rfl, if_neg Bool.false_ne_true, List.cons_append, written, ← range]
    rw [List.getLastD_eq_getLast?, List.getLast?_append]
    rfl

theorem header_content : (ts.textRange (front.length + 4) (front.length + 4 + content.length)).toList =
    content.flatMap Prod.snd := by
  have before : ts.faces = (front ++ [(.identifier, "int".toList), blank, (.identifier, name), (.openParen, ['('])]) ++
      (content ++ (.closeParen, [')']) :: ending trail) := by
    rw [spelled, headerFaces, List.append_assoc]
    rfl
  have count : front.length + 4 = (front ++ [(.identifier, "int".toList), blank, (.identifier, name),
      (.openParen, ['('])]).length := by
    rw [List.length_append]
    rfl
  rw [text_range_faces, Nat.add_sub_cancel_left, before, count, List.drop_left, List.take_left]

theorem header_at : ts.FacesAt 0 front ∧ ts.FacesAt front.length
    ((.identifier, "int".toList) :: blank :: (.identifier, name) :: (.openParen, ['(']) ::
      (content ++ (.closeParen, [')']) :: ending trail)) := by
  have there : ts.FacesAt 0 (headerFaces front name content trail) := by
    rw [← spelled]
    exact List.prefix_rfl
  have parts := faces_at_append there
  rwa [Nat.zero_add] at parts

theorem header_specifies (storage : ∀ face ∈ front, face.1 = .space ∨ face.1.isStorage = true) :
    ts.Specifiers (carrying 0 front ++ [front.length]) := by
  obtain ⟨before, behind⟩ := header_at spelled
  refine storage_specifiers (by rwa [List.append_nil]) storage (.builtin ?_)
  intro i listed
  cases List.mem_singleton.1 listed
  refine ⟨FacesAt.kind behind, ?_⟩
  rw [FacesAt.spelling behind]
  decide +kernel

/-- The declarator of the header: a name with a list of parameters. -/
def headerDeclarator (front content : List TokenFace) : Declarator :=
  .suffix (.name (front.length + 2)) .function (front.length + 3) (carrying (front.length + 4) content)
    (front.length + 4 + content.length)

theorem header_declarator (named : ts.spelling (front.length + 2) = String.ofList name)
    (free : Word.isReserved (String.ofList name) = false) (paired : Paired content) :
    (headerDeclarator front content).WellFormed ts := by
  obtain ⟨_, behind⟩ := header_at spelled
  obtain ⟨_, behind⟩ := faces_at_cons.1 behind
  obtain ⟨_, behind⟩ := faces_at_cons.1 behind
  have identifier := FacesAt.kind behind
  obtain ⟨_, behind⟩ := faces_at_cons.1 behind
  have opens := FacesAt.kind behind
  obtain ⟨_, behind⟩ := faces_at_cons.1 behind
  obtain ⟨inside, closing⟩ := faces_at_append behind
  exact ⟨rfl, opens, FacesAt.kind closing, paired.balanced inside, identifier, by rwa [named]⟩

theorem header_type_words {next : List Char} (reads : ReadsOff ('i' :: next) front)
    (storage : ∀ face ∈ front, face.1 = .space ∨ face.1.isStorage = true)
    (plain : isPlainText (front.flatMap Prod.snd ++ "int".toList) = true) :
    Word.typeWords (ts.written (carrying 0 front ++ [front.length])) = ["int"] := by
  obtain ⟨gap, core, rfl, blanks, starts⟩ := leading_blanks front storage
  obtain ⟨_, readsCore⟩ := reads_off_append.1 reads
  have words := type_words_int readsCore fun face member => storage face (List.mem_append_right gap member)
  have carries : ∀ face ∈ core.head?, face.1.isTrivia = false := by
    intro face member
    have specifier := starts face member
    generalize face.1 = kind at specifier
    cases kind <;> first | rfl | cases specifier
  have trimmed : Text.trimChars (core.flatMap Prod.snd ++ "int".toList) = core.flatMap Prod.snd ++ "int".toList := by
    refine Text.trim_fixed_iff.2 ⟨?_, ?_⟩
    · cases core with
      | nil =>
        rintro _ ⟨⟩
        rfl
      | cons face core =>
        have chars := Word.storage_plain (storage_face readsCore (starts face rfl))
        obtain ⟨⟨first, tail, text, _⟩, _⟩ := readsCore
        rw [String.toList_ofList, text] at chars
        rw [List.flatMap_cons, text]
        rintro c ⟨⟩
        exact Word.char_not_blank (chars first List.mem_cons_self)
    · rw [List.getLast?_append_of_ne_nil _ (by decide)]
      rintro _ ⟨⟩
      rfl
  rw [List.flatMap_append, List.append_assoc] at plain
  rw [header_specifiers spelled rfl blanks carries, Text.trim, String.toList_ofList, trimmed, Word.typeWords,
    String.toList_ofList, logical_plain (plain_back plain)]
  exact words

end Declared

/-- The text declares a function of this name that returns `int` and has these parameters. -/
def DeclaresInt (text name params : String) : Prop :=
  ∃ place specifiers, (ofSource text).declaration 0 (ofSource text).size =
      .ok ⟨some (name, place), ⟨[.function params], specifiers⟩⟩ ∧
    Word.typeWords specifiers = ["int"]

/-- A header that is written out declares a function that returns `int`. -/
theorem declares_int {text : String} {front content : List TokenFace} {first : Char} {tail trail : List Char}
    (name : Lexeme.IsIdentifier first tail) (free : Word.isReserved (String.ofList (first :: tail)) = false)
    (before : ∀ next, ReadsOff ('i' :: next) front)
    (storage : ∀ face ∈ front, face.1 = .space ∨ face.1.isStorage = true)
    (within : ReadsFrom (')' :: trail) false content) (paired : Paired content)
    (trimmed : Text.trimChars (content.flatMap Prod.snd) = content.flatMap Prod.snd)
    (blanks : ∀ c ∈ trail, Lexeme.isSpace c = true) (plain : isPlainText text.toList = true)
    (spelled : text.toList = (headerFaces front (first :: tail) content trail).flatMap Prod.snd) :
    DeclaresInt text (String.ofList (first :: tail)) (String.ofList (content.flatMap Prod.snd)) := by
  unfold DeclaresInt
  have all := of_source_faces spelled plain (header_reads name before within blanks)
  generalize ofSource text = ts at all ⊢
  rw [spelled] at plain
  have named : ts.spelling (front.length + 2) = String.ofList (first :: tail) := by
    obtain ⟨_, behind⟩ := header_at all
    obtain ⟨_, behind⟩ := faces_at_cons.1 behind
    obtain ⟨_, behind⟩ := faces_at_cons.1 behind
    have whole := plain_faces plain (.identifier, first :: tail) (by simp [headerFaces])
    rw [FacesAt.spelling behind, logical_plain whole]
  have formed := header_declarator all named free paired
  have tokens := header_significant all
  have specifies := header_specifies all storage
  have words := header_type_words all (before []) storage (by
    rw [headerFaces, List.flatMap_append, List.flatMap_cons, ← List.append_assoc] at plain
    exact plain_front plain)
  refine ⟨front.length + 2, ts.written (carrying 0 front ++ [front.length]), ?_, words⟩
  have params : Text.trim (ts.textRange (front.length + 3 + 1) (front.length + 4 + content.length)) =
      String.ofList (content.flatMap Prod.snd) := by
    rw [Text.trim, header_content all, trimmed]
  generalize carrying 0 front ++ [front.length] = base at tokens specifies ⊢
  have cut := @first_declarator_eq ts base [] _ specifies formed trivial
  rw [List.append_nil] at cut
  have limited : ts.significant 0 (min ts.size ts.size) = base ++ (headerDeclarator front content).tokens := by
    rw [Nat.min_self, tokens]
    rfl
  rw [declaration]
  rw [limited]
  split
  · rename_i none
    cases (List.append_eq_nil_iff.1 none).2
  · rw [cut]
    split
    · rename_i none
      cases (List.append_eq_nil_iff.1 none).2
    · rw [DeclarationView.read_declaration ⟨0, [], by rw [limited, List.append_nil]⟩ specifies formed rfl, ← named,
        ← params]
      rfl

end TokenSeq

end AllocGuard
