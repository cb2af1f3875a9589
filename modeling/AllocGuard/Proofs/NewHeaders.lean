import AllocGuard.Proofs.HeaderParts

/-! New headers against the reading of declarations. A header that is given a status for its result is read
again as a function of the same name that returns `int`, with the parameters it had and, where a value goes out,
one more. The type and the parameters are copied as texts, so this holds as far as they are read in their new
place as they were in the old one. -/
namespace AllocGuard

/-- Whether a token of this kind and spelling ends where `d` follows. -/
def Lexeme.endsAt (d : Char) (kind : TokenKind) : List Char → Bool
  | [] => false
  | first :: rest => read false first (rest ++ [d]) == (kind, rest.length)

/-- Within a line and in front of `d`, the text is read as tokens without comments whose brackets stand in
pairs. -/
def TokenSeq.ReadsInLine (d : Char) (text : List Char) : Prop :=
  ∃ faces, text = faces.flatMap Prod.snd ∧ ReadsFrom [d] false faces ∧ Paired faces ∧
    ∀ face ∈ faces, face.1 ≠ .comment

/-- What is put behind the parameters of a new header. -/
def HeaderTokens.next (isVoid : Bool) : Char :=
  if isVoid then ')' else ','

/-- The type and the parameters stay as they are where they are copied to. No Unicode blank stands at an
end of them. The last parameter token, which is no directive and no open literal, ends in front of what is put
behind it, and a closing parenthesis there makes no trigraph. A directive that comes first is none within a
line, so what it says is read as tokens. -/
structure HeaderTokens.CopiesWhole (ts : TokenSeq) (isVoid : Bool) (h : HeaderTokens) : Prop where
  type : isVoid = false → Text.trim (ts.span h.type) = ts.span h.type
  params : Text.trim (ts.span h.params) = ts.span h.params
  first : ∀ i ∈ h.params.head?, ts.kind? i = some .directive →
    TokenSeq.ReadsInLine (next isVoid) (ts.span h.params).toList
  last : ∀ i ∈ h.params.getLast?, ts.kindIs i (Lexeme.endsAt (next isVoid) · (ts.spelling i).toList) = true
  marks : isVoid = true → ¬ ['?', '?'] <:+ (ts.span h.params).toList

/-- The parameters that a header gets, where a value goes out through one of the name `out`. -/
def HeaderTokens.newParams (ts : TokenSeq) (isVoid : Bool) (out : String) (h : HeaderTokens) : String :=
  if isVoid then ts.span h.params
  else if ts.span h.params = "" ∨ ts.span h.params = "void" then ts.span h.type ++ " *" ++ out
  else ts.span h.params ++ ", " ++ (ts.span h.type ++ " *" ++ out)

/-! ## Kinds in front of a name -/

namespace Lexeme

variable {kind : TokenKind} {c : Char}

/-- White space, a star or a word without an operand. -/
def isTypeText (kind : TokenKind) : Bool :=
  kind == .space || kind == .star || (kind.isWord && kind != .pragma)

theorem type_text_cases (text : isTypeText kind = true) :
    kind = .space ∨ kind = .star ∨ kind.isWord = true ∧ kind ≠ .pragma := by
  simpa [isTypeText, or_assoc] using text

theorem word_type_text (word : kind.isWord = true) (pragma : kind ≠ .pragma) : isTypeText kind = true := by
  rw [isTypeText, word, bne_iff_ne.2 pragma, Bool.and_true, Bool.or_true]

theorem type_text_other (text : isTypeText kind = true) :
    (kind ≠ .directive ∧ kind ≠ .operator) ∧ kind ≠ .pragma ∧ kind.isOpener = false ∧ kind.isCloser = false := by
  cases kind <;> first | decide | cases text

theorem ident_quiet (ident : isIdentChar c = true) : c ≠ '?' ∧ c ≠ '\\' := by
  constructor <;> rintro rfl <;> cases ident

theorem space_quiet (space : isSpace c = true) : c ≠ '?' ∧ c ≠ '\\' := by
  constructor <;> rintro rfl <;> cases space

/-- White space goes on to the first other character. -/
theorem read_gap {first : Char} {tail next : List Char} (space : isSpace first = true)
    (spaces : ∀ c ∈ tail, isSpace c = true) (other : ∀ c ∈ next.head?, isSpace c = false) (lineStart : Bool) :
    read lineStart first (tail ++ next) = (.space, tail.length) := by
  have ends : next.takeWhile isSpace = [] := by
    cases next with
    | nil => rfl
    | cons c next => exact List.takeWhile_cons_of_neg (by rw [other c rfl]; decide)
  rw [read, if_pos space, runLength, List.takeWhile_append_of_pos spaces, ends, List.append_nil]

/-- A token that ends in front of a mark ends there whatever follows the mark. -/
theorem read_before_mark {lineStart : Bool} {d first : Char} {tail more : List Char} {kind : TokenKind}
    (own : read lineStart first (tail ++ [d]) = (kind, tail.length)) (mark : d = ',' ∨ d = ')')
    (dot : more.head? ≠ some '.') : read false first (tail ++ d :: more) = (kind, tail.length) := by
  have inside : read false first (tail ++ ([d] ++ [])) = (kind, tail.length) := by
    cases lineStart with
    | false => exact own
    | true =>
      rcases eq_or_ne first '#' with rfl | hash
      · have length : directiveLength (tail ++ [d]) = tail.length := congrArg Prod.snd own
        have newline := directive_length_drop (tail ++ [d])
        rw [length, List.drop_left] at newline
        cases newline d rfl
        rcases mark with line | line <;> cases line
      · rwa [read_any_line hash] at own
  refine read_in_front inside (List.cons_ne_nil d []) dot fun _ _ => ?_
  refine pragma_bare_iff.2 fun operand opens => ?_
  rcases mark with rfl | rfl <;> cases opens

end Lexeme

namespace TokenSeq

section TypeTexts

variable {next : List Char} {lineStart : Bool} {faces : List TokenFace} (reads : ReadsFrom next lineStart faces)
  (kinds : ∀ face ∈ faces, Lexeme.isTypeText face.1 = true)

include kinds

theorem type_text_paired : Paired faces := by
  induction faces with
  | nil => exact .nil
  | cons face rest ih =>
    obtain ⟨here, later⟩ := List.forall_mem_cons.1 kinds
    obtain ⟨_, _, opener, closer⟩ := Lexeme.type_text_other here
    exact .token opener closer (ih later)

include reads

theorem type_text_quiet : ∀ c ∈ faces.flatMap Prod.snd, c ≠ '?' ∧ c ≠ '\\' := by
  intro c member
  obtain ⟨face, inside, char⟩ := List.mem_flatMap.1 member
  obtain ⟨front, back, rfl⟩ := List.append_of_mem inside
  obtain ⟨_, ⟨first, tail, text, own⟩, _⟩ := reads_from_append.1 reads
  rcases Lexeme.type_text_cases (kinds face inside) with space | star | ⟨word, pragma⟩
  · exact Lexeme.space_quiet (space_face reads face inside space c char)
  · rw [star] at own
    obtain ⟨rfl, rfl⟩ := Lexeme.read_star own
    rw [text] at char
    cases List.mem_singleton.1 char
    decide
  · have isWord := (Lexeme.read_is_word own word pragma).1
    rw [text] at char
    refine Lexeme.ident_quiet ?_
    rcases List.mem_cons.1 char with rfl | later
    · rw [Lexeme.isIdentChar, isWord.starts, Bool.true_or]
    · exact isWord.chars c later

/-- Such tokens are read in front of another text if the last one ends there. -/
theorem type_text_before {next' : List Char} (dot : next'.head? ≠ some '.')
    (ends : ∀ face ∈ faces.getLast?, EndsAt next' face) : ReadsOff next' faces := by
  refine (reads.in_front dot ends ?_).off fun face member => (Lexeme.type_text_other (kinds face member)).1
  rintro front raw back rfl
  exact absurd rfl (Lexeme.type_text_other (kinds (.pragma, raw) (by simp))).2.1

end TypeTexts

/-- Tokens within a line are read in front of a mark whatever follows it. -/
theorem ReadsInLine.before {d : Char} {text : List Char} (line : ReadsInLine d text) (mark : d = ',' ∨ d = ')')
    (fixed : Text.trimChars text = text) :
    ∃ faces, text = faces.flatMap Prod.snd ∧ Paired faces ∧
      ∀ more, more.head? ≠ some '.' → ReadsFrom (d :: more) false faces := by
  obtain ⟨faces, rfl, reads, paired, other⟩ := line
  refine ⟨faces, rfl, paired, fun more dot => ?_⟩
  have last : ∀ face ∈ faces.getLast?, EndsAt (d :: more) face ∧ face.1 ≠ .space := by
    intro face member
    have inside := List.mem_of_getLast? member
    have spaces := space_face reads face inside
    constructor
    · intro first tail text
      obtain ⟨_, own⟩ := reads.last member text
      exact Lexeme.read_before_mark own mark dot
    · intro space
      obtain ⟨init, rfl⟩ := List.getLast?_eq_some_iff.1 member
      obtain ⟨_, ⟨first, tail, text, _⟩, _⟩ := reads_from_append.1 reads
      obtain ⟨c, ends⟩ := Option.ne_none_iff_exists'.1 (mt List.getLast?_eq_none_iff.1 (List.cons_ne_nil first tail))
      have blank := (Text.trim_fixed_iff.1 fixed).2 c (by
        rw [List.flatMap_append, List.flatMap_singleton, text,
          List.getLast?_append_of_ne_nil _ (List.cons_ne_nil _ _)]
        exact ends)
      have gap := spaces space c (by rw [text]; exact List.mem_of_getLast? ends)
      rw [(Word.space_blank gap).1] at blank
      cases blank
  refine reads.in_front (by rcases mark with rfl | rfl <;> simp) (fun face member => (last face member).1) ?_
  exact paired.keeps_bare other (fun face member => (last face member).2) [d] (d :: more)

end TokenSeq

/-! ## The copied parts -/

namespace HeaderTokens.WellFormed

open TokenSeq

variable {source : String} {start stop : Nat} {h : HeaderTokens}
  (formed : h.WellFormed (ofSource source) start stop)

include formed

theorem type_run : (ofSource source).significant start stop =
    h.specifiers ++ (h.type ++ h.name :: h.opening :: (h.params ++ [h.close])) :=
  formed.tokens

theorem params_run : (ofSource source).significant start stop =
    (h.specifiers ++ h.type ++ [h.name, h.opening]) ++ (h.params ++ [h.close]) := by
  rw [formed.at_opening]
  simp only [List.append_assoc, List.cons_append, List.nil_append]

theorem type_kinds : ∀ face ∈ (ofSource source).runFaces h.type, Lexeme.isTypeText face.1 = true := by
  intro face member
  rcases run_kinds formed.type_run formed.bare face member with space | ⟨i, listed, seen⟩
  · rw [space]
    rfl
  · rcases (formed.type_parts i listed).kind with star | ⟨kind, seen', word, pragma⟩
    · rw [Option.some.inj (seen.symm.trans star)]
      rfl
    · rw [Option.some.inj (seen.symm.trans seen')]
      exact Lexeme.word_type_text word pragma

/-- The type is read as it was in front of a blank. -/
theorem type_reads (next : List Char) : ReadsOff (' ' :: next) ((ofSource source).runFaces h.type) := by
  obtain ⟨_, _, reads⟩ := run_reads formed.type_run formed.bare
  refine type_text_before reads formed.type_kinds (by simp) fun face member first tail text => ?_
  obtain ⟨_, own⟩ := reads.last member text
  obtain ⟨last, listed, rfl⟩ := run_last formed.type_run face member
  rcases (formed.type_parts last (List.mem_of_getLast? listed)).kind with star | ⟨kind, seen, word, pragma⟩
  · rw [face_at_kind star] at own ⊢
    obtain ⟨rfl, rfl⟩ := Lexeme.read_star own
    rfl
  · rw [face_at_kind seen] at own ⊢
    exact (Lexeme.read_is_word own word pragma).1.read rfl rfl false next

section Front

variable {first : Nat} {rest : List Nat} (type : h.type = first :: rest)

include type

theorem front_bare : (ofSource source).IsBare start first := by
  obtain ⟨lower, typed, upper⟩ := formed.type_stands type
  exact formed.bare.within (Nat.le_refl start) (by omega)

theorem front_storage : ∀ face ∈ (ofSource source).facesIn start first,
    face.1 = .space ∨ face.1.isStorage = true := by
  intro face member
  refine (face_in (formed.front_bare type) face member).imp_right ?_
  rintro ⟨i, listed, seen⟩
  rw [significant_before (type ▸ formed.before_name)] at listed
  have storage := formed.storage i listed
  rwa [kind_is_of_kind seen] at storage

theorem front_kinds : ∀ face ∈ (ofSource source).facesIn start first, Lexeme.isTypeText face.1 = true := by
  intro face member
  rcases formed.front_storage type face member with space | storage
  · rw [space]
    rfl
  · obtain ⟨word, pragma⟩ := storage_is_word storage
    exact Lexeme.word_type_text word pragma

/-- The specifiers are read as they were in front of another word: none of them stands next to the type, which
starts with a word. -/
theorem front_reads (next : List Char) : ReadsOff ('i' :: next) ((ofSource source).facesIn start first) := by
  obtain ⟨lower, typed, upper⟩ := formed.type_stands type
  obtain ⟨_, _, kind, same, seen, word, pragma⟩ := formed.type_starts
  cases same.symm.trans type
  have bare : (ofSource source).IsBare start (first + 1) := formed.bare.within (Nat.le_refl start) (by omega)
  obtain ⟨_, _, reads⟩ := range_reads bare.plain
  have single : (ofSource source).facesIn first (first + 1) = [(ofSource source).faceAt first] := by
    rw [faces_in_eq (show first + 1 ≤ _ from lt_size_of_kind seen), Nat.add_sub_cancel_left]
    rfl
  rw [← faces_in_append _ lower (Nat.le_succ first), single] at reads
  obtain ⟨readsFront, ⟨c, tail, text, own⟩, _⟩ := reads_from_append.1 reads
  rw [face_at_kind seen] at own
  have starts := (Lexeme.read_is_word own word pragma).1.starts
  refine type_text_before readsFront (formed.front_kinds type) (by simp) fun face member d more spelled => ?_
  have inside := List.mem_of_getLast? member
  rcases formed.front_storage type face inside with space | storage
  · have spaces := space_face readsFront face inside space
    rw [spelled] at spaces
    obtain ⟨here, later⟩ := List.forall_mem_cons.1 spaces
    rw [space]
    exact Lexeme.read_gap here later (by rintro _ ⟨⟩; rfl) false
  · obtain ⟨word', pragma'⟩ := storage_is_word storage
    obtain ⟨_, own'⟩ := readsFront.last member spelled
    have apart := (Lexeme.read_is_word own' word' pragma').2 c (by
      rw [List.flatMap_cons, text]
      rfl)
    rw [Lexeme.isIdentChar, starts] at apart
    cases apart

end Front

theorem trail_blank : ∀ c ∈ ((ofSource source).textRange (h.close + 1) stop).toList, Lexeme.isSpace c = true := by
  obtain ⟨lower, ordered, upper⟩ := formed.params_stand
  exact blank_range (formed.bare.within (by omega) (Nat.le_refl stop)) formed.behind_close

theorem trail_no_dot : ((ofSource source).textRange (h.close + 1) stop).toList.head? ≠ some '.' := by
  intro dot
  have blank := formed.trail_blank '.' (List.mem_of_mem_head? dot)
  cases blank

/-- The parameters are read as they were within a line. -/
theorem params_in_line {isVoid : Bool} (copied : h.CopiesWhole (ofSource source) isVoid) :
    ReadsInLine (next isVoid) ((ofSource source).span h.params).toList := by
  have run := formed.params_run
  have plain := plain_faces (span_text _ _ ▸ run_plain run formed.bare)
  obtain ⟨lineStart, old, reads⟩ := run_reads run formed.bare
  have other := run_uncommented run formed.bare
  have last : ∀ face ∈ ((ofSource source).runFaces h.params).getLast?,
      EndsAt [next isVoid] face ∧ face.1 ≠ .space := by
    intro face member
    have inside := List.mem_of_getLast? member
    obtain ⟨i, listed, rfl⟩ := run_last run face member
    obtain ⟨kind, seen, ends⟩ := kind_is_iff.1 (copied.last i listed)
    obtain ⟨_, seen', carries⟩ := run_carries run i (List.mem_of_getLast? listed)
    cases seen.symm.trans seen'
    rw [face_at_spelling (plain _ inside)] at ends
    rw [EndsAt, face_at_kind seen]
    constructor
    · intro first tail text
      rw [text] at ends
      exact eq_of_beq ends
    · rintro rfl
      cases carries
  have dot : [next isVoid].head? ≠ some '.' := by cases isVoid <;> decide
  have paired := run_paired run formed.balanced
  have copies := reads.in_front dot (fun face member => (last face member).1)
    (paired.keeps_bare other (fun face member => (last face member).2) old [next isVoid])
  have text := span_text (ofSource source) h.params
  cases params : h.params with
  | nil => exact ⟨[], rfl, trivial, .nil, List.forall_mem_nil _⟩
  | cons first rest =>
    obtain ⟨kind, seen, carries⟩ := run_carries run first (by rw [params]; exact List.mem_cons_self)
    by_cases directive : kind = .directive
    · rw [← params]
      exact copied.first first (by rw [params]; rfl) (directive ▸ seen)
    · refine ⟨_, params ▸ text, ?_, params ▸ paired, params ▸ other⟩
      obtain ⟨more, faces⟩ := run_first run params
      rw [params] at copies faces
      rw [faces] at copies ⊢
      exact copies.inside_line (by rwa [face_at_kind seen]) (by rwa [face_at_kind seen])

/-- The text of the type starts with a word. -/
theorem type_text_starts : ∃ c more, ((ofSource source).span h.type).toList = c :: more ∧
    Lexeme.isIdentStart c = true := by
  obtain ⟨first, rest, kind, type, seen, word, pragma⟩ := formed.type_starts
  obtain ⟨more, faces⟩ := run_first formed.type_run type
  obtain ⟨_, _, reads⟩ := run_reads formed.type_run formed.bare
  rw [faces] at reads
  obtain ⟨⟨c, tail, text, own⟩, _⟩ := reads
  rw [face_at_kind seen] at own
  refine ⟨c, tail ++ more.flatMap Prod.snd, ?_, (Lexeme.read_is_word own word pragma).1.starts⟩
  rw [span_text, faces, List.flatMap_cons, text, List.cons_append]

end HeaderTokens.WellFormed

/-! ## New parameters -/

/-- A name for a parameter stays a word when underscores are put behind it. -/
theorem unique_name_word (ts : TokenSeq) (a b : Nat) {outParam : String}
    (named : Settings.isIdentifier outParam = true) :
    ∃ first tail, (ts.uniqueName a b outParam).toList = first :: tail ∧ Lexeme.isIdentStart first = true ∧
      ∀ c ∈ first :: tail, Word.isChar c = true := by
  obtain ⟨count, text⟩ : ∃ count, ts.uniqueName a b outParam = underscored outParam count := ⟨_, rfl⟩
  unfold Settings.isIdentifier at named
  split at named
  · cases named
  · rename_i first rest spelled
    obtain ⟨starts, chars⟩ := (Bool.and_eq_true _ _).mp named
    refine ⟨first, rest ++ List.replicate count '_', ?_, ?_, ?_⟩
    · rw [text, underscored, String.toList_append, spelled, String.toList_ofList, List.cons_append]
    · rw [Bool.or_eq_true, beq_iff_eq] at starts
      rcases starts with rfl | alpha
      · rfl
      · rw [Lexeme.isIdentStart, alpha]
        rfl
    · simp only [Bool.or_eq_true, beq_iff_eq, List.all_eq_true] at starts chars
      simp only [Word.isChar, Char.isAlphanum, Bool.or_eq_true, beq_iff_eq] at chars ⊢
      simp only [List.mem_cons, List.mem_append, List.mem_replicate]
      rintro c (rfl | here | ⟨_, rfl⟩)
      · exact starts.elim .inr fun alpha => .inl (.inl alpha)
      · exact (chars c here).symm
      · exact .inr rfl

theorem char_ident {c : Char} (char : Word.isChar c = true) : Lexeme.isIdentChar c = true := by
  simp only [Word.isChar, Char.isAlphanum, Bool.or_eq_true] at char
  simp only [Lexeme.isIdentChar, Lexeme.isIdentStart, Bool.or_eq_true]
  rcases char with (alpha | digit) | underscore
  · exact .inl (.inl (.inl (.inl alpha)))
  · exact .inr digit
  · exact .inl (.inl (.inl (.inr underscore)))

namespace TokenSeq

/-- The tokens of a parameter that is a pointer to a type. -/
def outFaces (type : List TokenFace) (kind : TokenKind) (name : List Char) : List TokenFace :=
  type ++ [blank, (.star, ['*']), (kind, name)]

theorem out_text (type : List TokenFace) (kind : TokenKind) (name : List Char) :
    (outFaces type kind name).flatMap Prod.snd = type.flatMap Prod.snd ++ " *".toList ++ name := by
  rw [outFaces, List.flatMap_append, List.append_assoc]
  simp [blank]

theorem out_reads {type : List TokenFace} (before : ∀ next, ReadsOff (' ' :: next) type) {first : Char}
    {tail trail : List Char} {kind : TokenKind} (starts : Lexeme.isIdentStart first = true)
    (word : ∀ lineStart more, Lexeme.read lineStart first (tail ++ ')' :: more) = (kind, tail.length)) :
    ReadsOff (')' :: trail) (outFaces type kind (first :: tail)) := by
  refine reads_off_append.2 ⟨before _, reads_blank ?_ ⟨⟨'*', [], rfl, fun lineStart => ?_⟩,
    ⟨first, tail, rfl, fun lineStart => word lineStart trail⟩, trivial⟩⟩
  · rintro c ⟨⟩
    rfl
  · have other : ¬ Lexeme.follows (first :: (tail ++ ')' :: trail)) '=' = true := by
      intro equal
      cases eq_of_beq equal
      cases starts
    show Lexeme.assigned .star (first :: (tail ++ ')' :: trail)) = _
    rw [Lexeme.assigned, if_neg other]
    rfl

theorem out_paired {type : List TokenFace} (paired : Paired type) {kind : TokenKind} (word : kind.isWord = true)
    (name : List Char) : Paired (outFaces type kind name) := by
  have flat : kind.isOpener = false ∧ kind.isCloser = false := by
    cases kind <;> first | decide | cases word
  exact paired.append (.token rfl rfl (.token rfl rfl (.token flat.1 flat.2 .nil)))

theorem reshape_edit {ts : TokenSeq} {f : Function} {outParam : String} {shape : ReturnShape} {e : Edit} {h : Header}
    (read : ts.header f.start f.body = .ok h) (hit : ts.reshape f outParam = .ok (shape, some e)) :
    f.returnsVoid = true ∧ shape = .voidToInt ∧ e = headerEdit h h.params ∨
      f.returnsVoid = false ∧ shape = .outParam h.returnType (ts.uniqueName f.start f.stop outParam) ∧
        e = headerEdit h (paramsWith h (ts.uniqueName f.start f.stop outParam)) := by
  rw [reshape] at hit
  split at hit
  · cases hit
  · rw [read] at hit
    change (if _ then _ else _) = _ at hit
    split at hit
    · rename_i isVoid
      cases hit
      exact .inl ⟨isVoid, rfl, rfl⟩
    · rename_i notVoid
      split at hit
      · cases hit
      · cases hit
        exact .inr ⟨Bool.eq_false_iff.2 notVoid, rfl, rfl⟩

/-- The text of the header of a function after an edit. -/
def editedHeader (ts : TokenSeq) (f : Function) (e : Edit) : String :=
  ts.textRange f.start e.start ++ e.text ++ ts.textRange e.stop f.body

end TokenSeq

/-- The text of the parameters of a new header is read as these tokens, whose brackets stand in pairs, in front
of the closing parenthesis. -/
structure HeaderTokens.ParamsRead (ts : TokenSeq) (body : Nat) (params : String) (content : List TokenFace)
    (h : HeaderTokens) : Prop where
  reads : ∀ trail : List Char, trail.head? ≠ some '.' → TokenSeq.ReadsFrom (')' :: trail) false content
  paired : TokenSeq.Paired content
  spelled : params.toList = content.flatMap Prod.snd
  trimmed : Text.trimChars params.toList = params.toList
  plain : isPlainText (params.toList ++ ')' :: (ts.textRange (h.close + 1) body).toList) = true

namespace HeaderTokens.WellFormed

open TokenSeq

variable {source : String} {f : Function} {h : HeaderTokens}
  (formed : h.WellFormed (ofSource source) f.start f.body) {first : Nat} {rest : List Nat}
  (type : h.type = first :: rest)

include formed type

variable {content : List TokenFace} {params : String} {e : Edit}

/-- What is written for a new header. -/
theorem edited_text (read : h.ParamsRead (ofSource source) f.body params content) {c : Char} {tail : List Char}
    (name : (ofSource source).spelling h.name = String.ofList (c :: tail)) (identifier : Lexeme.IsIdentifier c tail)
    (edits : e = ⟨first, h.close + 1, "int " ++ (ofSource source).spelling h.name ++ "(" ++ params ++ ")"⟩) :
    ((ofSource source).editedHeader f e).toList =
        (headerFaces ((ofSource source).facesIn f.start first) (c :: tail) content
          ((ofSource source).textRange (h.close + 1) f.body).toList).flatMap Prod.snd ∧
      isPlainText ((ofSource source).editedHeader f e).toList = true := by
  obtain ⟨_, _, spelled, _, plain⟩ := read
  obtain ⟨_, _, reads⟩ := range_reads (formed.front_bare type).plain
  have quiet := type_text_quiet reads (formed.front_kinds type)
  have text : ((ofSource source).editedHeader f e).toList =
      (headerFaces ((ofSource source).facesIn f.start first) (c :: tail) content
        ((ofSource source).textRange (h.close + 1) f.body).toList).flatMap Prod.snd := by
    have front := text_range_in (ofSource source) f.start first
    have words : "int ".toList = "int".toList ++ [' '] ∧ "(".toList = ['('] ∧ ")".toList = [')'] := by decide
    simp only [edits, editedHeader, String.toList_append, front, name, @String.toList_ofList (c :: tail), spelled,
      words, headerFaces, List.flatMap_append, List.flatMap_cons, ending_text, blank, List.append_assoc]
  refine ⟨text, ?_⟩
  have fixed : ∀ c ∈ "int".toList ++ [' '], c ≠ '?' ∧ c ≠ '\\' := quiet_of_all rfl
  rw [spelled] at plain
  rw [text]
  simp only [headerFaces, List.flatMap_append, List.flatMap_cons, ending_text, blank]
  rw [plain_quiet quiet, ← List.append_assoc, plain_quiet fixed, plain_quiet (identifier_plain identifier),
    plain_quiet (quiet_of_all rfl)]
  exact plain

/-- A new header declares a function that returns `int`, if its parameters are read from their text. -/
theorem edited_declares (read : h.ParamsRead (ofSource source) f.body params content)
    (edits : e = ⟨first, h.close + 1, "int " ++ (ofSource source).spelling h.name ++ "(" ++ params ++ ")"⟩) :
    DeclaresInt ((ofSource source).editedHeader f e) ((ofSource source).spelling h.name) params := by
  obtain ⟨c, tail, name, identifier⟩ := identifier_spelled (has_kind_iff.2 formed.named.identifier)
  obtain ⟨text, whole⟩ := formed.edited_text type read name identifier edits
  have free := formed.named.free
  rw [name] at free ⊢
  have trimmed := read.trimmed
  rw [read.spelled] at trimmed
  have params : params = String.ofList (content.flatMap Prod.snd) := by rw [← read.spelled, String.ofList_toList]
  rw [params]
  exact declares_int identifier free (formed.front_reads type) (formed.front_storage type)
    (read.reads _ formed.trail_no_dot) read.paired trimmed formed.trail_blank whole text

omit type

theorem closing_plain : isPlainText (')' :: ((ofSource source).textRange (h.close + 1) f.body).toList) = true := by
  rw [← List.append_nil (')' :: _), plain_quiet]
  · rfl
  · refine List.forall_mem_cons.2 ⟨by decide, fun c member => ?_⟩
    exact Lexeme.space_quiet (formed.trail_blank c member)

end HeaderTokens.WellFormed

theorem no_params_trimmed {h : Header} (plain : isPlainText h.params.toList = true)
    (fixed : Text.trim h.params = h.params) : h.hasNoParams = true ↔ h.params = "" ∨ h.params = "void" := by
  have chars := Text.trim_chars fixed
  rw [no_params_iff plain (by rw [chars, String.ofList_toList]), chars, ← String.toList_inj, ← String.toList_inj]
  rfl

/-- Nothing is trimmed off in front of a name. -/
theorem trim_named {front name : List Char} (some : front ≠ []) (first : ∀ c ∈ front.head?, Text.isBlank c = false)
    (nonempty : name ≠ []) (chars : ∀ c ∈ name, Word.isChar c = true) :
    Text.trimChars (front ++ name) = front ++ name := by
  refine Text.trim_fixed_iff.2 ⟨?_, fun c last => ?_⟩
  · rwa [List.head?_append_of_ne_nil front some]
  · rw [List.getLast?_append_of_ne_nil _ nonempty] at last
    exact Word.char_not_blank (chars c (List.mem_of_getLast? last))

namespace HeaderTokens.WellFormed

open TokenSeq

theorem kept_params {source : String} {f : Function} {h : HeaderTokens}
    (formed : h.WellFormed (ofSource source) f.start f.body) (copied : h.CopiesWhole (ofSource source) true) :
    ∃ content, h.ParamsRead (ofSource source) f.body ((ofSource source).span h.params) content := by
  obtain ⟨faces, text, paired, reads⟩ :=
    (formed.params_in_line copied).before (.inr rfl) (Text.trim_chars copied.params)
  refine ⟨faces, reads, paired, text, Text.trim_chars copied.params, ?_⟩
  exact plain_seam (run_plain formed.params_run formed.bare) (by decide) (.inr (copied.marks rfl))
    formed.closing_plain

section NewParameter

variable {source : String} {f : Function} {h : HeaderTokens}
  (formed : h.WellFormed (ofSource source) f.start f.body) {out : String} {c : Char} {tail : List Char}
  (named : out.toList = c :: tail) (starts : Lexeme.isIdentStart c = true)
  (chars : ∀ d ∈ c :: tail, Word.isChar d = true)

include formed named chars

theorem out_quiet : ∀ d ∈ ((ofSource source).span h.type ++ " *" ++ out).toList, d ≠ '?' ∧ d ≠ '\\' := by
  obtain ⟨_, _, reads⟩ := run_reads formed.type_run formed.bare
  have quiet := type_text_quiet reads formed.type_kinds
  have fixed : ∀ d ∈ " *".toList, d ≠ '?' ∧ d ≠ '\\' := quiet_of_all rfl
  rw [String.toList_append, String.toList_append, span_text, named]
  intro d member
  rcases List.mem_append.1 member with before | name
  · exact (List.mem_append.1 before).elim (quiet d) (fixed d)
  · exact Lexeme.ident_quiet (char_ident (chars d name))

include starts

/-- The tokens of the new parameter. -/
theorem out_param : ∃ faces, ((ofSource source).span h.type ++ " *" ++ out).toList = faces.flatMap Prod.snd ∧
    Paired faces ∧ ∀ trail, ReadsOff (')' :: trail) faces := by
  have idents : ∀ d ∈ tail, Lexeme.isIdentChar d = true := fun d member =>
    char_ident (chars d (List.mem_cons_of_mem c member))
  obtain ⟨kind, isWord, word⟩ := Lexeme.read_word_closed starts idents
  refine ⟨outFaces ((ofSource source).runFaces h.type) kind (c :: tail), ?_,
    out_paired (type_text_paired formed.type_kinds) isWord (c :: tail),
    fun trail => out_reads formed.type_reads starts word⟩
  rw [String.toList_append, String.toList_append, out_text, span_text, named]

theorem out_alone_params (fixed : Text.trim ((ofSource source).span h.type) = (ofSource source).span h.type) :
    ∃ content, h.ParamsRead (ofSource source) f.body ((ofSource source).span h.type ++ " *" ++ out) content := by
  obtain ⟨faces, text, paired, reads⟩ := formed.out_param named starts chars
  refine ⟨faces, fun trail _ => (reads trail).reads_from false, paired, text, ?_, ?_⟩
  · obtain ⟨d, more, typeText, _⟩ := formed.type_text_starts
    have first := (Text.trim_fixed_iff.1 (Text.trim_chars fixed)).1
    rw [typeText] at first
    rw [String.toList_append, String.toList_append, typeText, named]
    exact trim_named (List.cons_ne_nil d _) first (List.cons_ne_nil c tail) chars
  · rw [plain_quiet (formed.out_quiet named chars)]
    exact formed.closing_plain

theorem out_behind_params (copied : h.CopiesWhole (ofSource source) false) :
    ∃ content, h.ParamsRead (ofSource source) f.body
      ((ofSource source).span h.params ++ ", " ++ ((ofSource source).span h.type ++ " *" ++ out)) content := by
  obtain ⟨faces, text, paired, reads⟩ := formed.out_param named starts chars
  obtain ⟨old, oldText, oldPaired, oldReads⟩ :=
    (formed.params_in_line copied).before (.inl rfl) (Text.trim_chars copied.params)
  have comma : ", ".toList = [',', ' '] := by decide
  have whole : ((ofSource source).span h.params ++ ", " ++ ((ofSource source).span h.type ++ " *" ++ out)).toList =
      (old ++ (.comma, [',']) :: blank :: faces).flatMap Prod.snd := by
    simp only [String.toList_append] at text ⊢
    rw [text, oldText, comma, List.flatMap_append, List.flatMap_cons, List.flatMap_cons]
    simp [blank]
  refine ⟨_, fun trail _ => ?_, oldPaired.append (.token rfl rfl (.token rfl rfl paired)), whole, ?_, ?_⟩
  · refine reads_from_append.2 ⟨oldReads _ (by simp [blank]), ReadsOff.reads_from ?_ _⟩
    refine ⟨⟨',', [], rfl, fun _ => rfl⟩, reads_blank ?_ (reads trail)⟩
    obtain ⟨d, more, typeText, wordStarts⟩ := formed.type_text_starts
    rw [← text, String.toList_append, String.toList_append, typeText]
    rintro _ ⟨⟩
    exact Lexeme.start_no_space wordStarts
  · have first := (Text.trim_fixed_iff.1 (Text.trim_chars copied.params)).1
    simp only [String.toList_append, comma, named]
    rw [← List.append_assoc, ← List.append_assoc]
    refine trim_named (by simp) ?_ (List.cons_ne_nil c tail) chars
    cases params : ((ofSource source).span h.params).toList with
    | nil =>
      rintro _ ⟨⟩
      decide
    | cons d more =>
      rw [params] at first
      exact first
  · have behind : ∀ d ∈ ", ".toList ++ ((ofSource source).span h.type ++ " *" ++ out).toList, d ≠ '?' ∧ d ≠ '\\' := by
      have fixed : ∀ d ∈ ", ".toList, d ≠ '?' ∧ d ≠ '\\' := quiet_of_all rfl
      exact fun d member => (List.mem_append.1 member).elim (fixed d) (formed.out_quiet named chars d)
    have closing := formed.closing_plain
    rw [← plain_quiet behind, comma] at closing
    rw [String.toList_append, String.toList_append, comma, List.append_assoc, List.append_assoc]
    exact plain_seam (run_plain formed.params_run formed.bare) (by decide) (.inl rfl) closing

end NewParameter

end HeaderTokens.WellFormed

namespace TokenSeq

/-- What is written for a header that changes, and how its parameters are read. -/
theorem new_params_read {source : String} {f : Function} {h : HeaderTokens} {outParam : String} {shape : ReturnShape}
    {e : Edit} (formed : h.WellFormed (ofSource source) f.start f.body)
    (copied : h.CopiesWhole (ofSource source) f.returnsVoid) (named : Settings.isIdentifier outParam = true)
    (hit : (ofSource source).reshape f outParam = .ok (shape, some e)) {params : String} (given : params =
      h.newParams (ofSource source) f.returnsVoid ((ofSource source).uniqueName f.start f.stop outParam)) :
    ∃ first rest content, h.type = first :: rest ∧
      e = ⟨first, h.close + 1, "int " ++ (ofSource source).spelling h.name ++ "(" ++ params ++ ")"⟩ ∧
      h.ParamsRead (ofSource source) f.body params content := by
  subst given
  obtain ⟨first, rest, _, type, _⟩ := formed.type_starts
  have read := formed.header_read type copied.params
  rcases reshape_edit read hit with ⟨isVoid, _, edits⟩ | ⟨notVoid, _, edits⟩
  · rw [isVoid] at copied ⊢
    obtain ⟨content, read⟩ := formed.kept_params copied
    exact ⟨first, rest, content, type, edits, read⟩
  · rw [notVoid] at copied ⊢
    rw [formed.type_trimmed type (copied.type rfl)] at edits
    obtain ⟨c, tail, text, starts, chars⟩ := unique_name_word (ofSource source) f.start f.stop named
    generalize (ofSource source).uniqueName f.start f.stop outParam = out at edits text ⊢
    have none {hd : Header} (same : hd.params = (ofSource source).span h.params) :=
      @no_params_trimmed hd (same ▸ run_plain formed.params_run formed.bare) (same ▸ copied.params)
    rw [paramsWith] at edits
    rw [HeaderTokens.newParams, if_neg Bool.false_ne_true]
    split at edits
    · rename_i empty
      rw [if_pos ((none rfl).1 empty)]
      obtain ⟨content, read⟩ := formed.out_alone_params text starts chars (copied.type rfl)
      exact ⟨first, rest, content, type, edits, read⟩
    · rename_i some
      rw [if_neg fun empty => some ((none rfl).2 empty)]
      obtain ⟨content, read⟩ := formed.out_behind_params text starts chars copied
      exact ⟨first, rest, content, type, edits, read⟩

/-- A new header, read as a declaration, is a function of the same name that returns `int` and has the new
parameters. -/
theorem new_header_declares {source : String} {f : Function} {h : HeaderTokens} {outParam : String}
    {shape : ReturnShape} {e : Edit} (formed : h.WellFormed (ofSource source) f.start f.body)
    (copied : h.CopiesWhole (ofSource source) f.returnsVoid) (named : Settings.isIdentifier outParam = true)
    (hit : (ofSource source).reshape f outParam = .ok (shape, some e)) :
    DeclaresInt ((ofSource source).editedHeader f e) ((ofSource source).spelling h.name)
      (h.newParams (ofSource source) f.returnsVoid ((ofSource source).uniqueName f.start f.stop outParam)) := by
  obtain ⟨first, rest, content, type, edits, read⟩ := new_params_read formed copied named hit rfl
  exact formed.edited_declares type read edits

/-- Tokens that are no brackets, in front of tokens with brackets in pairs. -/
theorem balanced_behind {ts : TokenSeq} {front rest : List Nat}
    (flat : ∀ i ∈ front, ts.kindIs i (fun kind => !kind.isOpener && !kind.isCloser) = true)
    (behind : ts.Balanced rest) : ts.Balanced (front ++ rest) := by
  induction front with
  | nil => exact behind
  | cons i front ih =>
    obtain ⟨here, later⟩ := List.forall_mem_cons.1 flat
    obtain ⟨kind, seen, flat⟩ := kind_is_iff.1 here
    rw [Bool.and_eq_true, Bool.not_eq_true', Bool.not_eq_true'] at flat
    exact .token seen flat.1 flat.2 (ih later)

/-- A pointer to a structure goes out, behind a parameter that is a pointer to a function. -/
theorem new_header_declares_nested :
    let source := "static const struct node *make(int n, char (*f)(int)) \x7b return malloc(1); \x7d\n"
    let ts := ofSource source
    let f : Function := ⟨"make", 0, 27, 38, false, true, "const struct node *", false⟩
    let h : HeaderTokens := ⟨[0], [2, 4, 6], [8], 9, 10, [11, 13, 14, 16, 18, 19, 20, 21, 22, 23, 24], 25⟩
    let e : Edit := ⟨2, 26, "int make(int n, char (*f)(int), const struct node * *out)"⟩
    h.WellFormed ts f.start f.body ∧ h.CopiesWhole ts f.returnsVoid ∧ Settings.isIdentifier "out" = true ∧
      ts.reshape f "out" = .ok (.outParam "const struct node *" "out", some e) ∧
      DeclaresInt "static int make(int n, char (*f)(int), const struct node * *out) " "make"
        "int n, char (*f)(int), const struct node * *out" := by
  intro source ts f h e
  obtain ⟨tokens, storage, words, keyword, tag, pointers, name, opens, closes, plain, uncommented⟩ :
      ts.significant 0 27 = h.tokens ∧ (∀ i ∈ h.specifiers, ts.kindIs i TokenKind.isStorage = true) ∧
        h.words.filter (fun i => !ts.kindIs i HeaderTokens.isTypeKeyword) = [4, 6] ∧ ts.kind? 4 = some .struct ∧
        (ts.kind? 6 = some .identifier ∧ Word.isReserved (ts.spelling 6) = false) ∧
        (∀ i ∈ h.pointers, ts.kind? i = some .star) ∧
        (ts.kind? 9 = some .identifier ∧ Word.isReserved (ts.spelling 9) = false) ∧
        ts.kind? 10 = some .openParen ∧ ts.kind? 25 = some .closeParen ∧
        isPlainText (ts.textRange 0 27).toList = true ∧ ∀ i < 27, ts.kind? i ≠ some .comment := by
    decide +kernel
  obtain ⟨outside, within, argument, openers, closers⟩ :
      (∀ i ∈ [11, 13, 14, 16], ts.kindIs i (fun kind => !kind.isOpener && !kind.isCloser) = true) ∧
        (∀ i ∈ [19, 20], ts.kindIs i (fun kind => !kind.isOpener && !kind.isCloser) = true) ∧
        (∀ i ∈ [23], ts.kindIs i (fun kind => !kind.isOpener && !kind.isCloser) = true) ∧
        (∀ i ∈ [18, 22], ts.kind? i = some Bracket.paren.opener) ∧
        ∀ i ∈ [21, 24], ts.kind? i = some Bracket.paren.closer := by
    decide +kernel
  have balanced : ts.Balanced h.params :=
    balanced_behind outside
      (.group (openers 18 (by simp)) (closers 21 (by simp)) (balanced_behind within .nil)
        (.group (openers 22 (by simp)) (closers 24 (by simp)) (balanced_behind argument .nil) .nil))
  have formed : h.WellFormed ts f.start f.body :=
    ⟨tokens, storage, words ▸ .aggregate keyword rfl ⟨tag.1, tag.2⟩, fun i member => .inl (pointers i member),
      ⟨name.1, name.2⟩, opens, closes, balanced, plain, fun i _ => uncommented i⟩
  have copied : h.CopiesWhole ts f.returnsVoid := by
    have parts : Text.trim (ts.span h.type) = ts.span h.type ∧ Text.trim (ts.span h.params) = ts.span h.params ∧
        ts.kind? 11 ≠ some .directive ∧ ts.kindIs 24 (Lexeme.endsAt ',' · (ts.spelling 24).toList) = true := by
      decide +kernel
    refine ⟨fun _ => parts.1, parts.2.1, ?_, ?_, nofun⟩
    · rintro _ ⟨⟩ directive
      exact absurd directive parts.2.2.1
    · rintro _ ⟨⟩
      exact parts.2.2.2
  obtain ⟨named, hit, text, spelled, params⟩ : Settings.isIdentifier "out" = true ∧
      (ts.reshape f "out").toOption = some (.outParam "const struct node *" "out", some e) ∧
      ts.editedHeader f e = "static int make(int n, char (*f)(int), const struct node * *out) " ∧
      ts.spelling h.name = "make" ∧ h.newParams ts f.returnsVoid (ts.uniqueName f.start f.stop "out") =
        "int n, char (*f)(int), const struct node * *out" := by
    decide +kernel
  -- From here on only these facts matter, and no step may compute with the text.
  clear_value source f h e
  have declares := new_header_declares formed copied named (to_option_some.1 hit)
  rw [text, spelled, params] at declares
  exact ⟨formed, copied, named, to_option_some.1 hit, declares⟩

/-- A directive at the end of the parameters swallows what is put behind them. -/
theorem new_header_lost_in_directive :
    let ts := ofSource "char *f(int a\n#ifdef X\n, int b\n#endif\n) \x7b return malloc(1); \x7d\n"
    let f : Function := ⟨"f", 0, 21, 32, false, true, "char *", false⟩
    let h : HeaderTokens := ⟨[], [0], [2], 3, 4, [5, 7, 9, 11, 13, 15, 17], 19⟩
    let e : Edit := ⟨0, 20, "int f(int a\n#ifdef X\n, int b\n#endif, char * *out)"⟩
    h.WellFormed ts f.start f.body ∧ Settings.isIdentifier "out" = true ∧
      ts.reshape f "out" = .ok (.outParam "char *" "out", some e) ∧
      (ofSource (ts.editedHeader f e)).declaration 0 (ofSource (ts.editedHeader f e)).size = .error .unbalanced := by
  intro ts f h e
  obtain ⟨tokens, words, char, pointers, name, opens, closes, flat, plain, uncommented⟩ :
      ts.significant 0 21 = h.tokens ∧
        h.words.filter (fun i => !ts.kindIs i HeaderTokens.isTypeKeyword) = [0] ∧
        (∀ i ∈ [0], ts.kind? i = some .identifier ∧ Word.isBuiltinType (ts.spelling i) = true) ∧
        (∀ i ∈ h.pointers, ts.kind? i = some .star) ∧
        (ts.kind? 3 = some .identifier ∧ Word.isReserved (ts.spelling 3) = false) ∧
        ts.kind? 4 = some .openParen ∧ ts.kind? 19 = some .closeParen ∧
        (∀ i ∈ h.params, ts.kindIs i (fun kind => !kind.isOpener && !kind.isCloser) = true) ∧
        isPlainText (ts.textRange 0 21).toList = true ∧ ∀ i < 21, ts.kind? i ≠ some .comment := by
    decide +kernel
  have balanced : ts.Balanced h.params := by
    have alone := balanced_behind flat .nil
    rwa [List.append_nil] at alone
  have formed : h.WellFormed ts f.start f.body :=
    ⟨tokens, List.forall_mem_nil _, words ▸ .builtin char, fun i member => .inl (pointers i member),
      ⟨name.1, name.2⟩, opens, closes, balanced, plain, fun i _ => uncommented i⟩
  obtain ⟨named, hit, reads⟩ : Settings.isIdentifier "out" = true ∧
      (ts.reshape f "out").toOption = some (.outParam "char *" "out", some e) ∧
      (ofSource (ts.editedHeader f e)).declaration 0 (ofSource (ts.editedHeader f e)).size = .error .unbalanced := by
    decide +kernel
  exact ⟨formed, named, to_option_some.1 hit, reads⟩

end TokenSeq

end AllocGuard
