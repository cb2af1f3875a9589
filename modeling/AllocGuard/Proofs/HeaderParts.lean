import AllocGuard.Proofs.AssignedLvalues
import AllocGuard.Proofs.HeaderAgreement
import AllocGuard.Proofs.SiteWindows
import AllocGuard.Proofs.WrittenHeaders

/-! Function headers as the tokens that carry their meaning. A header of keywords for storage, a type, a name
and a parameter list with brackets in pairs is taken apart into just these parts, and a part is the text from
its first token to its last if no blank stands at an end of that text. -/
namespace AllocGuard

/-- The text from the first of these tokens to the last. -/
def TokenSeq.span (ts : TokenSeq) : List Nat → String
  | [] => ""
  | first :: rest => ts.textRange first (rest.getLastD first + 1)

/-- No trigraph, no joined line and no comment stands in `[a, b)`. -/
structure TokenSeq.IsBare (ts : TokenSeq) (a b : Nat) : Prop where
  plain : isPlainText (ts.textRange a b).toList = true
  uncommented : ∀ i, a ≤ i → i < b → ts.kind? i ≠ some .comment

/-- The tokens of a function header that carry meaning. -/
structure HeaderTokens where
  specifiers : List Nat
  /-- The words of the return type, with its qualifiers. -/
  words : List Nat
  /-- The stars of the return type, with their qualifiers. -/
  pointers : List Nat
  name : Nat
  opening : Nat
  params : List Nat
  close : Nat

namespace HeaderTokens

/-- The return type. -/
def type (h : HeaderTokens) : List Nat :=
  h.words ++ h.pointers

def tokens (h : HeaderTokens) : List Nat :=
  h.specifiers ++ (h.type ++ h.name :: h.opening :: (h.params ++ [h.close]))

/-- Keywords that may stand anywhere among the words of a type. -/
def isTypeKeyword (kind : TokenKind) : Bool :=
  kind.isQualifier || kind == .complex

/-- The tokens are those of the header in `[start, stop)`: keywords for storage, a type, a name, and
parameters with brackets in pairs. -/
structure WellFormed (ts : TokenSeq) (start stop : Nat) (h : HeaderTokens) : Prop where
  tokens : ts.significant start stop = h.tokens
  storage : ∀ i ∈ h.specifiers, ts.kindIs i TokenKind.isStorage = true
  words : ts.TypeWords (h.words.filter fun i => !ts.kindIs i isTypeKeyword)
  pointers : ∀ i ∈ h.pointers, ts.kind? i = some .star ∨ ts.kindIs i TokenKind.isQualifier = true
  named : ts.IsName h.name
  opens : ts.kind? h.opening = some .openParen
  closes : ts.kind? h.close = some .closeParen
  balanced : ts.Balanced h.params
  bare : ts.IsBare start stop

end HeaderTokens

namespace TokenSeq

/-! ## Words of a type -/

/-- A word of a type, which is neither a storage specifier nor an attribute, or a star. -/
structure IsTypePart (ts : TokenSeq) (i : Nat) : Prop where
  kind : ts.kind? i = some .star ∨ ∃ kind, ts.kind? i = some kind ∧ kind.isWord = true ∧ kind ≠ .pragma
  noStorage : ts.isStorageAt i = false
  noAttribute : ∀ limit, ts.isAttributeAt i limit = false

theorem builtin_no_storage {word : String} (builtin : Word.isBuiltinType word = true) :
    Word.isStorage word = false := by
  rw [Word.isBuiltinType, List.contains_iff_mem] at builtin
  revert word
  decide

section TypeParts

variable {ts : TokenSeq} {i : Nat}

theorem kind_type_part {kind : TokenKind} (seen : ts.kind? i = some kind)
    (part : kind = .star ∨ kind.isAggregate = true ∨ HeaderTokens.isTypeKeyword kind = true) : ts.IsTypePart i := by
  have facts : (kind = .star ∨ kind.isWord = true ∧ kind ≠ .pragma) ∧ (kind == .identifier) = false ∧
      kind.isStorage = false := by
    rcases part with rfl | aggregate | keyword
    · decide
    · cases kind <;> first | decide | cases aggregate
    · cases kind <;> first | decide | cases keyword
  obtain ⟨kinds, identifier, storage⟩ := facts
  constructor
  · exact kinds.imp (fun star : kind = .star => star ▸ seen) fun word => ⟨kind, seen, word⟩
  · rw [isStorageAt, kind_is_of_kind seen, has_kind_of_kind seen, storage, identifier]
    rfl
  · intro limit
    rw [isAttributeAt, has_kind_of_kind seen, identifier]
    rfl

theorem identifier_type_part (seen : ts.kind? i = some .identifier)
    (noStorage : Word.isStorage (ts.spelling i) = false)
    (noAttribute : Word.isAttribute (ts.spelling i) = false) : ts.IsTypePart i where
  kind := .inr ⟨.identifier, seen, rfl, nofun⟩
  noStorage := by
    rw [isStorageAt, kind_is_of_kind seen, noStorage, Bool.and_false]
    rfl
  noAttribute limit := by rw [isAttributeAt, noAttribute, Bool.and_false, Bool.false_and]

theorem name_type_part (named : ts.IsName i) : ts.IsTypePart i := by
  have free := named.free
  simp only [Word.isReserved, Bool.or_eq_false_iff] at free
  exact identifier_type_part named.identifier free.1.1.2 free.2

theorem type_words_part {words : List Nat} (named : ts.TypeWords words) : ∀ i ∈ words, ts.IsTypePart i := by
  intro i member
  cases named with
  | builtin words =>
    obtain ⟨seen, builtin⟩ := words i member
    exact identifier_type_part seen (builtin_no_storage builtin) (Word.builtin_takes_no_group builtin).2
  | @aggregate keyword tag kind seen opens named =>
    simp only [List.mem_cons, List.not_mem_nil, or_false] at member
    rcases member with rfl | rfl
    · exact kind_type_part seen (.inr (.inl opens))
    · exact name_type_part named
  | typedef named =>
    cases List.mem_singleton.1 member
    exact name_type_part named

end TypeParts

theorem word_passed {ts : TokenSeq} {i : Nat} {kind : TokenKind} (seen : ts.kind? i = some kind)
    (word : kind.isWord = true) : ts.kindIs i scansPast = true := by
  rw [kind_is_of_kind seen]
  cases kind <;> first | rfl | cases word

/-! ## The parts of a header -/

section Scans

variable {ts : TokenSeq} {start stop i first : Nat} {front rest : List Nat}

theorem skip_storage_list {specifiers : List Nat} {limit : Nat}
    (all : ts.significant i limit = specifiers ++ first :: rest) (storage : ∀ j ∈ specifiers, ts.isStorageAt j = true)
    (part : ts.IsTypePart first) : ts.skipStorage i limit = first := by
  induction specifiers generalizing i with
  | nil =>
    rw [skip_storage_eq, next_significant_cons.2 ⟨rest, all⟩]
    simp only [part.noStorage, part.noAttribute, Bool.false_eq_true, if_false]
  | cons j specifiers ih =>
    obtain ⟨here, later⟩ := List.forall_mem_cons.1 storage
    rw [skip_storage_eq, next_significant_cons.2 ⟨_, all⟩]
    simp only [here, if_true]
    exact ih (@significant_after ts i limit j [] _ all) later

theorem scan_list {tokens rest : List Nat} {opening : Nat} (aggregate : Bool)
    (all : ts.significant i stop = tokens ++ opening :: rest) (past : ∀ j ∈ tokens, ts.kindIs j scansPast = true) :
    ∃ aggregate', ts.parameterListFrom start stop aggregate i =
      ts.parameterListFrom start stop aggregate' opening := by
  induction tokens generalizing i aggregate with
  | nil => exact ⟨aggregate, scan_blank (next_significant_cons.2 ⟨rest, all⟩)⟩
  | cons j tokens ih =>
    obtain ⟨here, later⟩ := List.forall_mem_cons.1 past
    have follows := next_significant_cons.2 ⟨_, all⟩
    obtain ⟨kind, seen, passed⟩ := kind_is_iff.1 here
    obtain ⟨aggregate', scans⟩ := ih (aggregate || kind.isAggregate) (@significant_after ts i stop j [] _ all) later
    refine ⟨aggregate', ?_⟩
    rw [scan_blank follows, scan_past (next_significant_bounds follows).2.1 seen passed, scans]

theorem significant_none (ts : TokenSeq) (i : Nat) : ts.significant i i = [] := by
  rw [significant_eq, Nat.sub_self]
  rfl

theorem significant_from (all : ts.significant start stop = front ++ first :: rest) :
    ts.significant first stop = first :: rest := by
  have stands : ts.Stands start stop first := mem_significant.1 (by simp [all])
  rw [significant_split ⟨Nat.le_refl first, stands.below, stands.carries⟩, significant_none, significant_after all]
  rfl

theorem significant_through {last : Nat} (all : ts.significant start stop = front ++ last :: rest) :
    ts.significant start (last + 1) = front ++ [last] := by
  have stands : ts.Stands start stop last := mem_significant.1 (by simp [all])
  rw [significant_split ⟨stands.above, Nat.lt_succ_self last, stands.carries⟩, significant_before all,
    significant_none]

theorem last_of_run (first : Nat) (rest : List Nat) : ∃ init, first :: rest = init ++ [rest.getLastD first] := by
  rcases List.eq_nil_or_concat rest with rfl | ⟨init, last, rfl⟩
  · exact ⟨[], rfl⟩
  · exact ⟨first :: init, by rw [List.concat_eq_append, List.getLastD_concat]; rfl⟩

/-- The tokens from the first to the last of a run are the run. -/
theorem significant_run {back : List Nat} (all : ts.significant start stop = front ++ (first :: rest ++ back)) :
    ts.significant first (rest.getLastD first + 1) = first :: rest ∧
      ts.significant (rest.getLastD first + 1) stop = back := by
  have whole := significant_from (show ts.significant start stop = front ++ first :: (rest ++ back) from all)
  obtain ⟨init, split⟩ := last_of_run first rest
  rw [← List.cons_append, split, List.append_assoc] at whole
  exact ⟨(significant_through whole).trans split.symm, significant_after whole⟩

end Scans

/-! ## Texts of runs -/

section Runs

variable {ts : TokenSeq} {a b : Nat}

theorem IsBare.within (bare : ts.IsBare a b) {i j : Nat} (lower : a ≤ i) (upper : j ≤ b) : ts.IsBare i j :=
  ⟨plain_between bare.plain lower upper, fun k above below => bare.uncommented k (by omega) (by omega)⟩

theorem face_in (bare : ts.IsBare a b) :
    ∀ face ∈ ts.facesIn a b, face.1 = .space ∨ ∃ i ∈ ts.significant a b, ts.kind? i = some face.1 := by
  intro face member
  obtain ⟨k, there⟩ := List.mem_iff_getElem?.1 member
  rw [facesIn, List.getElem?_take, List.getElem?_drop] at there
  split at there
  · rename_i below
    have seen : ts.kind? (a + k) = some face.1 := by rw [kind_of_faces, there, Option.map_some]
    cases carries : ts.isSignificant (a + k) with
    | true => exact .inr ⟨a + k, mem_significant.2 ⟨by omega, by omega, carries⟩, seen⟩
    | false =>
      rcases trivia_kind (lt_size_of_kind seen) carries with space | comment
      · exact .inl (Option.some.inj (seen.symm.trans space))
      · exact absurd comment (bare.uncommented _ (by omega) (by omega))
  · cases there

theorem blank_range {source : String} (bare : (ofSource source).IsBare a b)
    (none : (ofSource source).significant a b = []) :
    ∀ c ∈ ((ofSource source).textRange a b).toList, Lexeme.isSpace c = true := by
  intro c member
  rw [text_range_in] at member
  obtain ⟨face, inside, char⟩ := List.mem_flatMap.1 member
  obtain ⟨_, _, reads⟩ := range_reads bare.plain
  rcases face_in bare face inside with space | ⟨i, listed, _⟩
  · exact space_face reads face inside space c char
  · rw [none] at listed
    cases listed

/-- The tokens from the first of a run to the last, with the texts that stand for them. -/
def runFaces (ts : TokenSeq) : List Nat → List TokenFace
  | [] => []
  | first :: rest => ts.facesIn first (rest.getLastD first + 1)

theorem span_text (ts : TokenSeq) (run : List Nat) : (ts.span run).toList = (ts.runFaces run).flatMap Prod.snd := by
  cases run with
  | nil => rfl
  | cons first rest => exact text_range_in ts first _

/-- Where a run stands, among the tokens of a range. -/
theorem run_bounds {front rest back : List Nat} {first : Nat}
    (all : ts.significant a b = front ++ (first :: rest ++ back)) :
    a ≤ first ∧ first ≤ rest.getLastD first ∧ rest.getLastD first < b ∧ rest.getLastD first < ts.size := by
  obtain ⟨init, split⟩ := last_of_run first rest
  have starts : ts.Stands a b first := mem_significant.1 (by simp [all])
  have ends : ts.Stands a b (rest.getLastD first) := mem_significant.1 (by rw [all, split]; simp)
  have within : ts.Stands first (rest.getLastD first + 1) (rest.getLastD first) :=
    mem_significant.1 (by rw [(significant_run all).1, split]; simp)
  obtain ⟨_, seen, _⟩ := kind_is_iff.1 ends.carries
  exact ⟨starts.above, within.above, ends.below, lt_size_of_kind seen⟩

/-- The text of a range without blanks around it is that from its first token to its last. -/
theorem trimmed_run {source : String} (bare : (ofSource source).IsBare a b) {run : List Nat}
    (all : (ofSource source).significant a b = run)
    (fixed : Text.trim ((ofSource source).span run) = (ofSource source).span run) :
    (ofSource source).trimmedRange a b = (ofSource source).span run := by
  have blank {i j : Nat} (bare : (ofSource source).IsBare i j) (none : (ofSource source).significant i j = []) :
      ∀ c ∈ ((ofSource source).textRange i j).toList, Text.isBlank c = true :=
    fun c member => (Word.space_blank (blank_range bare none c member)).1
  have fixed := Text.trim_chars fixed
  rw [trimmedRange, Text.trim, ← String.toList_inj, String.toList_ofList]
  cases run with
  | nil =>
    have empty := Text.trim_within (blank bare all) fixed (List.forall_mem_nil _)
    rwa [List.append_nil, show (ofSource source).span [] = "" from rfl, String.toList_empty, List.append_nil] at empty
  | cons first rest =>
    have whole : (ofSource source).significant a b = [] ++ (first :: rest ++ []) := by rw [all, List.append_nil]; rfl
    obtain ⟨lower, ordered, upper, _⟩ := run_bounds whole
    have before := blank (bare.within (Nat.le_refl a) (by omega)) (@significant_before _ a b first [] rest all)
    have behind := blank (bare.within (by omega) (Nat.le_refl b)) (significant_run whole).2
    rw [← text_range_append _ lower (by omega), ← text_range_append _ (Nat.le_succ_of_le ordered) upper,
      String.toList_append, String.toList_append]
    exact Text.trim_within before fixed behind

end Runs

/-! ## Tokens of runs -/

theorem face_at_spelling {ts : TokenSeq} {i : Nat} (plain : isPlainText (ts.faceAt i).2 = true) :
    (ts.spelling i).toList = (ts.faceAt i).2 := by
  rw [spelling_of_faces]
  rw [faceAt] at plain ⊢
  cases there : ts.faces[i]? with
  | none => rfl
  | some face =>
    rw [there] at plain
    rw [Option.map_some, Option.getD_some, Option.getD_some, String.toList_ofList]
    exact logical_plain plain

section Faces

variable {source : String} {a b : Nat} {front run back : List Nat}
  (all : (ofSource source).significant a b = front ++ (run ++ back))

include all

theorem run_bare (bare : (ofSource source).IsBare a b) {first : Nat} {rest : List Nat} (split : run = first :: rest) :
    (ofSource source).IsBare first (rest.getLastD first + 1) := by
  obtain ⟨lower, ordered, upper, _⟩ := run_bounds (split ▸ all)
  exact bare.within lower upper

theorem run_kinds (bare : (ofSource source).IsBare a b) : ∀ face ∈ (ofSource source).runFaces run,
    face.1 = .space ∨ ∃ i ∈ run, (ofSource source).kind? i = some face.1 := by
  cases run with
  | nil => exact List.forall_mem_nil _
  | cons first rest =>
    have kinds := face_in (run_bare all bare rfl)
    rwa [(significant_run all).1] at kinds

theorem run_plain (bare : (ofSource source).IsBare a b) : isPlainText ((ofSource source).span run).toList = true := by
  cases run with
  | nil => rfl
  | cons first rest => exact (run_bare all bare rfl).plain

theorem run_reads (bare : (ofSource source).IsBare a b) :
    ∃ lineStart next, ReadsFrom next lineStart ((ofSource source).runFaces run) := by
  cases run with
  | nil => exact ⟨true, [], trivial⟩
  | cons first rest => exact range_reads (run_bare all bare rfl).plain

theorem run_paired (balanced : (ofSource source).Balanced run) : Paired ((ofSource source).runFaces run) := by
  cases run with
  | nil => exact .nil
  | cons first rest =>
    obtain ⟨_, _, _, inside⟩ := run_bounds all
    rw [runFaces, faces_in_eq inside]
    refine balanced.paired ?_
    rw [← significant_eq, (significant_run all).1]

theorem run_first {first : Nat} {rest : List Nat} (split : run = first :: rest) :
    ∃ more, (ofSource source).runFaces run = (ofSource source).faceAt first :: more := by
  subst split
  obtain ⟨_, ordered, _, inside⟩ := run_bounds all
  have count : rest.getLastD first + 1 - first = (rest.getLastD first - first) + 1 := by omega
  rw [runFaces, faces_in_eq inside, count, List.range'_succ, List.map_cons]
  exact ⟨_, rfl⟩

theorem run_last : ∀ face ∈ ((ofSource source).runFaces run).getLast?,
    ∃ last ∈ run.getLast?, face = (ofSource source).faceAt last := by
  cases run with
  | nil => exact fun _ member => nomatch member
  | cons first rest =>
    obtain ⟨_, ordered, _, inside⟩ := run_bounds all
    obtain ⟨_, split⟩ := last_of_run first rest
    have count : rest.getLastD first + 1 - first = (rest.getLastD first - first) + 1 := by omega
    have reach : first + 1 * (rest.getLastD first - first) = rest.getLastD first := by omega
    rw [runFaces, faces_in_eq inside, count, List.range'_concat, List.map_append, reach, List.map_singleton,
      List.getLast?_concat]
    rintro face ⟨⟩
    exact ⟨_, by rw [split, List.getLast?_concat]; rfl, rfl⟩

theorem run_carries : ∀ i ∈ run, ∃ kind, (ofSource source).kind? i = some kind ∧ kind.isTrivia = false := by
  intro i member
  have stands : (ofSource source).Stands a b i := mem_significant.1 (by rw [all]; simp [member])
  obtain ⟨kind, seen, carries⟩ := kind_is_iff.1 stands.carries
  exact ⟨kind, seen, by simpa using carries⟩

theorem run_uncommented (bare : (ofSource source).IsBare a b) :
    ∀ face ∈ (ofSource source).runFaces run, face.1 ≠ .comment := by
  intro face member comment
  rcases run_kinds all bare face member with space | ⟨i, listed, seen⟩
  · cases space.symm.trans comment
  · obtain ⟨kind, seen', carries⟩ := run_carries all i listed
    rw [seen, comment] at seen'
    cases seen'
    cases carries

end Faces

end TokenSeq

namespace HeaderTokens.WellFormed

open TokenSeq

variable {ts : TokenSeq} {start stop : Nat} {h : HeaderTokens} (formed : h.WellFormed ts start stop)

include formed

variable {first : Nat} {rest : List Nat}

theorem type_parts : ∀ i ∈ h.type, ts.IsTypePart i := by
  intro i member
  rcases List.mem_append.1 member with word | pointer
  · cases keyword : ts.kindIs i isTypeKeyword with
    | true =>
      obtain ⟨kind, seen, allowed⟩ := kind_is_iff.1 keyword
      exact kind_type_part seen (.inr (.inr allowed))
    | false => exact type_words_part formed.words i (List.mem_filter.2 ⟨word, by rw [keyword]; rfl⟩)
  · rcases formed.pointers i pointer with star | qualifier
    · exact kind_type_part star (.inl rfl)
    · obtain ⟨kind, seen, qualifies⟩ := kind_is_iff.1 qualifier
      exact kind_type_part seen (.inr (.inr (by rw [isTypeKeyword, qualifies]; rfl)))

/-- The type starts with a word. -/
theorem type_starts : ∃ first rest kind, h.type = first :: rest ∧ ts.kind? first = some kind ∧
    kind.isWord = true ∧ kind ≠ .pragma := by
  have word : ∀ i ∈ h.words, ts.kind? i ≠ some .star := by
    intro i member star
    cases keyword : ts.kindIs i isTypeKeyword with
    | true =>
      rw [kind_is_of_kind star] at keyword
      cases keyword
    | false =>
      obtain ⟨kind, seen, word⟩ := type_words_words formed.words i (List.mem_filter.2 ⟨member, by rw [keyword]; rfl⟩)
      rw [star] at seen
      cases seen
      cases word
  have some : h.words ≠ [] := by
    intro none
    have words := formed.words
    rw [none] at words
    cases words
  obtain ⟨first, rest, words⟩ := List.exists_cons_of_ne_nil some
  rcases (formed.type_parts first (by rw [type, words]; exact List.mem_cons_self)).kind with star | ⟨kind, seen, part⟩
  · exact absurd star (word first (by rw [words]; exact List.mem_cons_self))
  · exact ⟨first, rest ++ h.pointers, kind, by rw [type, words]; rfl, seen, part⟩

theorem before_name : ts.significant start h.name = h.specifiers ++ h.type := by
  have split : ts.significant start stop =
      h.specifiers ++ h.type ++ h.name :: (h.opening :: (h.params ++ [h.close])) := by
    rw [formed.tokens, HeaderTokens.tokens, List.append_assoc]
  exact significant_before split

theorem at_opening : ts.significant start stop =
    h.specifiers ++ h.type ++ [h.name] ++ h.opening :: (h.params ++ [h.close]) := by
  rw [formed.tokens, HeaderTokens.tokens]
  simp only [List.append_assoc, List.singleton_append]

theorem before_opening : ts.prevSignificant h.opening start = some h.name := by
  rw [prev_significant_split formed.at_opening, List.getLast?_concat]

theorem behind_opening : ts.significant (h.opening + 1) stop = h.params ++ [h.close] :=
  significant_after formed.at_opening

theorem before_close : ts.significant (h.opening + 1) h.close = h.params :=
  significant_before formed.behind_opening

theorem behind_close : ts.significant (h.close + 1) stop = [] :=
  significant_after formed.behind_opening

theorem closes_params : ts.matchingClose h.opening stop = some h.close := by
  have closes : ts.kind? h.close = some Bracket.paren.closer := formed.closes
  rw [@matching_close_eq ts .paren h.opening formed.opens, formed.behind_opening]
  exact close_in_group formed.balanced closes

theorem list_opens : ts.parameterList? start stop = some h.opening := by
  have past : ∀ i ∈ h.specifiers ++ h.type ++ [h.name], ts.kindIs i scansPast = true := by
    intro i member
    rcases List.mem_append.1 member with before | name
    · rcases List.mem_append.1 before with specifier | part
      · obtain ⟨kind, seen, storage⟩ := kind_is_iff.1 (formed.storage i specifier)
        exact word_passed seen (storage_is_word storage).1
      · rcases (formed.type_parts i part).kind with star | ⟨kind, seen, word, _⟩
        · rw [kind_is_of_kind star]
          rfl
        · exact word_passed seen word
    · cases List.mem_singleton.1 name
      exact word_passed formed.named.identifier rfl
  have stands : ts.Stands start stop h.opening := mem_significant.1 (by simp [formed.at_opening])
  have named : ts.isFunctionName h.name stop = true := by
    obtain ⟨typeof, attributes⟩ := formed.named.takes_no_group
    rw [isFunctionName, isCallShaped, has_kind_of_kind formed.named.identifier, formed.named.identifier,
      formed.named.not_builtin]
    simp only [typeof, attributes]
    rfl
  obtain ⟨aggregate, scans⟩ := @scan_list ts start stop start _ _ _ false formed.at_opening past
  rw [parameterList?, scans, parameter_list_eq, if_pos stands.below, formed.opens, Option.bind_some,
    formed.before_opening, Option.any_some, named]
  rfl

theorem type_begins (type : h.type = first :: rest) : ts.skipStorage start h.name = first := by
  refine skip_storage_list (type ▸ formed.before_name) (fun i member => ?_) (formed.type_parts first ?_)
  · rw [isStorageAt, formed.storage i member]
    rfl
  · rw [type]
    exact List.mem_cons_self

/-- No brace opens in a type. -/
theorem no_brace (type : h.type = first :: rest) :
    Position.firstIn? (ts.hasKind · .openBrace) first h.name = none := by
  rw [Option.eq_none_iff_forall_ne_some]
  intro brace opens
  obtain ⟨above, below, isBrace⟩ := Position.first_in_bounds opens
  have seen := has_kind_iff.1 isBrace
  have listed := mem_significant.2 ⟨above, below, significant_of_kind seen rfl⟩
  rw [significant_from (type ▸ formed.before_name), ← type] at listed
  rcases (formed.type_parts brace listed).kind with star | ⟨kind, word, isWord, _⟩
  · rw [seen] at star
    cases star
  · rw [seen] at word
    cases word
    cases isWord

theorem type_stands (type : h.type = first :: rest) : start ≤ first ∧ first < h.name ∧ h.name < stop := by
  have starts : ts.Stands start h.name first := mem_significant.1 (by rw [formed.before_name, type]; simp)
  have named : ts.Stands start stop h.name := mem_significant.1 (by rw [formed.at_opening]; simp)
  exact ⟨starts.above, starts.below, named.below⟩

theorem params_stand : start ≤ h.opening ∧ h.opening < h.close ∧ h.close < stop := by
  have opens : ts.Stands start stop h.opening := mem_significant.1 (by rw [formed.at_opening]; simp)
  have closes : ts.Stands (h.opening + 1) stop h.close := mem_significant.1 (by rw [formed.behind_opening]; simp)
  exact ⟨opens.above, closes.above, closes.below⟩

end HeaderTokens.WellFormed

section Parts

open TokenSeq

variable {source : String} {start stop : Nat} {h : HeaderTokens}

theorem HeaderTokens.WellFormed.type_trimmed (formed : h.WellFormed (ofSource source) start stop) {first : Nat}
    {rest : List Nat} (type : h.type = first :: rest)
    (fixed : Text.trim ((ofSource source).span h.type) = (ofSource source).span h.type) :
    (ofSource source).trimmedRange first h.name = (ofSource source).span h.type := by
  obtain ⟨lower, typed, upper⟩ := formed.type_stands type
  have whole := significant_from (type ▸ formed.before_name)
  rw [← type] at whole
  exact trimmed_run (formed.bare.within lower (by omega)) whole fixed

/-- The parts of a header, as they are found. -/
theorem HeaderTokens.WellFormed.header_read (formed : h.WellFormed (ofSource source) start stop) {first : Nat}
    {rest : List Nat} (type : h.type = first :: rest)
    (fixed : Text.trim ((ofSource source).span h.params) = (ofSource source).span h.params) :
    (ofSource source).header start stop = .ok ⟨first, "", h.name, (ofSource source).spelling h.name,
      (ofSource source).trimmedRange first h.name, h.opening, h.close, (ofSource source).span h.params⟩ := by
  obtain ⟨lower, typed, upper⟩ := formed.type_stands type
  obtain ⟨lower', ordered, upper'⟩ := formed.params_stand
  refine header_ok_iff.2 ⟨h.opening, h.name, h.close, first, "", (ofSource source).trimmedRange first h.name,
    formed.list_opens, ?_, ?_, formed.closes_params, ?_, ?_⟩
  · rw [formed.before_opening, Option.filter_some, has_kind_of_kind formed.named.identifier]
    rfl
  · rwa [formed.type_begins type]
  · rw [formed.type_begins type, returnTypeParts, formed.no_brace type]
  · rw [trimmed_run (formed.bare.within (by omega) (by omega)) formed.before_close fixed]

end Parts

end AllocGuard
