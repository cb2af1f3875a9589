import AllocGuard.Proofs.BracketPairs
import AllocGuard.Proofs.EditRanges
import AllocGuard.Proofs.HeaderBlindness
import AllocGuard.Proofs.MovedRanges
import AllocGuard.Proofs.RewriteFrame

/-! Storage and function specifiers in new headers. A header is changed from the token on where its
return type starts, and that is the first one that is neither a specifier nor an attribute. The
specifiers in front of it stay in front of the name. One that stands behind it, as in
`const static char *f(void)`, is taken for a part of the type: it goes into the type of the added
parameter, or is lost with a type that said `void`. -/
namespace AllocGuard

namespace TokenSeq

variable {ts ts' : TokenSeq} {i a middle limit b stop : Nat}

/-! ## Tokens outside groups -/

/-- The positions of `[i, stop)` outside groups. A bracket with a partner is passed with its group. -/
def outside (ts : TokenSeq) (i stop : Nat) : List Nat :=
  if i < stop then i :: ts.outside ((ts.matchingClose i stop).getD i + 1) stop else []
termination_by stop - i
decreasing_by
  cases closes : ts.matchingClose i stop with
  | none =>
    rw [Option.getD_none]
    omega
  | some close =>
    have bounds := matching_close_bounds closes
    rw [Option.getD_some]
    omega

/-- The specifiers among the tokens of `[start, stop)` outside groups. -/
def specifiers (ts : TokenSeq) (start stop : Nat) : List String :=
  ((ts.outside start stop).filter ts.isStorageAt).map ts.spelling

/-- A walk over tokens that passes groups gets from one position to another. -/
inductive Walks (ts : TokenSeq) : Nat → Nat → Prop
  | here {i : Nat} : Walks ts i i
  | token {i stop : Nat} (other : ts.kindIs i TokenKind.isOpener = false)
      (later : Walks ts (i + 1) stop) : Walks ts i stop
  | group {i close stop : Nat} (closes : ts.matchingClose i (close + 1) = some close)
      (later : Walks ts (close + 1) stop) : Walks ts i stop

theorem Walks.le (walks : ts.Walks i stop) : i ≤ stop := by
  induction walks with
  | here => exact Nat.le_refl _
  | token other later ih => omega
  | group closes later ih =>
    have bounds := matching_close_bounds closes
    omega

theorem matching_close_other (other : ts.kindIs i TokenKind.isOpener = false) (limit : Nat) :
    ts.matchingClose i limit = none := by
  unfold matchingClose
  unfold kindIs at other
  cases seen : ts.kind? i with
  | none => rfl
  | some kind =>
    rw [seen] at other
    have pair : Bracket.ofOpener? kind = none := Option.not_isSome_iff_eq_none.1 (Bool.eq_false_iff.1 other)
    rw [Option.bind_some, pair]
    rfl

/-- What is outside groups can be cut where a walk gets to. -/
theorem Walks.outside (walks : ts.Walks i middle) (below : middle ≤ stop) :
    ts.outside i stop = ts.outside i middle ++ ts.outside middle stop := by
  induction walks with
  | @here i =>
    rw [TokenSeq.outside.eq_1 ts i i, if_neg (Nat.lt_irrefl i), List.nil_append]
  | @token i middle other later ih =>
    have ordered := later.le
    rw [TokenSeq.outside.eq_1 ts i stop, TokenSeq.outside.eq_1 ts i middle, if_pos (by omega), if_pos (by omega),
      matching_close_other other, matching_close_other other, Option.getD_none, ih below, List.cons_append]
  | @group i close middle closes later ih =>
    have ordered := later.le
    have bounds := matching_close_bounds closes
    have whole : ts.matchingClose i stop = some close := matching_close_further closes (by omega)
    have front : ts.matchingClose i middle = some close := matching_close_further closes (by omega)
    rw [TokenSeq.outside.eq_1 ts i stop, TokenSeq.outside.eq_1 ts i middle, if_pos (by omega),
      if_pos (by omega), whole, front, Option.getD_some, ih below, List.cons_append]

theorem Walks.specifiers (walks : ts.Walks i middle) (below : middle ≤ stop) :
    ts.specifiers i stop = ts.specifiers i middle ++ ts.specifiers middle stop := by
  unfold TokenSeq.specifiers
  rw [walks.outside below, List.filter_append, List.map_append]

theorem opener_significant {kind : TokenKind} (opener : kind.isOpener = true) : kind.isTrivia = false := by
  cases kind <;> first | rfl | cases opener

theorem walks_blank {count : Nat} (blank : ∀ q, i ≤ q → q < i + count → ts.isSignificant q = false)
    (later : ts.Walks (i + count) stop) : ts.Walks i stop := by
  induction count generalizing i with
  | zero => exact later
  | succ count ih =>
    have first := blank i (Nat.le_refl i) (by omega)
    refine .token (kind_is_blank first fun kind => opener_significant) (ih ?_ ?_)
    · exact fun q above below => blank q (by omega) (by omega)
    · rwa [Nat.add_assoc, Nat.add_comm 1]

/-- White space and comments are passed. -/
theorem walks_trivia {next : Nat} (found : ts.nextSignificant i limit = some next) (later : ts.Walks next stop) :
    ts.Walks i stop := by
  obtain ⟨lower, _, _, between⟩ := next_significant_iff.1 found
  obtain ⟨count, rfl⟩ := Nat.exists_eq_add_of_le lower
  exact walks_blank between later

theorem identifier_no_opener (word : ts.hasKind i .identifier = true) : ts.kindIs i TokenKind.isOpener = false := by
  rw [kind_is_of_kind (has_kind_iff.1 word)]
  rfl

theorem storage_no_opener (storage : ts.isStorageAt i = true) : ts.kindIs i TokenKind.isOpener = false := by
  rcases (Bool.or_eq_true _ _).mp storage with keyword | word
  · obtain ⟨kind, seen, storage⟩ := kind_is_iff.1 keyword
    rw [kind_is_of_kind seen]
    cases kind <;> first | rfl | cases storage
  · exact identifier_no_opener (Bool.and_eq_true_iff.1 word).1

/-- Specifiers and attributes are passed. -/
theorem walks_storage (ordered : i ≤ limit) : ts.Walks i (ts.skipStorage i limit) := by
  fun_induction skipStorage ts i limit with
  | case1 i none =>
    rw [Nat.min_eq_left ordered]
    exact .here
  | case2 i k next storage ih =>
    have found := next_significant_bounds next
    exact walks_trivia next (.token (storage_no_opener storage) (ih found.2.1))
  | case3 i k next other attributed unclosed => exact walks_trivia next .here
  | case4 i k next other attributed close closes ih =>
    obtain ⟨opening, opens, closing⟩ := Option.bind_eq_some_iff.1 closes
    have closed := matching_close_bounds closing
    have word : ts.hasKind k .identifier = true := (Bool.and_eq_true_iff.1 (Bool.and_eq_true_iff.1 attributed).1).1
    have group : ts.matchingClose opening (close + 1) = some close :=
      matching_close_further closing (Nat.lt_succ_self close)
    have behind := walks_trivia opens (.group group (ih closed.2.1))
    exact walks_trivia next (.token (identifier_no_opener word) behind)
  | case5 i k next other plain => exact walks_trivia next .here

/-! ## Sequences with the same front -/

/-- Two sequences have the same tokens in front of a position. -/
structure SameFront (ts ts' : TokenSeq) (stop : Nat) : Prop where
  inside : stop ≤ ts.size
  inside' : stop ≤ ts'.size
  same : ∀ i < stop, ts'.get? i = ts.get? i

namespace SameFront

variable {ts ts' : TokenSeq} {stop : Nat} (front : SameFront ts ts' stop)

include front

theorem kind (below : i < stop) : ts'.kind? i = ts.kind? i := by
  rw [kind?, kind?, front.same i below]

theorem has_kind (below : i < stop) (kind : TokenKind) : ts'.hasKind i kind = ts.hasKind i kind := by
  rw [hasKind, hasKind, front.kind below]

theorem storage (below : i < stop) : ts'.isStorageAt i = ts.isStorageAt i := by
  rw [isStorageAt, isStorageAt, kindIs, kindIs, front.kind below, front.has_kind below, spelling, spelling,
    front.same i below]

theorem close_from {b : Bracket} {depth count : Nat} (below : i + count ≤ stop) :
    ts'.closeFrom b depth i count = ts.closeFrom b depth i count := by
  induction count generalizing depth i with
  | zero => rfl
  | succ count ih =>
    have here : i < stop := by omega
    rw [closeFrom, closeFrom, front.has_kind here, front.has_kind here, ih (by omega), ih (by omega), ih (by omega)]

theorem matching_close (below : limit ≤ stop) : ts'.matchingClose i limit = ts.matchingClose i limit := by
  have size := front.inside
  have size' := front.inside'
  have limited : min limit ts.size = limit := by omega
  have limited' : min limit ts'.size = limit := by omega
  by_cases here : i < stop
  · unfold matchingClose
    rw [front.kind here, limited, limited']
    refine congrArg _ (funext fun b => ?_)
    by_cases some : i + 1 ≤ limit
    · exact front.close_from (by omega)
    · rw [Nat.sub_eq_zero_of_le (by omega)]
      rfl
  · have none {ts : TokenSeq} : ts.matchingClose i limit = none := by
      cases closes : ts.matchingClose i limit with
      | none => rfl
      | some close =>
        have bounds := matching_close_bounds closes
        omega
    rw [none, none]

theorem text_range (below : i ≤ stop) : ts'.textRange 0 i = ts.textRange 0 i := by
  have tokens : ts'.tokens.toList.take i = ts.tokens.toList.take i := by
    refine List.ext_getElem? fun k => ?_
    rw [List.getElem?_take, List.getElem?_take]
    split
    · rename_i inside
      rw [Array.getElem?_toList, Array.getElem?_toList]
      exact front.same k (Nat.lt_of_lt_of_le inside below)
    · rfl
  rw [text_range_eq, text_range_eq, List.drop_zero, List.drop_zero, Nat.sub_zero, tokens]

theorem walks (walks : ts.Walks i middle) (below : middle ≤ stop) : ts'.Walks i middle := by
  induction walks with
  | here => exact .here
  | @token i middle other later ih =>
    have ordered := later.le
    refine .token ?_ (ih below)
    rwa [kindIs, front.kind (by omega)]
  | @group i close middle closes later ih =>
    have ordered := later.le
    refine .group ?_ (ih below)
    rwa [front.matching_close (by omega)]

theorem outside (i : Nat) : ts'.outside i stop = ts.outside i stop := by
  fun_induction TokenSeq.outside ts i stop with
  | case1 i here ih => rw [TokenSeq.outside.eq_1, if_pos here, front.matching_close (Nat.le_refl stop), ih]
  | case2 i past => rw [TokenSeq.outside.eq_1, if_neg past]

end SameFront

theorem outside_below : ∀ q ∈ ts.outside i stop, q < stop := by
  fun_induction TokenSeq.outside ts i stop with
  | case1 i here ih => exact List.forall_mem_cons.2 ⟨here, ih⟩
  | case2 i past => exact List.forall_mem_nil _

theorem SameFront.specifiers (front : SameFront ts ts' stop) (i : Nat) :
    ts'.specifiers i stop = ts.specifiers i stop := by
  unfold TokenSeq.specifiers
  rw [front.outside, List.filter_congr fun q member => front.storage (outside_below q member)]
  refine List.map_congr_left fun q member => ?_
  rw [spelling, spelling, front.same q (outside_below q (List.mem_filter.1 member).1)]

theorem storage_core (stands : ts.Stands a b i) : (ts.core a b).isStorageAt (ts.rank a i) = ts.isStorageAt i := by
  rw [isStorageAt, isStorageAt, core_kind_is stands, core_has_kind stands, core_spelling stands]

theorem storage_significant (blank : ts.isSignificant i = false) : ts.isStorageAt i = false := by
  rw [Bool.eq_false_iff]
  intro storage
  have carries : ts.isSignificant i = true := by
    rcases (Bool.or_eq_true _ _).mp storage with keyword | word
    · obtain ⟨kind, seen, storage⟩ := kind_is_iff.1 keyword
      refine significant_of_kind seen ?_
      cases kind <;> first | rfl | cases storage
    · exact significant_of_kind (has_kind_iff.1 ((Bool.and_eq_true _ _).mp word).1) rfl
  rw [blank] at carries
  cases carries

/-- The specifiers of a range are those of its core. -/
theorem specifiers_core (above : a ≤ i) :
    (ts.core a b).specifiers (ts.rank a i) (ts.rank a b) = ts.specifiers i b := by
  unfold TokenSeq.specifiers
  fun_induction TokenSeq.outside ts i b with
  | case1 i here ih =>
    by_cases carries : ts.isSignificant i = true
    · have stands : ts.Stands a b i := ⟨above, here, carries⟩
      have later : (ts.core a b).outside (ts.rank a i) (ts.rank a b) = ts.rank a i ::
          (ts.core a b).outside (ts.rank a ((ts.matchingClose i b).getD i + 1)) (ts.rank a b) := by
        rw [TokenSeq.outside.eq_1, if_pos (rank_lt above carries here), ← matching_close_core stands (Nat.le_refl b)]
        cases closes : ts.matchingClose i b with
        | none => rw [Option.map_none, Option.getD_none, Option.getD_none, rank_meaning above carries]
        | some close =>
          have bounds := matching_close_bounds closes
          rw [Option.map_some, Option.getD_some, Option.getD_some,
            rank_meaning (by omega) (matching_close_significant closes)]
      have onward := ih (by
        cases closes : ts.matchingClose i b with
        | none => exact Nat.le_succ_of_le above
        | some close =>
          have bounds := matching_close_bounds closes
          rw [Option.getD_some]
          omega)
      rw [later, List.filter_cons, List.filter_cons, storage_core stands]
      split
      · rw [List.map_cons, List.map_cons, core_spelling stands, onward]
      · exact onward
    · have blank := Bool.eq_false_iff.2 carries
      have none : ts.matchingClose i b = none := by
        refine matching_close_other ?_ b
        rw [Bool.eq_false_iff]
        intro opens
        obtain ⟨kind, seen, opener⟩ := kind_is_iff.1 opens
        exact carries (significant_of_kind seen (opener_significant opener))
      rw [none, Option.getD_none] at ih ⊢
      rw [List.filter_cons_of_neg (by rw [storage_significant blank]; decide), ← rank_blank above blank]
      exact ih (Nat.le_succ_of_le above)
  | case2 i past =>
    have none : ¬ ts.rank a i < ts.rank a b := Nat.not_lt.2 (ts.rank_mono a (Nat.not_lt.1 past))
    rw [TokenSeq.outside.eq_1, if_neg none]
    rfl

/-- Ranges with the same meaning have the same specifiers. -/
theorem specifiers_of_meaning {a' b' : Nat} (same : ts.meaningIn a b = ts'.meaningIn a' b') :
    ts.specifiers a b = ts'.specifiers a' b' := by
  have origin (ts : TokenSeq) (a : Nat) : ts.rank a a = 0 := by
    rw [TokenSeq.rank, Nat.sub_self, weight_zero]
  rw [← specifiers_core (Nat.le_refl a), ← specifiers_core (Nat.le_refl a'), origin, origin, ← core_size,
    ← core_size, core_of_meaning_in same]

end TokenSeq

/-! ## Words in new text -/

namespace TokenSeq

open Glyph

theorem int_plain : ∀ c ∈ "int ".toList, c ≠ '?' ∧ c ≠ '\\' := by
  show ∀ c ∈ ['i', 'n', 't', ' '], c ≠ '?' ∧ c ≠ '\\'
  simp

/-- The start of a new header: its type, its name and the parenthesis. -/
theorem scan_opening {first : Char} {tail : List Char} (name : Lexeme.IsIdentifier first tail)
    (lineStart : Bool) (start : Nat) (left rest : List Char) :
    ∃ tokens, scanGlyphs lineStart start left (glyphs ("int ".toList ++ ((first :: tail) ++ '(' :: rest))).1 =
      ⟨.identifier, start, ['i', 'n', 't']⟩ :: ⟨.space, start + 3, [' ']⟩ ::
        ⟨.identifier, start + 4, first :: tail⟩ ::
          ⟨.openParen, start + 4 + Text.byteLength (first :: tail), ['(']⟩ :: tokens := by
  have type : Lexeme.IsIdentifier 'i' ['n', 't'] := ⟨rfl, List.all_eq_true.1 rfl, by decide⟩
  have read : (glyphs ("int ".toList ++ ((first :: tail) ++ '(' :: rest))).1 =
      singles ['i', 'n', 't'] ++ ⟨' ', [' ']⟩ ::
        (singles (first :: tail) ++ ⟨'(', ['(']⟩ :: (glyphs rest).1) := by
    have paren := @glyphs_behind '(' (by decide) (by decide) [] rest
    rw [glyphs_singles int_plain, glyphs_singles (identifier_plain name), glyphs, paren]
    rfl
  have blank : firstLength false ⟨' ', [' ']⟩
      (singles (first :: tail) ++ ⟨'(', ['(']⟩ :: (glyphs rest).1) = 0 := by
    show Lexeme.runLength Lexeme.isSpace (first :: _) = 0
    rw [Lexeme.runLength, List.takeWhile_cons_of_neg (by rw [Lexeme.start_no_space name.starts]; decide)]
    rfl
  have space : firstToken false (start + 3) ⟨' ', [' ']⟩
      (singles (first :: tail) ++ ⟨'(', ['(']⟩ :: (glyphs rest).1) = ⟨.space, start + 3, [' ']⟩ := by
    rw [firstToken, blank]
    rfl
  have size : Text.byteLength ['i', 'n', 't'] = 3 := rfl
  rw [read, scan_identifier type rfl rfl, size, scan_glyphs_cons, space, blank, List.drop_zero]
  have next : behind false ⟨.space, start + 3, [' ']⟩ = false := rfl
  have stop : Token.stop ⟨.space, start + 3, [' ']⟩ = start + 4 := rfl
  rw [next, stop, scan_identifier name rfl rfl, scan_glyphs_cons]
  exact ⟨_, rfl⟩

/-! ## Specifiers in copied text -/

/-- A specifier is spelled as one, keyword or not, and its text leaves no joined line end over. -/
theorem storage_spelled {source : String} {i : Nat} (storage : (ofSource source).isStorageAt i = true) :
    ∃ t, (ofSource source).get? i = some t ∧ (glyphs t.raw).2 = [] ∧ logicalChars t.raw ≠ [] ∧
      Word.isStorage (String.ofList (logicalChars t.raw)) = true := by
  rcases (Bool.or_eq_true _ _).mp storage with keyword | word
  · obtain ⟨kind, seen, storage⟩ := kind_is_iff.1 keyword
    obtain ⟨t, there, rfl⟩ := Option.map_eq_some_iff.1 seen
    obtain ⟨whole, lineStart, first, rest, read, spelled⟩ := token_read there (by
      intro space
      rw [space] at storage
      cases storage)
    rw [← read] at storage
    refine ⟨t, there, whole, by rw [spelled]; exact List.cons_ne_nil _ _, ?_⟩
    rw [spelled]
    exact keyword_storage (Lexeme.read_storage storage) storage
  · obtain ⟨identifier, named⟩ := (Bool.and_eq_true _ _).mp word
    obtain ⟨t, there, kind⟩ := Option.map_eq_some_iff.1 (has_kind_iff.1 identifier)
    obtain ⟨whole, lineStart, first, rest, read, spelled⟩ := token_read there (by rw [kind]; decide)
    rw [spelling_of_get there] at named
    exact ⟨t, there, whole, by rw [spelled]; exact List.cons_ne_nil _ _, named⟩

theorem trigraph_no_blank {c meant : Char} (known : trigraph c = some meant) : Text.isBlank c = false := by
  unfold trigraph at known
  split at known
  all_goals first
    | decide
    | cases known

theorem glyph_last {text : List Char} : ∀ g ∈ (glyphs text).1,
    ∃ last, g.raw.getLast? = some last ∧ (last = g.char ∨ trigraph last = some g.char) := by
  intro g member
  obtain ⟨first, inside, same, front, split⟩ := join_lines_from g member
  obtain ⟨last, ends, own⟩ := replace_trigraphs_last text first inside
  rw [← split, ← same]
  exact ⟨last, Lexeme.last_append ends, own⟩

/-- Text that is spelled by the characters of a word has no blank at its ends. -/
theorem word_text_ends {raw : List Char} (whole : (glyphs raw).2 = []) (some : logicalChars raw ≠ [])
    (word : ∀ c ∈ logicalChars raw, Word.isChar c = true) :
    (∀ c ∈ raw.head?, Text.isBlank c = false) ∧ ∀ c ∈ raw.getLast?, Text.isBlank c = false := by
  have read : (glyphs raw).1.flatMap Glyph.raw = raw := by
    have kept := glyphs_raw raw
    rwa [whole, List.append_nil] at kept
  constructor
  · intro c head
    obtain ⟨rest, rfl⟩ := List.head?_eq_some_iff.1 head
    rw [Bool.eq_false_iff]
    intro blank
    have first := @glyphs_behind c (fun same => absurd blank (by rw [same]; decide))
      (fun same => absurd blank (by rw [same]; decide)) [] rest
    have member : c ∈ logicalChars (c :: rest) := by
      rw [logicalChars, glyphs, first]
      exact List.mem_cons_self
    rw [Word.char_not_blank (word c member)] at blank
    cases blank
  · intro c ends
    have segment : (glyphs raw).1 ≠ [] := fun none => some (congrArg (List.map char) none)
    have member := List.getLast_mem segment
    obtain ⟨last, here, own⟩ := glyph_last _ member
    have same : raw.getLast? = Option.some last := by
      rw [← read, ← List.dropLast_append_getLast segment, List.flatMap_append, List.flatMap_singleton]
      exact Lexeme.last_append here
    rw [ends] at same
    obtain rfl := Option.some.inj same
    rcases own with rfl | known
    · exact Word.char_not_blank (word _ (List.mem_map_of_mem member))
    · exact trigraph_no_blank known

end TokenSeq

namespace Text

variable {part text : List Char}

theorem drop_blank_append (first : ∀ c ∈ part.head?, isBlank c = false) (front : List Char) :
    (front ++ part).dropWhile isBlank = front.dropWhile isBlank ++ part := by
  rw [List.dropWhile_append]
  split
  · rename_i blank
    rw [List.isEmpty_iff.1 blank, List.nil_append]
    cases part with
    | nil => rfl
    | cons c part => exact List.dropWhile_cons_of_neg (by rw [first c rfl]; decide)
  · rfl

/-- Trimming the end of a text keeps a part that has no blank at its end. -/
theorem trim_end_inside (last : ∀ c ∈ part.getLast?, isBlank c = false) (inside : part <:+: text) :
    part <:+: text.rdropWhile isBlank := by
  obtain ⟨front, back, rfl⟩ := inside
  rcases eq_or_ne part [] with rfl | some
  · exact List.nil_infix
  have tail : ∀ c ∈ (front ++ part).reverse.head?, isBlank c = false := by
    rwa [List.head?_reverse, List.getLast?_append_of_ne_nil _ some]
  rw [List.rdropWhile, List.reverse_append, drop_blank_append tail, List.reverse_append, List.reverse_reverse]
  exact ⟨_, _, rfl⟩

/-- Trimming keeps a part of a text that has no blank at its ends. -/
theorem trim_inside (first : ∀ c ∈ part.head?, isBlank c = false) (last : ∀ c ∈ part.getLast?, isBlank c = false)
    (inside : part <:+: text) : part <:+: trimChars text := by
  obtain ⟨front, back, rfl⟩ := inside
  rcases eq_or_ne part [] with rfl | some
  · exact List.nil_infix
  have lead : ∀ c ∈ (part ++ back).head?, isBlank c = false := by
    rwa [List.head?_append_of_ne_nil _ some]
  rw [List.append_assoc, trim_eq, drop_blank_append lead]
  exact trim_end_inside last ⟨_, _, List.append_assoc _ _ _⟩

end Text

namespace TokenSeq

variable {ts ts' : TokenSeq} {source front : String} {i start typeStart stop count name : Nat}

/-! ## New headers -/

open Glyph

theorem has_kind_of_get {t : Token} {kind : TokenKind} (there : ts.get? i = some t) (same : t.kind = kind) :
    ts.hasKind i kind = true := by
  rw [has_kind_iff, kind?, there, ← same]
  rfl

/-- An identifier stands for itself. -/
theorem is_ident_of_get {first : Char} {tail : List Char} (name : Lexeme.IsIdentifier first tail)
    (there : ts.get? i = some ⟨.identifier, start, first :: tail⟩) :
    ts.isIdent i (String.ofList (first :: tail)) = true := by
  have plain := glyphs_singles (identifier_plain name) []
  have spelled : logicalChars (first :: tail) = first :: tail := by
    rw [List.append_nil] at plain
    rw [logicalChars, plain]
    exact (congrArg _ (List.append_nil _)).trans (singles_char (first :: tail))
  rw [isIdent, has_kind_of_get there rfl, spelling_of_get there, spelled, Bool.true_and, beq_self_eq_true]

theorem same_front {back : List Token} (inside : count ≤ ts.size)
    (tokens : ts'.tokens.toList = ts.tokens.toList.take count ++ back) : SameFront ts ts' count := by
  have size : (ts.tokens.toList.take count).length = count := List.length_take_of_le inside
  refine ⟨inside, ?_, fun i below => ?_⟩
  · rw [TokenSeq.size, ← Array.length_toList, tokens, List.length_append, size]
    exact Nat.le_add_right _ _
  · rw [get?, ← Array.getElem?_toList, tokens, List.getElem?_append_left (by omega),
      List.getElem?_take_of_lt below, Array.getElem?_toList]
    rfl

/-- A new header behind closed text leaves the tokens in front of it as they are, and starts with its
type, its name and a parenthesis. -/
theorem opening_tokens {source : String} {typeStart : Nat} (inside : typeStart < (ofSource source).size)
    (closed : isClosed ((ofSource source).tokens.toList.take typeStart) = true) {first : Char}
    {tail : List Char} (name : Lexeme.IsIdentifier first tail) {more : List Char} {back : String}
    (written : back.toList = "int ".toList ++ ((first :: tail) ++ '(' :: more)) {patched : TokenSeq}
    (edited : patched = ofSource ((ofSource source).textRange 0 typeStart ++ back)) :
    SameFront (ofSource source) patched typeStart ∧ patched.isIdent typeStart "int" = true ∧
      patched.hasKind (typeStart + 1) .space = true ∧
      patched.isIdent (typeStart + 2) (String.ofList (first :: tail)) = true ∧
      patched.hasKind (typeStart + 3) .openParen = true := by
  obtain ⟨whole, front⟩ := tokens_cut inside
  have closedText : IsClosed ((ofSource source).textRange 0 typeStart) := ⟨whole, front ▸ closed⟩
  have type : Lexeme.IsIdentifier 'i' ['n', 't'] := ⟨rfl, List.all_eq_true.1 rfl, by decide⟩
  obtain ⟨later, opening⟩ := scan_opening name (endsAtLineStart ((ofSource source).textRange 0 typeStart))
    (Text.byteLength ((ofSource source).textRange 0 typeStart).toList) (glyphs back.toList).2 more
  rw [← written] at opening
  have tokens := @IsClosed.tokens_append _ back closedText (.inr ?_) ?_
  · rw [← edited, front, opening] at tokens
    have size : ((ofSource source).tokens.toList.take typeStart).length = typeStart :=
      List.length_take_of_le (Nat.le_of_lt inside)
    have token := get_append tokens
    rw [size] at token
    have int : "int" = String.ofList ['i', 'n', 't'] := rfl
    rw [int]
    refine ⟨same_front (Nat.le_of_lt inside) tokens, ?_, ?_, ?_, ?_⟩
    · exact is_ident_of_get type (token 0)
    · exact has_kind_of_get (token 1) rfl
    · exact is_ident_of_get name (token 2)
    · exact has_kind_of_get (token 3) rfl
  · rw [written]
    rintro _ ⟨⟩
    exact ⟨by decide, .inl rfl⟩
  · rw [written, logicalChars, glyphs_singles int_plain]
    rintro _ ⟨⟩
    rfl

theorem opening_specifiers (type : ts.isIdent i "int" = true) (space : ts.hasKind (i + 1) .space = true) :
    ts.specifiers i (i + 2) = [] := by
  obtain ⟨word, spelled⟩ := (Bool.and_eq_true _ _).mp type
  have blank : ts.kindIs (i + 1) TokenKind.isOpener = false := kind_is_of_kind (has_kind_iff.1 space) _
  have first : ts.isStorageAt i = false := by
    rw [isStorageAt, kind_is_of_kind (has_kind_iff.1 word), beq_iff_eq.1 spelled, word]
    decide +kernel
  have second : ts.isStorageAt (i + 1) = false := by
    rw [isStorageAt, kind_is_of_kind (has_kind_iff.1 space), has_kind_of_kind (has_kind_iff.1 space)]
    rfl
  unfold specifiers
  rw [outside, if_pos (by omega), matching_close_other (identifier_no_opener word), Option.getD_none,
    outside, if_pos (by omega), matching_close_other blank, Option.getD_none, outside, if_neg (by omega),
    List.filter_cons_of_neg (by rw [first]; decide), List.filter_cons_of_neg (by rw [second]; decide)]
  rfl

/-- What the return type of a header is, and what a new header starts with. -/
theorem return_type_cases {newStart : Nat} {lead type : String}
    (parts : ts.returnTypeParts start typeStart name = .ok (newStart, lead, type)) :
    Position.firstIn? (ts.hasKind · .openBrace) typeStart name = none ∧ newStart = typeStart ∧ lead = "" ∧
        type = ts.trimmedRange typeStart name ∨
      ∃ brace close, Position.firstIn? (ts.hasKind · .openBrace) typeStart name = some brace ∧
        ts.matchingClose brace name = some close ∧ newStart = start ∧
        lead = (if (ts.trimmedRange start typeStart).isEmpty then ts.textRange typeStart (close + 1) ++ "; "
          else ts.textRange typeStart (close + 1) ++ "; " ++ ts.trimmedRange start typeStart ++ " ") ∧
        type = Text.trimEnd (ts.trimmedRange typeStart brace ++ " " ++ ts.trimmedRange (close + 1) name) := by
  unfold returnTypeParts at parts
  split at parts
  · rename_i none
    cases parts
    exact .inl ⟨none, rfl, rfl, rfl⟩
  · rename_i brace opens
    split at parts
    · cases parts
    · rename_i close closes
      split at parts
      · simp only [Except.ok.injEq, Prod.mk.injEq] at parts
        obtain ⟨start', lead', type'⟩ := parts
        exact .inr ⟨brace, close, opens, closes, start'.symm, lead'.symm, type'.symm⟩
      · cases parts

theorem text_inside (ts : TokenSeq) (lower : start ≤ i) (upper : i < stop) :
    (ts.text i).toList <:+: (ts.textRange start stop).toList := by
  rw [← ts.text_range_append lower (Nat.le_of_lt upper), ← ts.text_range_append (Nat.le_succ i) upper,
    text_range_single, String.toList_append, String.toList_append, ← List.append_assoc]
  exact ⟨_, _, rfl⟩

theorem storage_text (storage : (ofSource source).isStorageAt i = true) :
    ((ofSource source).text i).toList ≠ [] ∧
      (∀ c ∈ ((ofSource source).text i).toList.head?, Text.isBlank c = false) ∧
      ∀ c ∈ ((ofSource source).text i).toList.getLast?, Text.isBlank c = false := by
  obtain ⟨t, there, whole, some, named⟩ := storage_spelled storage
  have chars := Word.storage_plain named
  rw [String.toList_ofList] at chars
  rw [text_of_get there]
  refine ⟨fun none => some ?_, word_text_ends whole some chars⟩
  rw [none]
  rfl

/-- A specifier is part of every trimmed text around it. -/
theorem storage_inside (storage : (ofSource source).isStorageAt i = true) (lower : start ≤ i) (upper : i < stop) :
    ((ofSource source).text i).toList <:+: ((ofSource source).trimmedRange start stop).toList := by
  obtain ⟨_, first, last⟩ := storage_text storage
  rw [trimmedRange, Text.trim, String.toList_ofList]
  exact Text.trim_inside first last (text_inside _ lower upper)

/-- The edits stand in front of a function, and the text that they leave there is closed. -/
structure LeadUpTo (ts : TokenSeq) (earlier : List Edit) (start : Nat) : Prop where
  before : ∀ e ∈ earlier, e.stop ≤ start
  closed : IsClosed (ts.spliceUpTo start 0 earlier)
  mark : (ts.spliceUpTo start 0 earlier).toList.getLast? ≠ some '?'
  /-- The function starts with a word. -/
  starts : ts.kindIs start TokenKind.isWord = true

/-- Where the specifiers of a header go when an edit replaces it from its return type on. -/
structure SpecifiersMoved (ts : TokenSeq) (f : Function) (h : Header) (e : Edit) (typeStart : Nat) :
    Prop where
  /-- They stand in front of the type, or behind its first token. -/
  split : ts.specifiers f.start h.nameToken =
    ts.specifiers f.start typeStart ++ ts.specifiers typeStart h.nameToken
  /-- Those in front of the type stand in front of the new header. -/
  front : ∀ i, f.start ≤ i → i < typeStart → ts.isStorageAt i = true →
    (ts.text i).toList <:+: (ts.textRange f.start e.start ++ h.lead).toList
  /-- The others are part of the type, unless they stand in an aggregate that it defines. -/
  type : ∀ i, typeStart ≤ i → i < h.nameToken → ts.isStorageAt i = true →
    (∀ brace close, Position.firstIn? (ts.hasKind · .openBrace) typeStart h.nameToken = some brace →
      ts.matchingClose brace h.nameToken = some close → i < brace ∨ close < i) →
        (ts.text i).toList <:+: h.returnType.toList
  /-- Where the text in front of the edit is closed, be it the first one taken or one behind others, a header
  that defines no aggregate has the first ones in front of its name, and all of them exactly if there are no
  others. -/
  kept : ∀ edits earlier later, Edit.select ts.size 0 (Edit.sorted edits) = earlier ++ e :: later →
    earlier = [] ∨ ts.LeadUpTo earlier f.start → h.lead = "" →
    isClosed (ts.tokens.toList.take typeStart) = true →
    let patched := ofSource (ts.edit edits).text
    let start := (ofSource (ts.spliceUpTo f.start 0 earlier)).size
    let name := start + (typeStart - f.start) + 2
    patched.isIdent name h.name = true ∧ patched.hasKind (name + 1) .openParen = true ∧
      patched.specifiers start name = ts.specifiers f.start typeStart ∧
      (patched.specifiers start name = ts.specifiers f.start h.nameToken ↔
        ts.specifiers typeStart h.nameToken = [])

section Moved

variable {source : String} {f : Function} {name newStart : Nat} {lead type : String}
  (parts : (ofSource source).returnTypeParts f.start ((ofSource source).skipStorage f.start name) name =
    .ok (newStart, lead, type))

include parts

theorem front_kept {i : Nat} (lower : f.start ≤ i) (upper : i < (ofSource source).skipStorage f.start name)
    (storage : (ofSource source).isStorageAt i = true) :
    ((ofSource source).text i).toList <:+: ((ofSource source).textRange f.start newStart ++ lead).toList := by
  rcases return_type_cases parts with ⟨_, rfl, rfl, _⟩ | ⟨brace, close, _, _, rfl, written, _⟩
  · rw [String.append_empty]
    exact text_inside _ lower upper
  · have inside := storage_inside storage lower upper
    have some : ¬ ((ofSource source).trimmedRange f.start
        ((ofSource source).skipStorage f.start name)).isEmpty = true := by
      intro none
      rw [String.isEmpty_iff.1 none] at inside
      exact (storage_text storage).1 (List.infix_nil.1 inside)
    rw [written, if_neg some, ← String.append_assoc, ← String.append_assoc, String.toList_append,
      String.toList_append]
    exact inside.trans (List.infix_append _ _ _)

theorem type_takes {i : Nat} (lower : (ofSource source).skipStorage f.start name ≤ i) (upper : i < name)
    (storage : (ofSource source).isStorageAt i = true)
    (apart : ∀ brace close, Position.firstIn? ((ofSource source).hasKind · .openBrace)
        ((ofSource source).skipStorage f.start name) name = some brace →
      (ofSource source).matchingClose brace name = some close → i < brace ∨ close < i) :
    ((ofSource source).text i).toList <:+: type.toList := by
  rcases return_type_cases parts with ⟨_, _, _, rfl⟩ | ⟨brace, close, opens, closes, _, _, rfl⟩
  · exact storage_inside storage lower upper
  · have last := (storage_text storage).2.2
    rw [Text.trimEnd, String.toList_ofList]
    refine Text.trim_end_inside last ?_
    rw [String.toList_append, String.toList_append]
    rcases apart brace close opens closes with before | behind
    · rw [List.append_assoc]
      exact (storage_inside storage lower before).trans (List.prefix_append _ _).isInfix
    · exact (storage_inside storage behind upper).trans (List.suffix_append _ _).isInfix

/-- A header without a lead starts at its return type. -/
theorem start_of_plain (plain : lead = "") : newStart = (ofSource source).skipStorage f.start name := by
  rcases return_type_cases parts with ⟨_, same, _, _⟩ | ⟨brace, close, _, _, _, written, _⟩
  · exact same
  · rw [plain] at written
    split at written <;> simp [String.append_eq_empty_iff] at written

end Moved

theorem word_significant {kind : TokenKind} (word : kind.isWord = true) : kind.isTrivia = false := by
  cases kind <;> first | rfl | cases word

/-- Glyphs that start with a word have the same tokens on every place of a line. -/
theorem faces_word_line {lineStart : Bool} {left : List Char} {gs : List Glyph}
    (word : ∀ face ∈ (facesOf lineStart left gs).head?, face.1.isWord = true) (line : Bool) :
    facesOf line left gs = facesOf lineStart left gs := by
  cases gs with
  | nil => rw [facesOf, facesOf, scan_glyphs_end, scan_glyphs_end]
  | cons g rest =>
    have isWord : (firstToken lineStart 0 g rest).kind.isWord = true :=
      word (firstToken lineStart 0 g rest).face (by rw [faces_cons]; rfl)
    have starts := (Lexeme.read_plain_word isWord).1
    have same : Lexeme.read line g.char (rest.map char) = Lexeme.read lineStart g.char (rest.map char) := by
      rw [Lexeme.read_word starts, Lexeme.read_word starts]
    have length : firstLength line g rest = firstLength lineStart g rest := congrArg Prod.snd same
    have token : firstToken line 0 g rest = firstToken lineStart 0 g rest := by
      rw [firstToken, firstToken, length, same]
    have carries := word_significant isWord
    rw [faces_cons, faces_cons, length, token, behind, behind, no_line_behind carries, no_line_behind carries]

/-- The text from a word on has the same tokens behind other text that is closed. -/
theorem faces_behind (closed : IsClosed front) (mark : front.toList.getLast? ≠ some '?')
    (starts : (ofSource source).kindIs i TokenKind.isWord = true) :
    (ofSource (front ++ (ofSource source).textRange i (ofSource source).size)).faces =
      (ofSource front).faces ++ (ofSource source).faces.drop i := by
  obtain ⟨kind, seen, isWord⟩ := kind_is_iff.1 starts
  obtain ⟨_, back, left, _, reads, _, _, drop, _, text⟩ := faces_cut (.inl (lt_size_of_kind seen))
  have read : glyphs ((ofSource source).textRange i (ofSource source).size).toList = (back, left) := by
    rw [text]
    exact reads
  have word : ∀ face ∈ ((ofSource source).faces.drop i).head?, face.1.isWord = true := by
    intro face here
    rw [List.head?_drop] at here
    rw [kind_of_faces, Option.mem_def.1 here] at seen
    cases seen
    exact isWord
  rw [drop] at word ⊢
  have other : ∀ c ∈ (logicalChars ((ofSource source).textRange i (ofSource source).size).toList).head?,
      Lexeme.isSpace c = false := by
    intro c here
    rw [logicalChars, read] at here
    rw [Bool.eq_false_iff]
    intro space
    obtain ⟨raw, blank⟩ := faces_space here space
    cases word _ blank
  rw [faces, closed.tokens_append (.inl mark) other, List.map_append, read, faces_moved, faces_word_line word]
  rfl

/-- Runs of tokens with the same faces have the same meaning. -/
theorem meaning_of_faces {a a' : Nat} (same : ∀ k < count, ts'.faces[a' + k]? = ts.faces[a + k]?) :
    ts'.meaningIn a' (a' + count) = ts.meaningIn a (a + count) := by
  have ahead {ts ts' : TokenSeq} {a shift : Nat}
      (same : ∀ k < count, ts'.faces[a + shift + k]? = ts.faces[a + k]?) :
      ts'.meaningIn (a + shift) (a + shift + count) = ts.meaningIn a (a + count) := by
    rw [Nat.add_right_comm a shift count]
    refine (moved_of_faces fun i lower upper => ?_).meaning
    obtain ⟨k, rfl⟩ := Nat.exists_eq_add_of_le lower
    rw [Nat.add_right_comm a k shift]
    exact same k (by omega)
  rcases Nat.le_total a a' with before | behind
  · obtain ⟨shift, rfl⟩ := Nat.exists_eq_add_of_le before
    exact ahead same
  · obtain ⟨shift, rfl⟩ := Nat.exists_eq_add_of_le behind
    exact (ahead fun k inside => (same k inside).symm).symm

/-- A new header that stands by itself, behind the text that was in front of it. -/
theorem opening_alone {source : String} {start typeStart name : Nat} {more : List Char} {back alone : String}
    (walks : (ofSource source).Walks start typeStart) (inside : typeStart < (ofSource source).size)
    (closed : isClosed ((ofSource source).tokens.toList.take typeStart) = true)
    (word : (ofSource source).hasKind name .identifier = true)
    (written : back.toList = "int ".toList ++ (((ofSource source).spelling name).toList ++ '(' :: more))
    (single : (ofSource source).textRange 0 typeStart ++ back = alone) :
    SameFront (ofSource source) (ofSource alone) typeStart ∧
      (ofSource alone).isIdent typeStart "int" = true ∧
      (ofSource alone).isIdent (typeStart + 2) ((ofSource source).spelling name) = true ∧
      (ofSource alone).hasKind (typeStart + 3) .openParen = true ∧
      (ofSource alone).specifiers start (typeStart + 2) = (ofSource source).specifiers start typeStart := by
  obtain ⟨first, tail, spelled, identifier⟩ := identifier_spelled word
  have letters : ((ofSource source).spelling name).toList = first :: tail := by
    rw [spelled, String.toList_ofList]
  rw [letters] at written
  obtain ⟨kept, type, space, named, paren⟩ :=
    opening_tokens inside closed identifier written (congrArg ofSource single.symm)
  rw [← spelled] at named
  refine ⟨kept, type, named, paren, ?_⟩
  rw [(kept.walks walks (Nat.le_refl typeStart)).specifiers (Nat.le_add_right _ 2), kept.specifiers,
    opening_specifiers type space, List.append_nil]

/-- A new header behind other closed text has the tokens that it has alone. -/
theorem opening_faces {alone back : String} (single : (ofSource source).textRange 0 typeStart ++ back = alone)
    (ordered : start ≤ typeStart) (kept : SameFront (ofSource source) (ofSource alone) typeStart)
    (type : (ofSource alone).isIdent typeStart "int" = true)
    (starts : (ofSource source).kindIs start TokenKind.isWord = true) (closed : IsClosed front)
    (mark : front.toList.getLast? ≠ some '?') (k : Nat) :
    (ofSource (front ++ (ofSource source).textRange start typeStart ++ back)).faces[(ofSource front).size + k]? =
      (ofSource alone).faces[start + k]? := by
  have rest : (ofSource alone).textRange start (ofSource alone).size =
      (ofSource source).textRange start typeStart ++ back := by
    have whole := (ofSource alone).text_range_append (Nat.zero_le start)
      (Nat.le_trans ordered kept.inside')
    have split := (ofSource source).text_range_append (Nat.zero_le start) ordered
    rw [text_range_of_source, kept.text_range ordered] at whole
    rw [← split, String.append_assoc] at single
    rw [← single, ← String.toList_inj, String.toList_append, String.toList_append] at whole
    rw [← String.toList_inj, ← single]
    exact List.append_cancel_left whole
  have starts : (ofSource alone).kindIs start TokenKind.isWord = true := by
    rcases Nat.lt_or_eq_of_le ordered with before | same
    · rw [kindIs, kept.kind before]
      exact starts
    · rw [same]
      exact kind_is_of_kind (ident_kind type).1 _
  have size : (ofSource front).size = (ofSource front).faces.length := (List.length_map _).symm
  rw [String.append_assoc, ← rest, faces_behind closed mark starts, size,
    List.getElem?_append_right (Nat.le_add_right _ _), Nat.add_sub_cancel_left, List.getElem?_drop]

/-- A new header behind closed text has the specifiers in front of it in front of its name. -/
theorem opening_keeps {params text : String} {edits earlier later : List Edit}
    (walks : (ofSource source).Walks start typeStart) (inside : typeStart < (ofSource source).size)
    (closed : isClosed ((ofSource source).tokens.toList.take typeStart) = true)
    (word : (ofSource source).hasKind name .identifier = true)
    (opens : text = "" ++ "int " ++ (ofSource source).spelling name ++ "(" ++ params ++ ")")
    (taken : Edit.select (ofSource source).size 0 (Edit.sorted edits) = earlier ++ ⟨typeStart, stop, text⟩ :: later)
    (leads : earlier = [] ∨ (ofSource source).LeadUpTo earlier start) {patched : TokenSeq}
    (edited : patched = ofSource ((ofSource source).edit edits).text) {front : Nat}
    (counted : front = (ofSource ((ofSource source).spliceUpTo start 0 earlier)).size) :
    patched.isIdent (front + (typeStart - start) + 2) ((ofSource source).spelling name) = true ∧
      patched.hasKind (front + (typeStart - start) + 3) .openParen = true ∧
      patched.specifiers front (front + (typeStart - start) + 2) =
        (ofSource source).specifiers start typeStart := by
  have ordered := walks.le
  generalize behind : text ++ (ofSource source).splice stop later = back
  have written : back.toList = "int ".toList ++ (((ofSource source).spelling name).toList ++ '(' ::
      (params.toList ++ ')' :: ((ofSource source).splice stop later).toList)) := by
    simp only [← behind, opens, String.toList_append, String.toList_empty, List.nil_append, List.append_assoc]
    rfl
  generalize single : (ofSource source).textRange 0 typeStart ++ back = alone
  obtain ⟨kept, type, named, paren, specified⟩ := opening_alone walks inside closed word written single
  rw [edit, taken, splice_at, String.append_assoc, behind] at edited
  have same (k : Nat) : patched.faces[front + k]? = (ofSource alone).faces[start + k]? := by
    rw [counted, edited]
    rcases leads with rfl | leads
    · have size : (ofSource ((ofSource source).textRange 0 start)).size = start := by
        rw [TokenSeq.size, ← Array.length_toList, (tokens_cut (Nat.lt_of_le_of_lt ordered inside)).2]
        exact List.length_take_of_le (Nat.le_of_lt (Nat.lt_of_le_of_lt ordered inside))
      rw [spliceUpTo, spliceUpTo, single, size]
    · rw [splice_up_to_append (Nat.zero_le start) ordered leads.before]
      exact opening_faces single ordered kept type leads.starts leads.closed leads.mark k
  have token (k : Nat) : patched.kind? (front + (typeStart - start) + k) = (ofSource alone).kind? (typeStart + k) ∧
      patched.spelling (front + (typeStart - start) + k) = (ofSource alone).spelling (typeStart + k) := by
    have place : start + (typeStart - start + k) = typeStart + k := by omega
    rw [Nat.add_assoc, kind_of_faces, kind_of_faces, spelling_of_faces, spelling_of_faces, same, place]
    exact ⟨rfl, rfl⟩
  refine ⟨?_, ?_, ?_⟩
  · rw [isIdent, hasKind, (token 2).1, (token 2).2]
    exact named
  · rw [hasKind, (token 3).1]
    exact paren
  · have place : start + (typeStart - start + 2) = typeStart + 2 := by omega
    rw [Nat.add_assoc, specifiers_of_meaning (meaning_of_faces fun k _ => same k), place, specified]

theorem specifiers_moved {f : Function} {h : Header} (read : (ofSource source).header f.start f.body = .ok h)
    (params : String) :
    SpecifiersMoved (ofSource source) f h (headerEdit h params)
      ((ofSource source).skipStorage f.start h.nameToken) := by
  obtain ⟨opening, name, close, newStart, lead, type, list, named, typed, closes, parts, rfl⟩ := header_ok_iff.1 read
  obtain ⟨found, word⟩ := Option.filter_eq_some_iff.1 named
  have before := prev_significant_bounds found
  have walks : (ofSource source).Walks f.start ((ofSource source).skipStorage f.start name) := walks_storage before.1
  have split := walks.specifiers (Nat.le_of_lt typed)
  refine ⟨split, fun i => front_kept parts, fun i => type_takes parts,
    fun edits earlier later taken leads plain closed => ?_⟩
  obtain ⟨rfl, rfl⟩ : newStart = (ofSource source).skipStorage f.start name ∧ lead = "" :=
    ⟨start_of_plain parts plain, plain⟩
  obtain ⟨isName, paren, kept⟩ :=
    opening_keeps walks (Nat.lt_trans typed before.2.2) closed word rfl taken leads rfl rfl
  refine ⟨isName, paren, kept, ?_⟩
  dsimp only
  rw [split]
  exact (Eq.congr_left kept).trans List.self_eq_append_right

/-- Every new header of a function moves its specifiers as its return type divides them: those in front of
the type stay in front of the name, and those behind its first token become part of it. A header keeps them
all in front of the name exactly if the second kind is missing. -/
theorem specifiers_kept_iff {source : String} {f : Function} {outParam : String} {shape : ReturnShape}
    {e : Edit} (hit : (ofSource source).reshape f outParam = .ok (shape, some e)) :
    ∃ h, (ofSource source).header f.start f.body = .ok h ∧
      (shape = .voidToInt ∧ e = headerEdit h h.params ∨
        ∃ name, shape = .outParam h.returnType name ∧ e = headerEdit h (paramsWith h name)) ∧
      SpecifiersMoved (ofSource source) f h e ((ofSource source).skipStorage f.start h.nameToken) := by
  rcases reshape_cases hit with ⟨_, _, same⟩ |
    ⟨_, h, read, ⟨_, void, same⟩ | ⟨_, _, _, same⟩ | ⟨_, _, name, typed, same⟩⟩
  · cases same
  · obtain rfl := Option.some.inj same
    exact ⟨h, read, .inl ⟨void, rfl⟩, specifiers_moved read h.params⟩
  · cases same
  · obtain rfl := Option.some.inj same
    exact ⟨h, read, .inr ⟨name, typed, rfl⟩, specifiers_moved read (paramsWith h name)⟩

/-- Of two specifiers in a header behind another new one, the first stays in front of the name and the second
goes into the type. -/
theorem specifiers_kept_iff_static_inline :
    let source := "void g(void)\x7bmalloc(1);\x7dstatic char inline*f(void)\x7breturn malloc(1);\x7d"
    let ts := ofSource source
    let f : Function := ⟨"f", 13, 23, 32, false, true, "char inline*", false⟩
    let h : Header := ⟨15, "", 19, "f", "char inline*", 20, 22, "void"⟩
    let first : Edit := ⟨0, 6, "int g(void)"⟩
    let e : Edit := ⟨15, 23, "int f(char inline* *out)"⟩
    ts.reshape f "out" = .ok (.outParam "char inline*" "out", some e) ∧ ts.header f.start f.body = .ok h ∧
      Edit.select ts.size 0 (Edit.sorted [first, e]) = [first, e] ∧
      ts.LeadUpTo [first] f.start ∧ isClosed (ts.tokens.toList.take 15) = true ∧
      SpecifiersMoved ts f h e 15 ∧
      ts.specifiers f.start h.nameToken = ["static", "inline"] ∧
      (ofSource (ts.edit [first, e]).text).specifiers 13 17 = ["static"] := by
  intro source ts f h first e
  obtain ⟨hit, read, taken, type, plain, closed, all, front⟩ :
      (ts.reshape f "out").toOption = some (.outParam "char inline*" "out", some e) ∧
        (ts.header f.start f.body).toOption = some h ∧ Edit.select ts.size 0 [first, e] = [first, e] ∧
        ts.skipStorage f.start h.nameToken = 15 ∧ h.lead = "" ∧
        isClosed (ts.tokens.toList.take 15) = true ∧
        ts.specifiers f.start h.nameToken = ["static", "inline"] ∧ ts.specifiers f.start 15 = ["static"] := by
    decide +kernel
  obtain ⟨before, whole, ends, mark, starts, start, place⟩ :
      first.stop ≤ f.start ∧ (glyphs (ts.spliceUpTo f.start 0 [first]).toList).2 = [] ∧
        isClosed (ofSource (ts.spliceUpTo f.start 0 [first])).tokens.toList = true ∧
        (ts.spliceUpTo f.start 0 [first]).toList.getLast? ≠ some '?' ∧
        ts.kindIs f.start TokenKind.isWord = true ∧
        (ofSource (ts.spliceUpTo f.start 0 [first])).size = 13 ∧ f.start = 13 := by
    decide +kernel
  have sorted : Edit.sorted [first, e] = [first, e] := by
    simp [Edit.sorted, List.mergeSort, first, e]
  have taken : Edit.select ts.size 0 (Edit.sorted [first, e]) = [first, e] := by rw [sorted, taken]
  -- From here on only these facts matter, and no step may compute with the text.
  clear_value source f h first e
  have leads : ts.LeadUpTo [first] f.start := ⟨List.forall_mem_singleton.2 before, ⟨whole, ends⟩, mark, starts⟩
  have reshaped := to_option_some.1 hit
  have headed := to_option_some.1 read
  obtain ⟨h', read', _, moved⟩ := specifiers_kept_iff reshaped
  obtain rfl : h = h' := Except.ok.inj (headed.symm.trans read')
  rw [type] at moved
  have kept := (moved.kept _ [first] [] taken (.inr leads) plain closed).2.2.1
  rw [start, place] at kept
  exact ⟨reshaped, headed, taken, leads, closed, moved, all, kept.trans (place ▸ front)⟩

/-- The specifier behind a qualifier is no longer in front of the name, but in the type of the parameter. -/
theorem specifier_behind_qualifier_moves :
    let ts := ofSource "const static char *f(void) \x7b return malloc(1); \x7d\n"
    let f : FunctionNode := ⟨⟨"f", 0, 12, 23, false, true, "const static char *", false⟩, true, []⟩
    let e : Edit := ⟨0, 11, "int f(const static char * *out)"⟩
    let patched := ofSource (ts.edit [e]).text
    (ts.analyse {}).graph.nodes = [f] ∧ (ts.analyse {}).marks = [true] ∧
      (ts.reshape f.toFunction "out").toOption = some (.outParam "const static char *" "out", some e) ∧
      ts.isIdent 7 "f" = true ∧ ts.specifiers f.start 7 = ["static"] ∧
      patched.isIdent 2 "f" = true ∧ patched.specifiers f.start 2 = [] ∧
      patched.hasKind 3 .openParen = true ∧ patched.isStorageAt 6 = true ∧
      patched.hasKind 14 .closeParen = true := by
  decide +kernel

end TokenSeq

end AllocGuard
