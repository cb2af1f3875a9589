import AllocGuard.Proofs.EditRanges
import AllocGuard.Proofs.GraphBlindness
import AllocGuard.Proofs.TokenEdges

/-! What is read from the text of a header. Whether a function returns `void` or a plain `int`,
and whether it has parameters, is read from the text between two of its tokens, and that text
holds the white space and the comments written there. Two sequences with the same core have
texts that differ in their gaps only, as long as these hold nothing but common white space and
no trigraphs or joined lines are used; then what is read from the texts is the same. -/
namespace AllocGuard

variable {v : DeclarationView} {text back : List Char} {r : DeclarationView.Reading} {h : Header} {pivot : Nat}

namespace TokenSeq

/-- The tokens that carry meaning, in order: what each of them is and how it is spelled. -/
def meaning (ts : TokenSeq) : List (TokenKind × String) :=
  (ts.significant 0 ts.size).map fun i => ((ts.kind? i).getD .unknown, ts.spelling i)

/-- The core of a sequence is made from its meaning. -/
theorem core_of_meaning {ts ts' : TokenSeq} (same : ts.meaning = ts'.meaning) :
    ts.core 0 ts.size = ts'.core 0 ts'.size :=
  core_of_meaning_in same

/-- The two positions hold the same token of the core. -/
structure Twin (ts ts' : TokenSeq) (i i' : Nat) : Prop where
  stands : ts.Stands 0 ts.size i
  stands' : ts'.Stands 0 ts'.size i'
  rank : ts.rank 0 i = ts'.rank 0 i'

/-! ## Texts between twins -/

section Texts

variable {ts ts' : TokenSeq} (same : ts.core 0 ts.size = ts'.core 0 ts'.size)

variable {a i b i' j : Nat}

theorem Twin.behind (twin : ts.Twin ts' i i') : ts.rank 0 (i + 1) = ts'.rank 0 (i' + 1) := by
  rw [rank_meaning twin.stands.above twin.stands.carries,
    rank_meaning twin.stands'.above twin.stands'.carries, twin.rank]

/-- A range that holds no token with a meaning is a gap. -/
theorem blank_text (written : ts.PlainlyWritten a b) (lower : a ≤ i) (ordered : i ≤ j) (upper : j ≤ b)
    (blank : ∀ q, i ≤ q → q < j → ts.isSignificant q = false) :
    ∀ c ∈ (ts.textRange i j).toList, Word.isGap c = true := by
  induction j, ordered using Nat.le_induction with
  | base =>
    rw [text_range_eq, Nat.sub_self]
    simp
  | succ j ordered ih =>
    rw [← ts.text_range_append ordered (Nat.le_succ j), text_range_single, String.toList_append]
    have front := ih (by omega) fun q above below => blank q above (by omega)
    have last := written.gap j (by omega) (by omega) (blank j ordered (Nat.lt_succ_self j))
    exact fun c member => (List.mem_append.1 member).elim (front c) (last c)

/-- A range with tokens has a text. -/
theorem text_nonempty (written : ts.PlainlyWritten a b) (lower : a ≤ i) (before : i < j) (upper : j ≤ b) :
    (ts.textRange i j).toList ≠ [] := by
  rw [← ts.text_range_append (Nat.le_succ i) before, text_range_single, String.toList_append]
  have some := written.some i lower (by omega)
  simp [some]

/-- A word ends right in front of the position. -/
def WordBefore (ts : TokenSeq) (a i : Nat) : Prop :=
  ∃ k, a ≤ k ∧ i = k + 1 ∧ ts.isSignificant k = true ∧
    ∃ c ∈ (ts.text k).toList.getLast?, Word.isChar c = true

/-- Behind a word, another word starts only after a gap. -/
theorem gap_behind_word {k : Nat} {c : Char} (written : ts.PlainlyWritten a b) (lower : a ≤ i) (ordered : i ≤ k)
    (upper : k < b) (before : ts.WordBefore a i) (carries : ts.isSignificant k = true)
    (first : (ts.text k).toList.head? = some c) (word : Word.isChar c = true) : (ts.textRange i k).toList ≠ [] := by
  obtain ⟨m, above, rfl, carries', d, last, word'⟩ := before
  have apart : m + 1 ≠ k := by
    rintro rfl
    have edge := written.apart m above upper carries' carries d last c first word'
    rw [word] at edge
    cases edge
  exact text_nonempty written lower (by omega) (by omega)

include same

theorem Twin.spelling (twin : ts.Twin ts' i i') : ts.spelling i = ts'.spelling i' := by
  rw [← core_spelling twin.stands, same, twin.rank, core_spelling twin.stands']

theorem next_twin {j' : Nat} (inside : j ≤ ts.size) (inside' : j' ≤ ts'.size) (start : ts.rank 0 i = ts'.rank 0 i')
    (stop : ts.rank 0 j = ts'.rank 0 j') :
    (ts.nextSignificant i j).map (ts.rank 0) = (ts'.nextSignificant i' j').map (ts'.rank 0) := by
  rw [next_core (Nat.zero_le i) inside, next_core (Nat.zero_le i') inside', same, start, stop]

/-- Texts between twins differ in their gaps only. The induction goes from token to token. -/
theorem text_spaced {a b a' b' : Nat} (written : ts.PlainlyWritten a b) (written' : ts'.PlainlyWritten a' b')
    (inside : b ≤ ts.size) (inside' : b' ≤ ts'.size) {prev : Bool} {i j i' j' : Nat} (lower : a ≤ i)
    (lower' : a' ≤ i') (ordered : i ≤ j) (ordered' : i' ≤ j') (upper : j ≤ b) (upper' : j' ≤ b')
    (start : ts.rank 0 i = ts'.rank 0 i') (stop : ts.rank 0 j = ts'.rank 0 j')
    (edge : prev = true → ts.WordBefore a i ∧ ts'.WordBefore a' i') :
    Word.Spaced prev (ts.textRange i j).toList (ts'.textRange i' j').toList := by
  induction left : j - i using Nat.strongRecOn generalizing prev i i' with
  | ind left' ih =>
    subst left
    have twins := next_twin same (Nat.le_trans upper inside) (Nat.le_trans upper' inside') start stop
    cases next : ts.nextSignificant i j with
    | none =>
      rw [next] at twins
      have next' := Option.map_eq_none_iff.1 twins.symm
      exact .done (blank_text written lower ordered upper fun q => next_significant_none next)
        (blank_text written' lower' ordered' upper' fun q => next_significant_none next')
    | some k =>
      rw [next] at twins
      obtain ⟨k', next', rank⟩ := Option.map_eq_some_iff.1 twins.symm
      obtain ⟨front, below, carries, blank⟩ := next_significant_iff.1 next
      obtain ⟨front', below', carries', blank'⟩ := next_significant_iff.1 next'
      have twin : ts.Twin ts' k k' :=
        ⟨⟨Nat.zero_le k, by omega, carries⟩, ⟨Nat.zero_le k', by omega, carries'⟩, rank.symm⟩
      have text : ts'.text k' = ts.text k := by
        rw [written.spelled k (by omega) (by omega), written'.spelled k' (by omega) (by omega), twin.spelling same]
      obtain ⟨c, chars, first⟩ := List.exists_cons_of_ne_nil (written.some k (by omega) (by omega))
      rw [← ts.text_range_append front (Nat.le_of_lt below), ← ts.text_range_append (Nat.le_succ k) below,
        ← ts'.text_range_append front' (Nat.le_of_lt below'),
        ← ts'.text_range_append (Nat.le_succ k') below', text_range_single, text_range_single, text]
      simp only [String.toList_append, first, List.cons_append]
      refine .next (blank_text written lower front (by omega) blank)
        (blank_text written' lower' front' (by omega) blank') (fun behind word => ?_) (.front ?_)
      · obtain ⟨before, before'⟩ := edge behind
        have wide := gap_behind_word written lower front (by omega) before carries
          (by rw [first]; rfl) word
        have wide' := gap_behind_word written' lower' front' (by omega) before' carries'
          (by rw [text, first]; rfl) word
        simp [wide, wide']
      · refine ih (j - (k + 1)) (by omega) (by omega) (by omega) below below' twin.behind
          (fun word => ?_) rfl
        have last : (ts.text k).toList.getLast? = some ((c :: chars).getLast (List.cons_ne_nil c chars)) := by
          rw [first, List.getLast?_eq_getLast_of_ne_nil]
        exact ⟨⟨k, by omega, rfl, carries, _, last, word⟩,
          ⟨k', by omega, rfl, carries', _, by rw [text]; exact last, word⟩⟩

end Texts

end TokenSeq

/-! ## Reading plain texts -/

theorem plain_trim {cs : List Char} (plain : isPlainText cs = true) : isPlainText (Text.trimChars cs) = true := by
  obtain ⟨front, whole⟩ := List.dropWhile_suffix Text.isBlank (l := cs)
  rw [← whole] at plain
  obtain ⟨back, kept⟩ := List.rdropWhile_prefix Text.isBlank (cs.dropWhile Text.isBlank)
  have behind := plain_back plain
  rw [← kept] at behind
  exact plain_front behind

/-- A mark that reaches up to a space does not need the space. -/
theorem starts_mark_space {c : Char} {rest : List Char} (marked : startsMark (c :: (rest ++ ' ' :: back)) = true) :
    startsMark (c :: rest) = true := by
  unfold startsMark at marked
  split at marked
  · rename_i third more split
    match rest, split with
    | [], same => cases same
    | [d], same =>
      cases same
      cases marked
    | d :: e :: rest, same =>
      cases same
      exact marked
  · rename_i second more split
    match rest, split with
    | [], same =>
      cases same
      cases marked
    | d :: rest, same =>
      cases same
      exact marked
  · cases marked

/-- A space between two plain texts makes no trigraph and joins no lines. -/
theorem plain_join {front : List Char} (plain : isPlainText front = true) (plain' : isPlainText back = true) :
    isPlainText (front ++ ' ' :: back) = true := by
  induction front with
  | nil => simpa [isPlainText, startsMark] using plain'
  | cons c rest ih =>
    obtain ⟨unmarked, later⟩ := plain_tail plain
    have first : startsMark (c :: (rest ++ ' ' :: back)) = false :=
      Bool.eq_false_iff.2 fun marked => by
        rw [starts_mark_space marked] at unmarked
        cases unmarked
    rw [List.cons_append, isPlainText, first, ih later]
    rfl

namespace Word

variable {prev : Bool} {text' : List Char}

theorem type_words_plain {cs : List Char} (plain : isPlainText cs = true) :
    typeWords (String.ofList cs) = typeWordsOf cs := by
  rw [typeWords, String.toList_ofList, logical_plain plain]
  rfl

/-- Plain type words that are read from one text are read from the other. -/
theorem Spaced.type_words (spaced : Spaced prev text text') (plain : isPlainText text = true)
    (plain' : isPlainText text' = true) {names : List String}
    (words : ∀ word ∈ names, ∀ c ∈ word.toList, isChar c = true) :
    typeWords (String.ofList text) = names ↔ typeWords (String.ofList text') = names := by
  rw [type_words_plain plain, type_words_plain plain', spaced.type_words_iff words]

theorem Spaced.plain_int (spaced : Spaced prev text text') (plain : isPlainText text = true)
    (plain' : isPlainText text' = true) : isPlainInt (String.ofList text) = isPlainInt (String.ofList text') := by
  have forms : ([["int"], ["signed"], ["signed", "int"], ["int", "signed"]].all allChars) = true := by
    decide +kernel
  have forms := fun names member => all_chars_mem (List.all_eq_true.1 forms names member)
  rw [Bool.eq_iff_iff, is_plain_int_iff, is_plain_int_iff]
  constructor
  · intro member
    rwa [(spaced.type_words plain plain' (forms _ member)).1 rfl]
  · intro member
    rwa [(spaced.type_words plain plain' (forms _ member)).2 rfl]

/-- The same for types that are put together from two texts. -/
theorem joined_plain_int {prev' : Bool} {front back front' back' : String}
    (spaced : Spaced prev front.toList front'.toList) (spaced' : Spaced prev' back.toList back'.toList)
    (plain : isPlainText front.toList = true) (plain' : isPlainText front'.toList = true)
    (plainBack : isPlainText back.toList = true) (plainBack' : isPlainText back'.toList = true) :
    isPlainInt (Text.trimEnd (front ++ " " ++ back)) = isPlainInt (Text.trimEnd (front' ++ " " ++ back')) := by
  have text (front back : String) : (front ++ " " ++ back).toList = front.toList ++ ' ' :: back.toList := by
    rw [String.toList_append, String.toList_append, List.append_assoc]
    rfl
  have trimmed {cs : List Char} (plain : isPlainText cs = true) :
      isPlainText (cs.rdropWhile Text.isBlank) = true := by
    obtain ⟨back, kept⟩ := List.rdropWhile_prefix Text.isBlank cs
    rw [← kept] at plain
    exact plain_front plain
  rw [Text.trimEnd, Text.trimEnd, text, text, ← List.rdropWhile, ← List.rdropWhile]
  exact (spaced.join spaced').trim_end.plain_int (trimmed (plain_join plain plainBack))
    (trimmed (plain_join plain' plainBack'))

end Word

/-- Whether a text of parameters says that there are none. -/
theorem no_params_iff (plain : isPlainText text = true) (params : h.params = String.ofList (Text.trimChars text)) :
    h.hasNoParams = true ↔ Text.trimChars text = [] ∨ Text.trimChars text = "void".toList := by
  rw [Header.hasNoParams, params, normalize, String.toList_ofList, logical_plain (plain_trim plain),
    Text.trim, String.toList_ofList, Text.trim_idem, Bool.or_eq_true, beq_iff_eq]
  refine or_congr ?_ ?_
  · rw [String.isEmpty_iff, ← String.toList_inj, String.toList_ofList]
    rfl
  · rw [← String.toList_inj, String.toList_ofList]

theorem Word.Spaced.no_params {prev : Bool} {text' : List Char} (spaced : Word.Spaced prev text text') {h' : Header}
    (plain : isPlainText text = true) (plain' : isPlainText text' = true)
    (params : h.params = String.ofList (Text.trimChars text))
    (params' : h'.params = String.ofList (Text.trimChars text')) : h.hasNoParams = h'.hasNoParams := by
  have kept {prev : Bool} {text text' : List Char} (spaced : Word.Spaced prev text text') {word : List Char}
      (chars : ∀ c ∈ word, Word.isChar c = true) (read : Text.trimChars text = word) :
      Text.trimChars text' = word := by
    have trimmed := spaced.trim
    rw [read] at trimmed
    have word := trimmed.trim_word chars
    rwa [Text.trim_idem] at word
  have void : ∀ c ∈ "void".toList, Word.isChar c = true :=
    Word.all_chars_mem (show Word.allChars ["void"] = true by decide +kernel) "void" List.mem_cons_self
  rw [Bool.eq_iff_iff, no_params_iff plain params, no_params_iff plain' params']
  exact ⟨Or.imp (kept spaced (by simp)) (kept spaced void),
    Or.imp (kept spaced.symm (by simp)) (kept spaced.symm void)⟩

namespace TokenSeq

variable {ts : TokenSeq} {start a stop b first name : Nat}

/-! ## Headers -/

/-- A header can be taken apart exactly if it has these parts. -/
theorem header_ok_iff :
    ts.header start stop = .ok h ↔
      ∃ opening name close typeStart lead returnType, ts.parameterList? start stop = some opening ∧
        (ts.prevSignificant opening start).filter (ts.hasKind · .identifier) = some name ∧
        ts.skipStorage start name < name ∧ ts.matchingClose opening stop = some close ∧
        ts.returnTypeParts start (ts.skipStorage start name) name = .ok (typeStart, lead, returnType) ∧
        h = ⟨typeStart, lead, name, ts.spelling name, returnType, opening, close,
          ts.trimmedRange (opening + 1) close⟩ := by
  constructor
  · intro hit
    rw [header] at hit
    split at hit
    · rename_i opening list
      dsimp only at hit
      split at hit
      · rename_i name named
        split at hit
        · cases hit
        · rename_i typed
          split at hit
          · rename_i close closes
            cases parts : ts.returnTypeParts start (ts.skipStorage start name) name with
            | error reason =>
              rw [parts] at hit
              cases hit
            | ok type =>
              rw [parts] at hit
              cases hit
              exact ⟨opening, name, close, type.1, type.2.1, type.2.2, list, named,
                Nat.lt_of_not_le typed, closes, parts, rfl⟩
          · cases hit
      · cases hit
    · cases hit
  · rintro ⟨opening, name, close, typeStart, lead, returnType, list, named, typed, closes, parts, rfl⟩
    simp only [header, list, named, Nat.not_le.2 typed, if_false, closes, parts]
    rfl

/-- A header is refused when nothing stands between its specifiers and the name. -/
theorem header_no_return_type {opening : Nat} (list : ts.parameterList? start stop = some opening)
    (named : (ts.prevSignificant opening start).filter (ts.hasKind · .identifier) = some name)
    (untyped : name ≤ ts.skipStorage start name) : ts.header start stop = .error .noReturnType := by
  simp only [header, list, named, untyped, if_true]
  rfl

/-- The position behind the last token in `[start, stop)` that carries meaning. For a header with
its body at `stop` this is behind its last parenthesis: what is written between the header and the
body is not part of it. -/
def headerStop (ts : TokenSeq) (start stop : Nat) : Nat :=
  ((ts.prevSignificant stop start).map (· + 1)).getD start

theorem header_stop_le (ts : TokenSeq) (ordered : start ≤ stop) : ts.headerStop start stop ≤ stop := by
  rw [headerStop]
  cases last : ts.prevSignificant stop start with
  | none => exact ordered
  | some k =>
    have bounds := prev_significant_bounds last
    exact bounds.2.1

theorem lt_header_stop {k : Nat} (carries : ts.isSignificant k = true) (lower : start ≤ k) (upper : k < stop) :
    k < ts.headerStop start stop := by
  rw [headerStop]
  cases last : ts.prevSignificant stop start with
  | none =>
    rw [prev_significant_none last lower upper] at carries
    cases carries
  | some m =>
    obtain ⟨_, _, _, blank⟩ := prev_significant_iff.1 last
    have behind : k ≤ m := Nat.le_of_not_lt fun later => by
      rw [blank k later upper] at carries
      cases carries
    exact Nat.lt_succ_of_le behind

theorem trimmed_plain {i j : Nat} (written : ts.PlainlyWritten a b) (lower : a ≤ i) (upper : j ≤ b) :
    isPlainText (ts.trimmedRange i j).toList = true := by
  rw [trimmedRange, Text.trim, String.toList_ofList]
  exact plain_trim (written.plain i j lower upper)

/-- A return type that defines an aggregate is given without the body. -/
theorem return_type_braced (start : Nat) {brace close : Nat}
    (opens : Position.firstIn? (ts.hasKind · .openBrace) first name = some brace)
    (closes : ts.matchingClose brace name = some close)
    (tagged : (ts.prevSignificant brace first).any (ts.hasKind · .identifier) = true) :
    ∃ lead, ts.returnTypeParts start first name = .ok (start, lead,
      Text.trimEnd (ts.trimmedRange first brace ++ " " ++ ts.trimmedRange (close + 1) name)) := by
  simp only [returnTypeParts, opens, closes, if_pos tagged]
  exact ⟨_, rfl⟩

/-- Where nothing but gaps stands between the specifiers and the name, the return type is empty. -/
theorem return_type_empty {newStart : Nat} {lead returnType : String} (written : ts.PlainlyWritten a b)
    (lower : a ≤ first) (typed : first ≤ name) (upper : name ≤ b)
    (blank : ∀ q, first ≤ q → q < name → ts.isSignificant q = false)
    (parts : ts.returnTypeParts a first name = .ok (newStart, lead, returnType)) : returnType = "" := by
  have none : Position.firstIn? (ts.hasKind · .openBrace) first name = none := by
    rw [Option.eq_none_iff_forall_ne_some]
    intro brace opens
    obtain ⟨above, below, isBrace⟩ := Position.first_in_bounds opens
    rw [has_kind_blank (blank brace above below) rfl] at isBrace
    cases isBrace
  have gaps := blank_text written lower typed upper blank
  have empty := @Text.trim_around (ts.textRange first name).toList [] [] (fun c member =>
    Word.gap_blank (gaps c member)) (by simp) (by simp)
  rw [List.append_nil, List.append_nil] at empty
  simp only [returnTypeParts, none, trimmedRange, Text.trim, empty, Except.ok.injEq, Prod.mk.injEq] at parts
  exact parts.2.2.symm

section Headers

variable {ts ts' : TokenSeq} (same : ts.core 0 ts.size = ts'.core 0 ts'.size)

include same

variable {i a' i' b' j j' : Nat}

/-- The texts of two ranges between twins, without blanks around them. -/
theorem trimmed_spaced (written : ts.PlainlyWritten a b) (written' : ts'.PlainlyWritten a' b') (inside : b ≤ ts.size)
    (inside' : b' ≤ ts'.size) (lower : a ≤ i) (lower' : a' ≤ i') (ordered : i ≤ j) (ordered' : i' ≤ j')
    (upper : j ≤ b) (upper' : j' ≤ b') (start : ts.rank 0 i = ts'.rank 0 i') (stop : ts.rank 0 j = ts'.rank 0 j') :
    Word.Spaced false (ts.trimmedRange i j).toList (ts'.trimmedRange i' j').toList := by
  have spaced := @text_spaced ts ts' same a b a' b' written written' inside inside' false i j i' j' lower
    lower' ordered ordered' upper upper' start stop (fun word => nomatch word)
  rw [trimmedRange, trimmedRange, Text.trim, Text.trim, String.toList_ofList, String.toList_ofList]
  exact spaced.trim

theorem brace_twin (inside : j ≤ ts.size) (inside' : j' ≤ ts'.size) (start : ts.rank 0 i = ts'.rank 0 i')
    (stop : ts.rank 0 j = ts'.rank 0 j') :
    (Position.firstIn? (ts.hasKind · .openBrace) i j).map (ts.rank 0) =
      (Position.firstIn? (ts'.hasKind · .openBrace) i' j').map (ts'.rank 0) := by
  have found {ts : TokenSeq} {i j : Nat} (inside : j ≤ ts.size) :=
    @first_in_rank ts 0 ts.size (ts.hasKind · .openBrace) ((ts.core 0 ts.size).hasKind · .openBrace)
      (fun _ blank => has_kind_blank blank rfl) (fun _ stands => core_has_kind stands _) i j
      (Nat.zero_le i) inside
  rw [found inside, found inside', same, start, stop]

theorem close_twin {limit limit' : Nat} (twin : ts.Twin ts' i i') (inside : limit ≤ ts.size)
    (inside' : limit' ≤ ts'.size) (stop : ts.rank 0 limit = ts'.rank 0 limit') :
    (ts.matchingClose i limit).map (ts.rank 0) = (ts'.matchingClose i' limit').map (ts'.rank 0) := by
  rw [matching_close_core twin.stands inside, matching_close_core twin.stands' inside', same, twin.rank, stop]

/-- The return types of twin headers are plain `int` together. -/
theorem return_type_twin (written : ts.PlainlyWritten a b) (written' : ts'.PlainlyWritten a' b')
    (inside : b ≤ ts.size) (inside' : b' ≤ ts'.size) {first' name' newStart : Nat} {lead returnType : String}
    (lower : a ≤ first) (lower' : a' ≤ first') (typed : first ≤ name) (typed' : first' ≤ name') (upper : name ≤ b)
    (upper' : name' ≤ b') (start : ts.rank 0 first = ts'.rank 0 first') (stop : ts.rank 0 name = ts'.rank 0 name')
    (parts : ts.returnTypeParts a first name = .ok (newStart, lead, returnType)) :
    ∃ newStart' lead' returnType', ts'.returnTypeParts a' first' name' = .ok (newStart', lead', returnType') ∧
        Word.isPlainInt returnType' = Word.isPlainInt returnType := by
  have braces := brace_twin same (Nat.le_trans upper inside) (Nat.le_trans upper' inside') start stop
  rw [returnTypeParts] at parts
  cases opens : Position.firstIn? (ts.hasKind · .openBrace) first name with
  | none =>
    rw [opens] at parts braces
    have opens' := Option.map_eq_none_iff.1 braces.symm
    cases parts
    refine ⟨first', "", ts'.trimmedRange first' name', by rw [returnTypeParts, opens'], ?_⟩
    have spaced := trimmed_spaced same written written' inside inside' lower lower' typed typed' upper
      upper' start stop
    have read := spaced.symm.plain_int (trimmed_plain written' lower' upper')
      (trimmed_plain written lower upper)
    rwa [String.ofList_toList, String.ofList_toList] at read
  | some brace =>
    rw [opens] at parts braces
    obtain ⟨brace', opens', rank⟩ := Option.map_eq_some_iff.1 braces.symm
    obtain ⟨above, below, isBrace⟩ := Position.first_in_bounds opens
    obtain ⟨above', below', isBrace'⟩ := Position.first_in_bounds opens'
    have twin : ts.Twin ts' brace brace' :=
      ⟨⟨Nat.zero_le _, by omega, significant_of_kind (has_kind_iff.1 isBrace) rfl⟩,
        ⟨Nat.zero_le _, by omega, significant_of_kind (has_kind_iff.1 isBrace') rfl⟩, rank.symm⟩
    have closings := close_twin same twin (Nat.le_trans upper inside) (Nat.le_trans upper' inside') stop
    have tags : (ts.prevSignificant brace first).any (ts.hasKind · .identifier) =
        (ts'.prevSignificant brace' first').any (ts'.hasKind · .identifier) := by
      rw [← @prev_any_core ts 0 ts.size brace first _ ((ts.core 0 ts.size).hasKind · .identifier)
          (Nat.zero_le _) (by omega) fun _ stands => core_has_kind stands _,
        ← @prev_any_core ts' 0 ts'.size brace' first' _ ((ts'.core 0 ts'.size).hasKind · .identifier)
          (Nat.zero_le _) (by omega) fun _ stands => core_has_kind stands _, same, start, twin.rank]
    cases closes : ts.matchingClose brace name with
    | none =>
      simp only [closes] at parts
      cases parts
    | some close =>
      rw [closes] at closings
      obtain ⟨close', closes', rank'⟩ := Option.map_eq_some_iff.1 closings.symm
      have bounds := matching_close_bounds closes
      have bounds' := matching_close_bounds closes'
      have twin' : ts.Twin ts' close close' :=
        ⟨⟨Nat.zero_le _, by omega, matching_close_significant closes⟩,
          ⟨Nat.zero_le _, by omega, matching_close_significant closes'⟩, rank'.symm⟩
      simp only [closes, tags] at parts
      split at parts
      · rename_i tagged
        simp only [Except.ok.injEq, Prod.mk.injEq] at parts
        obtain ⟨_, _, rfl⟩ := parts
        obtain ⟨lead', read⟩ := return_type_braced a' opens' closes' tagged
        refine ⟨a', lead', _, read, ?_⟩
        have front := trimmed_spaced same written written' inside inside' lower lower' above above'
          (by omega) (by omega) start twin.rank
        have back := trimmed_spaced same written written' inside inside' (by omega) (by omega)
          bounds.2.1 bounds'.2.1 upper upper' twin'.behind stop
        exact Word.joined_plain_int front.symm back.symm (trimmed_plain written' lower' (by omega))
          (trimmed_plain written lower (by omega)) (trimmed_plain written' (by omega) upper')
          (trimmed_plain written (by omega) upper)
      · cases parts

/-- Twin headers are taken apart alike: the same ones have no parameters, and the same ones return a
plain `int`. A header without a return type may be refused in one of them. -/
theorem header_twin {start' stop' : Nat} (ordered : start ≤ stop) (ordered' : start' ≤ stop')
    (inside : stop ≤ ts.size) (inside' : stop' ≤ ts'.size) (starts : ts.rank 0 start = ts'.rank 0 start')
    (stops : ts.rank 0 stop = ts'.rank 0 stop') (written : ts.PlainlyWritten start (ts.headerStop start stop))
    (written' : ts'.PlainlyWritten start' (ts'.headerStop start' stop')) (read : ts.header start stop = .ok h) :
    (∃ h', ts'.header start' stop' = .ok h' ∧ h'.hasNoParams = h.hasNoParams ∧
        Word.isPlainInt h'.returnType = Word.isPlainInt h.returnType) ∨
      h.returnType = "" ∧ ts'.header start' stop' = .error .noReturnType := by
  obtain ⟨opening, name, close, typeStart, lead, returnType, list, named, typed, closes, parts, rfl⟩ :=
    header_ok_iff.1 read
  have bound := Nat.le_trans (ts.header_stop_le ordered) inside
  have bound' := Nat.le_trans (ts'.header_stop_le ordered') inside'
  -- the parenthesis, the name and the closing parenthesis have twins
  have lists := @parameter_list_core ts 0 ts.size start stop (Nat.zero_le _) inside
  rw [same, starts, stops, ← parameter_list_core (Nat.zero_le _) inside', list] at lists
  obtain ⟨opening', list', rank⟩ := Option.map_eq_some_iff.1 lists.symm
  have opens : ts.Twin ts' opening opening' :=
    ⟨parameter_list_stands (Nat.zero_le _) inside list, parameter_list_stands (Nat.zero_le _) inside' list',
      rank.symm⟩
  obtain ⟨prev, identifier⟩ := Option.filter_eq_some_iff.1 named
  have prevs := @prev_core ts 0 ts.size opening start (Nat.zero_le _) (Nat.le_of_lt opens.stands.below)
  rw [same, starts, opens.rank, ← prev_core (Nat.zero_le _) (Nat.le_of_lt opens.stands'.below), prev]
    at prevs
  obtain ⟨name', prev', rank'⟩ := Option.map_eq_some_iff.1 prevs.symm
  have names : ts.Twin ts' name name' :=
    ⟨prev_stands (Nat.zero_le _) (Nat.le_of_lt opens.stands.below) prev,
      prev_stands (Nat.zero_le _) (Nat.le_of_lt opens.stands'.below) prev', rank'.symm⟩
  have named' : (ts'.prevSignificant opening' start').filter (ts'.hasKind · .identifier) = some name' := by
    refine Option.filter_eq_some_iff.2 ⟨prev', ?_⟩
    rw [← core_has_kind names.stands', ← same, ← names.rank, core_has_kind names.stands]
    exact identifier
  have closings := close_twin same opens inside inside' stops
  rw [closes] at closings
  obtain ⟨close', closes', rank''⟩ := Option.map_eq_some_iff.1 closings.symm
  have ends : ts.Twin ts' close close' :=
    ⟨close_stands (Nat.zero_le _) inside closes, close_stands (Nat.zero_le _) inside' closes', rank''.symm⟩
  -- the type starts at the same token, or behind it where there is none
  have firsts : ts.rank 0 (ts.skipStorage start name) = ts'.rank 0 (ts'.skipStorage start' name') := by
    rw [← skip_storage_core (Nat.zero_le _) (Nat.le_of_lt names.stands.below), same, starts, names.rank,
      skip_storage_core (Nat.zero_le _) (Nat.le_of_lt names.stands'.below)]
  have bounds := parameter_list_bounds list
  have bounds' := parameter_list_bounds list'
  have before := prev_significant_bounds prev
  have before' := prev_significant_bounds prev'
  have closed := matching_close_bounds closes
  have closed' := matching_close_bounds closes'
  have lower := ts.skip_storage_le before.1
  have lower' := ts'.skip_storage_le before'.1
  have reach : name < ts.headerStop start stop := lt_header_stop names.stands.carries before.1 (by omega)
  have reach' : name' < ts'.headerStop start' stop' := lt_header_stop names.stands'.carries before'.1 (by omega)
  have last : close < ts.headerStop start stop := lt_header_stop ends.stands.carries (by omega) (by omega)
  have last' : close' < ts'.headerStop start' stop' := lt_header_stop ends.stands'.carries (by omega) (by omega)
  by_cases typed' : ts'.skipStorage start' name' < name'
  · obtain ⟨typeStart', lead', returnType', parts', plain⟩ := return_type_twin same written written' bound
      bound' lower lower' (Nat.le_of_lt typed) (Nat.le_of_lt typed') (Nat.le_of_lt reach)
      (Nat.le_of_lt reach') firsts names.rank parts
    refine .inl ⟨_, header_ok_iff.2 ⟨opening', name', close', typeStart', lead', returnType', list', named',
      typed', closes', parts', rfl⟩, ?_, plain⟩
    have spaced := @text_spaced ts ts' same _ _ _ _ written written' bound bound' false _ _ _ _
      (show start ≤ opening + 1 by omega) (show start' ≤ opening' + 1 by omega) closed.1 closed'.1
      (Nat.le_of_lt last) (Nat.le_of_lt last') opens.behind ends.rank (fun word => nomatch word)
    exact spaced.symm.no_params (written'.plain _ _ (by omega) (Nat.le_of_lt last'))
      (written.plain _ _ (by omega) (Nat.le_of_lt last)) rfl rfl
  · refine .inr ⟨return_type_empty written lower (Nat.le_of_lt typed) (Nat.le_of_lt reach) ?_ parts,
      header_no_return_type list' named' (Nat.le_of_not_lt typed')⟩
    intro q above below
    rw [Bool.eq_false_iff]
    intro carries
    have less := rank_lt (Nat.zero_le q) carries below
    have more := ts.rank_mono 0 above
    have none := ts'.rank_mono 0 (Nat.le_of_not_lt typed')
    rw [← names.rank, ← firsts] at none
    omega

end Headers

/-! ## The base of a declaration -/

theorem declaration_view_shows (ts : TokenSeq) (start stop : Nat) : (ts.declarationView start stop).Shows := by
  obtain ⟨tail, split⟩ := ts.first_declarator_front 0 (ts.significant start stop)
  refine ⟨start, tail, ?_⟩
  rw [declarationView, List.toList_toArray, ← split, significant_limit]

end TokenSeq

/-- What a reading with a name has been put together from. -/
theorem DeclarationView.reading_parts (reads : v.reading = some r) (named : r.pivot = some pivot) :
    v.baseStop = .ok r.base ∧ r.base ≠ 0 ∧ v.pivotFrom r.base = .ok (pivot, true) ∧
      ∃ layers, v.layersAround r.base pivot (pivot + 1) = .ok layers := by
  simp only [reading, Option.bind_eq_bind, Option.bind_eq_some_iff, Option.guard_eq_some'] at reads
  obtain ⟨base, based, _, nonzero, ⟨place, isNamed⟩, found, layers, around, made⟩ := reads
  obtain rfl := Option.some.inj made
  cases isNamed with
  | false => cases named
  | true =>
    obtain rfl := Option.some.inj named
    obtain ⟨whole, run, _⟩ := Option.map_eq_some_iff.1 around
    exact ⟨to_option_some.1 based, nonzero, to_option_some.1 found, whole, to_option_some.1 run⟩

/-- A declaration with a name has a base, and the name stands behind it. -/
theorem DeclarationView.reading_bounds (shows : v.Shows) (reads : v.reading = some r) (named : r.pivot = some pivot) :
    0 < r.base ∧ r.base ≤ pivot ∧ pivot < v.size := by
  obtain ⟨_, nonzero, found, _⟩ := reading_parts reads named
  obtain ⟨identifier, floor, lower, upper, _⟩ := pivot_from_path shows found
  exact ⟨Nat.pos_of_ne_zero nonzero, Nat.le_trans lower upper, lt_size_of_kind identifier⟩

namespace TokenSeq

section Bases

variable {ts ts' : TokenSeq} (same : ts.core 0 ts.size = ts'.core 0 ts'.size)
  {start stop start' stop' : Nat} (inside : stop ≤ ts.size) (inside' : stop' ≤ ts'.size)
  (starts : ts.rank 0 start = ts'.rank 0 start') (stops : ts.rank 0 stop = ts'.rank 0 stop')

include same inside inside' starts stops

theorem reading_twin : (ts.declarationView start stop).reading = (ts'.declarationView start' stop').reading := by
  rw [(declaration_view_alike (Nat.zero_le start) inside).reading, same, starts, stops,
    ← (declaration_view_alike (Nat.zero_le start') inside').reading]

theorem declarator_ranks :
    (ts.firstDeclarator 0 (ts.significant start stop)).map (ts.rank 0) =
      (ts'.firstDeclarator 0 (ts'.significant start' stop')).map (ts'.rank 0) := by
  have one := @declaration_view_core ts 0 ts.size start stop (Nat.zero_le _) inside
  have two := @declaration_view_core ts' 0 ts'.size start' stop' (Nat.zero_le _) inside'
  rw [same, starts, stops, two] at one
  have arrays := congrArg DeclarationView.sig one
  simpa using arrays.symm

/-- The tokens of the two views are twins, one by one. -/
theorem view_twin {p i : Nat} (there : (ts.declarationView start stop).sig[p]? = some i) :
    ∃ i', (ts'.declarationView start' stop').sig[p]? = some i' ∧ ts.Twin ts' i i' ∧
      (start ≤ i ∧ i < stop) ∧ start' ≤ i' ∧ i' < stop' := by
  have ranks := declarator_ranks same inside inside' starts stops
  rw [declarationView, List.getElem?_toArray] at there ⊢
  have hit := congrArg (·[p]?) ranks
  simp only [List.getElem?_map, there, Option.map_some] at hit
  obtain ⟨i', there', rank⟩ := Option.map_eq_some_iff.1 hit.symm
  have stands := declarator_stands (Nat.le_refl start) (Nat.le_refl stop) i (List.mem_of_getElem? there)
  have stands' := declarator_stands (Nat.le_refl start') (Nat.le_refl stop') i'
    (List.mem_of_getElem? there')
  exact ⟨i', there', ⟨⟨Nat.zero_le i, Nat.lt_of_lt_of_le stands.below inside, stands.carries⟩,
    ⟨Nat.zero_le i', Nat.lt_of_lt_of_le stands'.below inside', stands'.carries⟩, rank.symm⟩,
    ⟨stands.above, stands.below⟩, stands'.above, stands'.below⟩

omit same inside inside' starts stops in
theorem view_ordered {p q i j : Nat} (ordered : p ≤ q) (first : (ts.declarationView start stop).sig[p]? = some i)
    (last : (ts.declarationView start stop).sig[q]? = some j) : i ≤ j := by
  have sorted : (ts.significant start stop).Pairwise (· < ·) := List.Pairwise.filter _ List.pairwise_lt_range'
  obtain ⟨tail, split⟩ := ts.first_declarator_front 0 (ts.significant start stop)
  rw [split, List.pairwise_append] at sorted
  rw [declarationView, List.getElem?_toArray] at first last
  obtain ⟨bound, rfl⟩ := List.getElem?_eq_some_iff.1 first
  obtain ⟨bound', rfl⟩ := List.getElem?_eq_some_iff.1 last
  rcases Nat.lt_or_eq_of_le ordered with before | rfl
  · exact Nat.le_of_lt (List.pairwise_iff_getElem.1 sorted.1 p q bound bound' before)
  · exact Nat.le_refl _

/-- Twin declarations have `void` for a base together. -/
theorem void_twin (written : ts.PlainlyWritten start (ts.headerStop start stop))
    (written' : ts'.PlainlyWritten start' (ts'.headerStop start' stop')) (ordered : start ≤ stop)
    (ordered' : start' ≤ stop') (reads : (ts.declarationView start stop).reading = some r)
    (named : r.pivot = some pivot) :
    Word.typeWords ((ts.declarationView start stop).spanText 0 r.base) = ["void"] ↔
      Word.typeWords ((ts'.declarationView start' stop').spanText 0 r.base) = ["void"] := by
  obtain ⟨nonempty, before, bound⟩ :=
    DeclarationView.reading_bounds (ts.declaration_view_shows start stop) reads named
  have token {p : Nat} (inside : p < r.base) :
      ∃ i, (ts.declarationView start stop).sig[p]? = some i :=
    ⟨_, Array.getElem?_eq_getElem (show p < (ts.declarationView start stop).size by omega)⟩
  obtain ⟨first, there⟩ := token nonempty
  obtain ⟨last, behind⟩ := @token (r.base - 1) (by omega)
  obtain ⟨first', there', twin, above, above'⟩ := view_twin same inside inside' starts stops there
  obtain ⟨last', behind', twin', below, below'⟩ := view_twin same inside inside' starts stops behind
  have span {ts : TokenSeq} {start stop i j : Nat}
      (first : (ts.declarationView start stop).sig[0]? = some i)
      (last : (ts.declarationView start stop).sig[r.base - 1]? = some j) :
      (ts.declarationView start stop).spanText 0 r.base = ts.trimmedRange i (j + 1) := by
    rw [DeclarationView.spanText, if_pos nonempty, Array.getD_eq_getD_getElem?, first,
      Array.getD_eq_getD_getElem?, last]
    rfl
  have reach : last < ts.headerStop start stop := lt_header_stop twin'.stands.carries below.1 below.2
  have reach' : last' < ts'.headerStop start' stop' := lt_header_stop twin'.stands'.carries below'.1 below'.2
  have spaced := trimmed_spaced same written written' (Nat.le_trans (ts.header_stop_le ordered) inside)
    (Nat.le_trans (ts'.header_stop_le ordered') inside') above.1 above'.1
    (Nat.le_succ_of_le (view_ordered (Nat.zero_le _) there behind))
    (Nat.le_succ_of_le (view_ordered (Nat.zero_le _) there' behind')) reach reach' twin.rank twin'.behind
  have words : ∀ word ∈ ["void"], ∀ c ∈ word.toList, Word.isChar c = true := Word.all_chars_mem (by decide +kernel)
  have read := spaced.type_words (trimmed_plain written above.1 reach) (trimmed_plain written' above'.1 reach')
    words
  rwa [String.ofList_toList, String.ofList_toList, ← span there behind, ← span there' behind'] at read

end Bases

end TokenSeq

end AllocGuard
