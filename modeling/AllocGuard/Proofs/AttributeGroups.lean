import Mathlib.Logic.Relation
import AllocGuard.Proofs.BytewiseLexeme
import AllocGuard.Proofs.HeaderBlindness
import AllocGuard.Proofs.SpelledSource
import AllocGuard.Proofs.WrittenHeaders

/-! Attributes among the specifiers of a declaration. An attribute is a word with a group behind it, and
whatever the group holds is passed over with it, so the type words of a text are the words that stand
outside the attributes. The scan that takes the attributes out counts the open parentheses of a group. It
starts to count at the parenthesis that opens the group and stops when the count comes back to zero. So the
count is never taken below zero, whether the parentheses of the text stand in pairs or not. -/
namespace AllocGuard

namespace Word

variable {c d : Char} {word gap rest inner : List Char}

/-! ## Texts of specifiers -/

/-- A character of a plain word: a letter, a digit or `_`. Every character outside ASCII that is not
blank passes for a letter. -/
def isPlainChar (c : Char) : Bool :=
  isChar c || (0x80 ≤ c.toNat && !Text.isBlank c)

/-- Text in which every parenthesis has its partner. -/
inductive Parenthesized : List Char → Prop where
  | nil : Parenthesized []
  | char {c : Char} {rest : List Char} (opener : c ≠ '(') (closer : c ≠ ')')
      (behind : Parenthesized rest) : Parenthesized (c :: rest)
  | group {inner rest : List Char} (within : Parenthesized inner) (behind : Parenthesized rest) :
      Parenthesized ('(' :: (inner ++ ')' :: rest))

/-- A plain word, or an attribute: its word, white space, and what its group holds. -/
inductive Specifier where
  | plain (word : List Char) (nonempty : word ≠ []) (chars : ∀ c ∈ word, isPlainChar c = true)
  | grouped (word gap inner : List Char) (known : isAttribute (String.ofList word) = true)
      (gaps : ∀ c ∈ gap, isGap c = true) (paired : Parenthesized inner)
      (marks : ¬ ['?', '?'] <:+: inner) (backslash : '\\' ∉ inner)

namespace Specifier

def text : Specifier → List Char
  | plain word _ _ => word
  | grouped word gap inner _ _ _ _ _ => word ++ (gap ++ '(' :: (inner ++ [')']))

/-- The word that counts for the type. -/
def word? : Specifier → Option String
  | plain word _ _ => some (String.ofList word)
  | grouped .. => none

end Specifier

/-- The text of specifiers with white space between them. Behind an attribute it may be missing. -/
inductive SpecifierText : List Specifier → List Char → Prop where
  | nil : SpecifierText [] []
  | last (item : Specifier) : SpecifierText [item] item.text
  | more {items : List Specifier} {gap text : List Char} (item : Specifier)
      (blank : ∀ c ∈ gap, Text.isBlank c = true) (apart : item.word?.isSome = true → gap ≠ [])
      (behind : SpecifierText items text) : SpecifierText (item :: items) (item.text ++ (gap ++ text))

/-! ## Characters -/

theorem plain_char_cases (plain : isPlainChar c = true) :
    isChar c = true ∨ Text.IsWide c ∧ Text.isBlank c = false := by
  simpa [isPlainChar, Text.IsWide] using plain

theorem char_is_plain (char : isChar c = true) : isPlainChar c = true := by
  rw [isPlainChar, char, Bool.true_or]

theorem plain_not_blank (plain : isPlainChar c = true) : Text.isBlank c = false := by
  rcases plain_char_cases plain with char | ⟨_, blank⟩
  · exact char_not_blank char
  · exact blank

/-- No mark of ASCII is a character of a plain word. -/
theorem plain_ne (plain : isPlainChar c = true) (mark : isPlainChar d = false) : c ≠ d := by
  rintro rfl
  rw [plain] at mark
  cases mark

theorem blank_ne (blank : Text.isBlank c = true) (mark : Text.isBlank d = false) : c ≠ d := by
  rintro rfl
  rw [blank] at mark
  cases mark

theorem blank_not_char (blank : Text.isBlank c = true) : isChar c = false := by
  rw [Bool.eq_false_iff]
  intro char
  rw [char_not_blank char] at blank
  cases blank

theorem blank_not_start (blank : Text.isBlank c = true) : isStart c = false := by
  rw [Bool.eq_false_iff]
  intro starts
  rw [char_not_blank (start_is_char starts)] at blank
  cases blank

theorem attribute_word (known : isAttribute (String.ofList word) = true) :
    word.head?.any isStart = true ∧ word.all isChar = true := by
  have words : ∀ name ∈ ["__attribute__", "__attribute", "__declspec", "_Alignas", "alignas", "__asm__", "asm"],
      name.toList.head?.any isStart = true ∧ name.toList.all isChar = true := by
    decide +kernel
  rw [isAttribute, List.contains_iff_mem] at known
  simpa using words _ known

/-! ## Taking attributes out -/

theorem after_group_other (opener : c ≠ '(') (closer : c ≠ ')') (depth : Nat) (rest : List Char) :
    afterGroup depth (c :: rest) = afterGroup depth rest := by
  rw [afterGroup]
  · exact opener
  · exact closer

/-- A group ends at the parenthesis behind text whose parentheses stand in pairs. -/
theorem after_group_paired (paired : Parenthesized inner) (depth : Nat) (more : List Char) :
    afterGroup (depth + 1) (inner ++ more) = afterGroup (depth + 1) more := by
  induction paired generalizing depth more with
  | nil => rfl
  | char opener closer _ ih => rw [List.cons_append, after_group_other opener closer, ih]
  | @group inner rest _ _ within behind =>
    have whole : '(' :: (inner ++ ')' :: rest) ++ more = '(' :: (inner ++ ')' :: (rest ++ more)) := by
      rw [List.cons_append, List.append_assoc, List.cons_append]
    rw [whole, afterGroup, within (depth + 1), afterGroup, if_neg (by omega), Nat.add_sub_cancel, behind depth]

/-- What stands behind the parenthesis that opens the group of an attribute, if the word that starts
with `c` is an attribute word and has a group. -/
def groupOf? (c : Char) (rest : List Char) : Option (List Char) :=
  if isAttribute (String.ofList (c :: rest.takeWhile isChar)) then
    match (rest.dropWhile isChar).dropWhile isGap with
    | '(' :: inner => some inner
    | _ => none
  else none

theorem group_of_iff :
    groupOf? c rest = some inner ↔ isAttribute (String.ofList (c :: rest.takeWhile isChar)) = true ∧
      (rest.dropWhile isChar).dropWhile isGap = '(' :: inner := by
  rw [groupOf?]
  split
  · rename_i known
    split
    · rename_i here opens
      rw [opens, Option.some.injEq, List.cons.injEq]
      exact ⟨fun same => ⟨known, rfl, same⟩, fun group => group.2.2⟩
    · rename_i other
      exact iff_of_false (Option.some_ne_none inner).symm fun group => other inner group.2
  · rename_i unknown
    exact iff_of_false (Option.some_ne_none inner).symm fun group => unknown group.1

theorem group_of_length (group : groupOf? c rest = some inner) : inner.length < rest.length := by
  have word := (List.dropWhile_sublist isChar (l := rest)).length_le
  have gap := (List.dropWhile_sublist isGap (l := rest.dropWhile isChar)).length_le
  rw [(group_of_iff.1 group).2, List.length_cons] at gap
  omega

theorem strip_group (starts : isStart c = true) (group : groupOf? c rest = some inner) :
    stripAttributes (c :: rest) = ' ' :: stripAttributes (afterGroup 1 inner) := by
  obtain ⟨known, opens⟩ := group_of_iff.1 group
  rw [Spaced.strip_word starts, known, if_pos rfl, opens]
  rfl

/-- A word with no group behind it stays, be it an attribute word or not. -/
theorem strip_kept (starts : isStart c = true) (bare : groupOf? c rest = none) :
    stripAttributes (c :: rest) = c :: rest.takeWhile isChar ++ stripAttributes (rest.dropWhile isChar) := by
  rw [Spaced.strip_word starts]
  split
  · rename_i known
    split
    · rename_i inner opens
      rw [group_of_iff.2 ⟨known, opens⟩] at bare
      cases bare
    · rfl
  · rfl

/-- The word characters at the front of a text, as far as they go. -/
theorem word_first (cs : List Char) : ∃ front back, cs = front ++ back ∧ (∀ c ∈ front, isChar c = true) ∧
    ∀ c ∈ back.head?, isChar c = false := by
  refine ⟨cs.takeWhile isChar, cs.dropWhile isChar, List.takeWhile_append_dropWhile.symm,
    fun c member => List.mem_takeWhile_imp member, fun c first => ?_⟩
  have head := List.head?_dropWhile_not isChar cs
  rw [first] at head
  exact head

theorem word_opens_no_group (plain : isPlainChar c = true) : (c :: rest).dropWhile isGap ≠ '(' :: inner := by
  have solid : ¬ isGap c = true := fun gap => blank_ne (gap_blank gap) (plain_not_blank plain) rfl
  rw [List.dropWhile_cons_of_neg solid]
  exact fun group => plain_ne plain (by decide) (List.cons.inj group).1

/-- A plain word stays when it ends and no group follows. Characters outside ASCII cut it into runs, each of
which is looked at as a word of its own. -/
theorem strip_plain {word rest : List Char} (plain : ∀ c ∈ word, isPlainChar c = true)
    (ends : ∀ c ∈ rest.head?, isChar c = false) (bare : ∀ inner, rest.dropWhile isGap ≠ '(' :: inner) :
    stripAttributes (word ++ rest) = word ++ stripAttributes rest := by
  -- a run goes at once, so the induction is on the length
  induction length : word.length using Nat.strongRecOn generalizing word with
  | ind count ih =>
    cases word with
    | nil => rfl
    | cons c tail =>
      obtain ⟨_, later⟩ := List.forall_mem_cons.1 plain
      rw [List.length_cons] at length
      by_cases starts : isStart c = true
      · obtain ⟨front, back, rfl, chars, stops⟩ := word_first tail
        have behind := (List.forall_mem_append.1 later).2
        have ends' : ∀ d ∈ (back ++ rest).head?, isChar d = false := by
          cases back with
          | nil => exact ends
          | cons d back => exact stops
        have cut := word_cut chars ends'
        have bare' : groupOf? c (front ++ (back ++ rest)) = none := by
          refine Option.eq_none_iff_forall_ne_some.2 fun inner group => ?_
          rw [group_of_iff, cut.2] at group
          cases back with
          | nil => exact bare inner group.2
          | cons d back => exact word_opens_no_group (behind d List.mem_cons_self) group.2
        have rest' := ih back.length (by rw [List.length_append] at length; omega) behind rfl
        rw [List.cons_append, List.append_assoc, strip_kept starts bare', cut.1, cut.2, rest',
          List.cons_append, List.cons_append, List.append_assoc]
      · rw [List.cons_append, Spaced.strip_other (Bool.eq_false_iff.2 starts), ih tail.length (by omega) later rfl,
          List.cons_append]

/-- An attribute goes with its group. -/
theorem strip_grouped (known : isAttribute (String.ofList word) = true) (gaps : ∀ c ∈ gap, isGap c = true)
    (paired : Parenthesized inner) (rest : List Char) :
    stripAttributes (word ++ (gap ++ '(' :: (inner ++ ')' :: rest))) = ' ' :: stripAttributes rest := by
  obtain ⟨starts, chars⟩ := attribute_word known
  cases word with
  | nil => cases starts
  | cons c tail =>
    have ends : ∀ d ∈ (gap ++ '(' :: (inner ++ ')' :: rest)).head?, isChar d = false := by
      cases gap with
      | nil =>
        rintro d ⟨⟩
        decide
      | cons e gap =>
        rintro d ⟨⟩
        exact gap_not_char (gaps e List.mem_cons_self)
    have cut := word_cut (List.forall_mem_cons.1 (List.all_eq_true.1 chars)).2 ends
    have opens : (gap ++ '(' :: (inner ++ ')' :: rest)).dropWhile isGap = '(' :: (inner ++ ')' :: rest) := by
      rw [List.dropWhile_append_of_pos gaps, List.dropWhile_cons_of_neg (by decide)]
    have group : groupOf? c (tail ++ (gap ++ '(' :: (inner ++ ')' :: rest))) = some (inner ++ ')' :: rest) := by
      rw [group_of_iff, cut.1, cut.2]
      exact ⟨known, opens⟩
    rw [List.cons_append, strip_group starts group, after_group_paired paired 0, afterGroup, if_pos (Nat.le_refl 1)]

/-! ## The words of a text of specifiers -/

/-- No group opens behind white space that stands in front of a word. -/
theorem no_group_behind {text : List Char} (blank : ∀ c ∈ gap, Text.isBlank c = true)
    (starts : ∀ c ∈ text.head?, isPlainChar c = true) (inner : List Char) :
    (gap ++ text).dropWhile isGap ≠ '(' :: inner := by
  induction gap with
  | nil =>
    cases text with
    | nil => exact fun group => List.cons_ne_nil _ _ group.symm
    | cons c text => exact word_opens_no_group (starts c rfl)
  | cons c gap ih =>
    obtain ⟨here, later⟩ := List.forall_mem_cons.1 blank
    rw [List.cons_append]
    by_cases passed : isGap c = true
    · rw [List.dropWhile_cons_of_pos passed]
      exact ih later
    · rw [List.dropWhile_cons_of_neg passed]
      exact fun group => blank_ne here (by decide) (List.cons.inj group).1

namespace Specifier

/-- A specifier starts with a character of a word. -/
theorem text_starts (item : Specifier) : ∃ c rest, item.text = c :: rest ∧ isPlainChar c = true := by
  cases item with
  | plain word nonempty chars =>
    obtain ⟨c, rest, rfl⟩ := List.exists_cons_of_ne_nil nonempty
    exact ⟨c, rest, rfl, chars c List.mem_cons_self⟩
  | grouped word gap inner known =>
    obtain ⟨starts, chars⟩ := attribute_word known
    cases word with
    | nil => cases starts
    | cons c rest =>
      exact ⟨c, _, rfl, char_is_plain (List.all_eq_true.1 chars c List.mem_cons_self)⟩

/-- Nothing in a specifier is read as another character. -/
theorem text_plain (item : Specifier) {rest : List Char} (plain : isPlainText rest = true) :
    isPlainText (item.text ++ rest) = true := by
  have quiet {word : List Char} (chars : ∀ c ∈ word, isPlainChar c = true) : ∀ c ∈ word, c ≠ '?' ∧ c ≠ '\\' :=
    fun c member => ⟨plain_ne (chars c member) (by decide), plain_ne (chars c member) (by decide)⟩
  cases item with
  | plain word nonempty chars => rwa [text, plain_quiet (quiet chars)]
  | grouped word gap inner known gaps paired marks backslash =>
    have chars : ∀ c ∈ word, isPlainChar c = true :=
      fun c member => char_is_plain (List.all_eq_true.1 (attribute_word known).2 c member)
    have blank : ∀ c ∈ gap ++ ['('], c ≠ '?' ∧ c ≠ '\\' := by
      rw [List.forall_mem_append, List.forall_mem_singleton]
      exact ⟨fun c member => ⟨blank_ne (gap_blank (gaps c member)) (by decide),
        blank_ne (gap_blank (gaps c member)) (by decide)⟩, by decide⟩
    have behind : isPlainText (')' :: rest) = true := by
      rw [← List.singleton_append, plain_quiet (List.forall_mem_singleton.2 (by decide))]
      exact plain
    have whole : text (.grouped word gap inner known gaps paired marks backslash) ++ rest =
        word ++ ((gap ++ ['(']) ++ (inner ++ ')' :: rest)) := by
      simp only [text, List.append_assoc, List.cons_append, List.nil_append]
    rw [whole, plain_quiet (quiet chars), plain_quiet blank]
    exact plain_seam (plain_of_no_marks marks backslash) (by decide) (.inr fun ends => marks ends.isInfix) behind

/-- The words of a text that starts with a specifier: its own, if it is a plain word, and those behind it. -/
theorem words_front (item : Specifier) {gap rest : List Char} (blank : ∀ c ∈ gap, Text.isBlank c = true)
    (apart : item.word?.isSome = true → gap = [] → rest = []) (starts : ∀ c ∈ rest.head?, isPlainChar c = true) :
    Text.words (stripAttributes (item.text ++ (gap ++ rest))) =
      item.word?.toList ++ Text.words (stripAttributes rest) := by
  have others : ∀ c ∈ gap, isStart c = false := fun c member => blank_not_start (blank c member)
  cases item with
  | plain word nonempty chars =>
    have ends : ∀ c ∈ (gap ++ rest).head?, isChar c = false := by
      cases gap with
      | nil =>
        rw [apart rfl rfl]
        simp
      | cons d gap =>
        rintro c ⟨⟩
        exact blank_not_char (blank d List.mem_cons_self)
    rw [text, strip_plain chars ends (no_group_behind blank starts), Spaced.strip_others others, Text.words,
      words_from_word fun c member => plain_not_blank (chars c member), List.nil_append]
    by_cases wide : gap = []
    · rw [apart rfl wide, wide, stripAttributes, List.append_nil, Text.wordsFrom, if_neg (by simpa using nonempty)]
      rfl
    · rw [Text.words_from_gap blank wide, Text.flushed, if_neg (by simpa using nonempty)]
      rfl
  | grouped word space inner known gaps paired marks backslash =>
    have whole : text (.grouped word space inner known gaps paired marks backslash) ++ (gap ++ rest) =
        word ++ (space ++ '(' :: (inner ++ ')' :: (gap ++ rest))) := by
      simp only [text, List.append_assoc, List.cons_append, List.nil_append]
    rw [whole, strip_grouped known gaps paired, Spaced.strip_others others, ← List.cons_append, Text.words,
      Text.words_from_gap (List.forall_mem_cons.2 ⟨by decide, blank⟩) (List.cons_ne_nil _ _)]
    rfl

end Specifier

namespace SpecifierText
open Specifier

variable {items : List Specifier} {text : List Char}

theorem starts (written : SpecifierText items text) : ∀ c ∈ text.head?, isPlainChar c = true := by
  cases written with
  | nil => simp
  | last item =>
    obtain ⟨c, rest, front, plain⟩ := item.text_starts
    rw [front]
    rintro d ⟨⟩
    exact plain
  | more item =>
    obtain ⟨c, rest, front, plain⟩ := item.text_starts
    rw [front]
    rintro d ⟨⟩
    exact plain

theorem plain_text (written : SpecifierText items text) : isPlainText text = true := by
  induction written with
  | nil => rfl
  | last item =>
    have plain := @text_plain item [] rfl
    rwa [List.append_nil] at plain
  | more item blank _ _ ih =>
    refine item.text_plain ?_
    rwa [plain_quiet fun c member => ⟨blank_ne (blank c member) (by decide), blank_ne (blank c member) (by decide)⟩]

theorem words (written : SpecifierText items text) :
    Text.words (stripAttributes text) = items.filterMap Specifier.word? := by
  induction written with
  | nil =>
    rw [stripAttributes]
    rfl
  | last item =>
    have front := @words_front item [] [] (by simp) (fun _ _ => rfl) (by simp)
    rw [List.append_nil, List.append_nil, stripAttributes] at front
    rw [front]
    cases item <;> rfl
  | more item blank apart behind ih =>
    rw [item.words_front blank (fun plain none => absurd none (apart plain)) behind.starts, ih]
    cases item <;> rfl

end SpecifierText

/-! ## The scan by bytes -/

open Text

theorem wide_not_char (wide : IsWide c) : isChar c = false := by
  have number : c.toNat = c.val.toNat := rfl
  rw [Bool.eq_false_iff]
  intro char
  unfold isChar Char.isAlphanum Char.isAlpha Char.isUpper Char.isLower Char.isDigit at char
  simp only [Bool.or_eq_true, Bool.and_eq_true, decide_eq_true_eq, UInt32.le_iff_toNat_le, ge_iff_le,
    beq_iff_eq] at char
  rcases char with range | rfl
  · have bounds : 'Z'.val.toNat = 90 ∧ 'z'.val.toNat = 122 ∧ '9'.val.toNat = 57 := by decide
    rw [IsWide] at wide
    omega
  · exact absurd wide (by decide)

theorem wide_not_start (wide : IsWide c) : isStart c = false := by
  rw [Bool.eq_false_iff]
  intro starts
  have char := start_is_char starts
  rw [wide_not_char wide] at char
  cases char

theorem wide_not_gap (wide : IsWide c) : isGap c = false := by
  rw [Bool.eq_false_iff]
  intro gap
  rcases gap_cases gap with rfl | rfl | rfl | rfl | rfl <;> exact absurd wide (by decide)

/-- A run of ASCII characters ends at the same place in bytes. -/
theorem cut_bytes {p : Char → Bool} (narrow : ∀ c, IsWide c → p c = false) (cs : List Char) :
    (bytes cs).takeWhile p = cs.takeWhile p ∧ (bytes cs).dropWhile p = bytes (cs.dropWhile p) := by
  induction cs with
  | nil => exact ⟨rfl, rfl⟩
  | cons c cs ih =>
    by_cases wide : IsWide c
    · obtain ⟨u, us, parts, wideU, _⟩ := units_cons wide
      have stops : ¬ p c = true := by rw [narrow c wide]; exact Bool.false_ne_true
      have stopsU : ¬ p u = true := by rw [narrow u wideU]; exact Bool.false_ne_true
      rw [List.takeWhile_cons_of_neg stops, List.dropWhile_cons_of_neg stops, bytes_cons, parts, List.cons_append,
        List.takeWhile_cons_of_neg stopsU, List.dropWhile_cons_of_neg stopsU]
      exact ⟨rfl, rfl⟩
    · rw [bytes_narrow wide]
      by_cases passes : p c = true
      · rw [List.takeWhile_cons_of_pos passes, List.takeWhile_cons_of_pos passes,
          List.dropWhile_cons_of_pos passes, List.dropWhile_cons_of_pos passes, ih.1]
        exact ⟨rfl, ih.2⟩
      · rw [List.takeWhile_cons_of_neg passes, List.takeWhile_cons_of_neg passes,
          List.dropWhile_cons_of_neg passes, List.dropWhile_cons_of_neg passes, bytes_narrow wide]
        exact ⟨rfl, rfl⟩

theorem after_group_wide {us : List Char} (wide : ∀ u ∈ us, IsWide u) (depth : Nat) (rest : List Char) :
    afterGroup depth (us ++ rest) = afterGroup depth rest := by
  induction us with
  | nil => rfl
  | cons u us ih =>
    obtain ⟨here, later⟩ := List.forall_mem_cons.1 wide
    rw [List.cons_append, after_group_other (wide_ne here (by decide)) (wide_ne here (by decide)), ih later]

/-- A group ends at the same place in bytes. -/
theorem after_group_bytes (depth : Nat) (cs : List Char) :
    afterGroup depth (bytes cs) = bytes (afterGroup depth cs) := by
  induction cs generalizing depth with
  | nil => rfl
  | cons c cs ih =>
    by_cases wide : IsWide c
    · rw [bytes_cons, after_group_wide (units_wide wide), ih,
        after_group_other (wide_ne wide (by decide)) (wide_ne wide (by decide))]
    · rw [bytes_narrow wide]
      by_cases opens : c = '('
      · subst opens
        rw [afterGroup, afterGroup, ih]
      · by_cases closes : c = ')'
        · subst closes
          rw [afterGroup, afterGroup, ih]
          split <;> rfl
        · rw [after_group_other opens closes, after_group_other opens closes, ih]

/-- A text of ASCII characters is its own bytes. -/
theorem bytes_chars (chars : ∀ c ∈ word, isChar c = true) : bytes word = word := by
  induction word with
  | nil => rfl
  | cons c word ih =>
    obtain ⟨here, later⟩ := List.forall_mem_cons.1 chars
    have narrow : ¬ IsWide c := fun wide => by
      rw [wide_not_char wide] at here
      cases here
    rw [bytes_narrow narrow, ih later]

theorem group_of_bytes (c : Char) (rest : List Char) : groupOf? c (bytes rest) = (groupOf? c rest).map bytes := by
  have word := cut_bytes (fun _ => wide_not_char) rest
  have gap := cut_bytes (fun _ => wide_not_gap) (rest.dropWhile isChar)
  cases group : groupOf? c rest with
  | some inner =>
    rw [group_of_iff] at group
    rw [Option.map_some, group_of_iff, word.1, word.2, gap.2, group.2, bytes_narrow (by decide)]
    exact ⟨group.1, rfl⟩
  | none =>
    refine Option.eq_none_iff_forall_ne_some.2 fun inner found => ?_
    rw [group_of_iff, word.1, word.2, gap.2] at found
    have head := (head_bytes (c := '(') (by decide) ((rest.dropWhile isChar).dropWhile isGap)).1 (by rw [found.2]; rfl)
    obtain ⟨inner', opens⟩ := List.head?_eq_some_iff.1 head
    rw [group_of_iff.2 ⟨found.1, opens⟩] at group
    cases group

/-- Attributes are taken out of the bytes of a text as they are out of the text. -/
theorem strip_bytes (cs : List Char) : stripAttributes (bytes cs) = bytes (stripAttributes cs) := by
  -- a whole word or group goes at once, so the induction is on the length
  induction length : cs.length using Nat.strongRecOn generalizing cs with
  | ind count ih =>
    cases cs with
    | nil => rw [bytes, List.flatMap_nil, stripAttributes, bytes, List.flatMap_nil]
    | cons c rest =>
      rw [List.length_cons] at length
      by_cases starts : isStart c = true
      · have narrow : ¬ IsWide c := fun wide => by
          rw [wide_not_start wide] at starts
          cases starts
        have bytewise := group_of_bytes c rest
        rw [bytes_narrow narrow]
        cases group : groupOf? c rest with
        | some inner =>
          rw [group, Option.map_some] at bytewise
          have shorter := group_of_length group
          have behind := after_group_length 1 inner
          rw [strip_group starts group, strip_group starts bytewise, after_group_bytes, ih _ (by omega) _ rfl,
            bytes_narrow (by decide)]
        | none =>
          rw [group, Option.map_none] at bytewise
          have word := cut_bytes (fun _ => wide_not_char) rest
          have shorter := (List.dropWhile_sublist isChar (l := rest)).length_le
          rw [strip_kept starts group, strip_kept starts bytewise, word.1, word.2, ih _ (by omega) _ rfl, bytes_append,
            bytes_chars (List.forall_mem_cons.2 ⟨start_is_char starts, fun d member => List.mem_takeWhile_imp member⟩)]
      · have others : ∀ u ∈ units c, isStart u = false := by
          by_cases wide : IsWide c
          · exact fun u member => wide_not_start (units_wide wide u member)
          · rw [units_narrow wide, List.forall_mem_singleton]
            exact Bool.eq_false_iff.2 starts
        rw [bytes_cons, Spaced.strip_others others, ih rest.length (by omega) rest rfl,
          Spaced.strip_other (Bool.eq_false_iff.2 starts), bytes_cons]

/-- The scan that takes attributes out, under way: it copies what it reads, or it is inside the group of
an attribute and counts the parentheses that are open. A count that is taken below zero stops it. -/
inductive AttributeScan where
  | copying (rest out : List Char)
  | skipping (depth : Nat) (rest out : List Char)
  | underflow
deriving Repr, DecidableEq

namespace AttributeScan

/-- Past a character inside a group. The group ends when the count comes back to zero. -/
def skip (depth : Nat) (c : Char) (rest out : List Char) : AttributeScan :=
  if c = '(' then skipping (depth + 1) rest out
  else if c = ')' then
    if depth = 0 then underflow
    else if depth = 1 then copying rest (out ++ [' '])
    else skipping (depth - 1) rest out
  else skipping depth rest out

/-- Past a word, or to the group behind it. Nothing of the group has been counted then. -/
def pass (c : Char) (rest out : List Char) : AttributeScan :=
  match groupOf? c rest with
  | some inner => skipping 0 ('(' :: inner) out
  | none => copying (rest.dropWhile isChar) (out ++ c :: rest.takeWhile isChar)

/-- One step of the scan. A scan without a step has ended. -/
def step : AttributeScan → Option AttributeScan
  | copying [] _ => none
  | copying (c :: rest) out => some (if isStart c then pass c rest out else copying rest (out ++ [c]))
  | skipping _ [] out => some (copying [] (out ++ [' ']))
  | skipping depth (c :: rest) out => some (skip depth c rest out)
  | underflow => none

/-- One step leads from a scan to the next. -/
def Step (s next : AttributeScan) : Prop :=
  s.step = some next

/-- What the scan has written when it is at its end. -/
def result : AttributeScan → List Char
  | copying rest out => out ++ stripAttributes rest
  | skipping depth rest out => out ++ ' ' :: stripAttributes (afterGroup depth rest)
  | underflow => []

/-- Inside a group a parenthesis is open, or the next one opens the group. -/
def Counts : AttributeScan → Prop
  | copying _ _ => True
  | skipping depth rest _ => 0 < depth ∨ rest.head? = some '('
  | underflow => False

/-- How far the scan is from its end. -/
def distance : AttributeScan → Nat
  | copying rest _ => 2 * rest.length
  | skipping _ rest _ => 2 * rest.length + 1
  | underflow => 0

theorem skip_keeps {depth : Nat} {c : Char} {rest out : List Char} (counts : (skipping depth (c :: rest) out).Counts) :
    (skip depth c rest out).Counts ∧ (skip depth c rest out).result = (skipping depth (c :: rest) out).result ∧
      (skip depth c rest out).distance < (skipping depth (c :: rest) out).distance := by
  have nearer : 2 * rest.length + 1 < 2 * (c :: rest).length + 1 := by
    rw [List.length_cons]
    omega
  rw [skip]
  by_cases opens : c = '('
  · subst opens
    rw [if_pos rfl]
    exact ⟨.inl (Nat.succ_pos depth), rfl, nearer⟩
  · -- the count started at the opening parenthesis, so it is not zero any more
    have inside : 0 < depth := counts.resolve_right fun first => opens (Option.some.inj first)
    rw [if_neg opens]
    by_cases closes : c = ')'
    · subst closes
      rw [if_pos rfl, if_neg (by omega), result, afterGroup]
      by_cases last : depth = 1
      · rw [if_pos last, if_pos (by omega), result, List.append_assoc]
        exact ⟨trivial, rfl, Nat.lt_of_succ_lt nearer⟩
      · rw [if_neg last, if_neg (by omega), result]
        exact ⟨.inl (by omega), rfl, nearer⟩
    · rw [if_neg closes, result, result, after_group_other opens closes]
      exact ⟨.inl inside, rfl, nearer⟩

theorem pass_keeps {c : Char} (starts : isStart c = true) (rest out : List Char) :
    (pass c rest out).Counts ∧ (pass c rest out).result = (copying (c :: rest) out).result ∧
      (pass c rest out).distance < (copying (c :: rest) out).distance := by
  rw [pass]
  cases group : groupOf? c rest with
  | some inner =>
    have shorter := group_of_length group
    refine ⟨.inr rfl, ?_, ?_⟩
    · rw [result, result, strip_group starts group, afterGroup]
    · simp only [distance, List.length_cons]
      omega
  | none =>
    have shorter := (List.dropWhile_sublist isChar (l := rest)).length_le
    refine ⟨trivial, ?_, ?_⟩
    · rw [result, result, strip_kept starts group, List.append_assoc]
    · simp only [distance, List.length_cons]
      omega

/-- A step keeps a parenthesis open inside a group, keeps what will have been written in the end, and
comes nearer to the end. -/
theorem step_keeps {s next : AttributeScan} (step : s.Step next) (counts : s.Counts) :
    next.Counts ∧ next.result = s.result ∧ next.distance < s.distance := by
  cases s with
  | copying rest out =>
    cases rest with
    | nil => cases step
    | cons c rest =>
      cases step
      by_cases starts : isStart c = true
      · rw [if_pos starts]
        exact pass_keeps starts rest out
      · rw [if_neg starts]
        refine ⟨trivial, ?_, ?_⟩
        · rw [result, result, Spaced.strip_other (Bool.eq_false_iff.2 starts), List.append_assoc,
            List.singleton_append]
        · simp only [distance, List.length_cons]
          omega
  | skipping depth rest out =>
    cases rest with
    | nil =>
      cases step
      refine ⟨trivial, ?_, Nat.lt_succ_self _⟩
      rw [result, result, afterGroup, List.append_assoc, List.singleton_append]
    | cons c rest =>
      cases step
      exact skip_keeps counts
  | underflow => cases counts

/-- The scan ends, with nothing left to read. -/
theorem scan_ends (s : AttributeScan) (counts : s.Counts) : Relation.ReflTransGen Step s (copying [] s.result) := by
  cases step : s.step with
  | none =>
    -- only a scan that has read everything has no step
    cases s with
    | copying rest out =>
      cases rest with
      | nil => rw [result, stripAttributes, List.append_nil]
      | cons c rest => cases step
    | skipping depth rest out => cases rest <;> cases step
    | underflow => cases counts
  | some next =>
    obtain ⟨counts', result', nearer⟩ := step_keeps step counts
    rw [← result']
    exact .head step (scan_ends next counts')
termination_by s.distance

theorem reached_counts {s t : AttributeScan} (run : Relation.ReflTransGen Step s t) (counts : s.Counts) :
    t.Counts := by
  induction run with
  | refl => exact counts
  | tail _ step ih => exact (step_keeps step ih).1

end AttributeScan

/-- The type words of specifiers are the plain words among them that are no storage words, in order,
whatever the groups of the attributes hold. The scan that takes the attributes out of the bytes of a text ends
with the bytes of the text without them, and its count of parentheses is never taken below zero, be they in
pairs or not. -/
theorem type_words_of_specifiers :
    (∀ items text, SpecifierText items text →
      typeWords (String.ofList text) = (items.filterMap Specifier.word?).filter (!isStorage ·)) ∧
    ∀ text : String, Relation.ReflTransGen AttributeScan.Step (.copying (bytes text.toList) [])
        (.copying [] (bytes (stripAttributes text.toList))) ∧
      ∀ s, Relation.ReflTransGen AttributeScan.Step (.copying (bytes text.toList) []) s → s ≠ .underflow := by
  refine ⟨fun items text written => ?_, fun text => ⟨?_, fun s run stopped => ?_⟩⟩
  · rw [type_words_plain written.plain_text, typeWordsOf, written.words]
  · have ends := AttributeScan.scan_ends (.copying (bytes text.toList) []) trivial
    rwa [AttributeScan.result, List.nil_append, strip_bytes] at ends
  · have counts := AttributeScan.reached_counts run trivial
    rw [stopped] at counts
    exact counts

/-- A storage word, an attribute with groups inside its group, and a type word right behind it. -/
theorem type_words_of_specifiers_grouped :
    ∃ items, SpecifierText items "static alignas\n((p(8)))int".toList ∧
      typeWords "static alignas\n((p(8)))int" = ["int"] := by
  have known : isAttribute (String.ofList ['a', 'l', 'i', 'g', 'n', 'a', 's']) = true := by decide
  have number : Parenthesized ['(', '8', ')'] :=
    @Parenthesized.group ['8'] [] (.char (by decide) (by decide) .nil) .nil
  have paired : Parenthesized ['(', 'p', '(', '8', ')', ')'] :=
    @Parenthesized.group ['p', '(', '8', ')'] [] (.char (by decide) (by decide) number) .nil
  have marks : ¬ ['?', '?'] <:+: ['(', 'p', '(', '8', ')', ')'] :=
    fun inside => absurd (inside.subset List.mem_cons_self) (by decide)
  let storage : Specifier := .plain "static".toList (by decide) (List.all_eq_true.1 (by decide))
  let aligned : Specifier :=
    .grouped _ ['\n'] _ known (List.forall_mem_singleton.2 (by decide)) paired marks (by decide)
  let type : Specifier := .plain "int".toList (by decide) (List.all_eq_true.1 (by decide))
  have behind : SpecifierText [aligned, type] "alignas\n((p(8)))int".toList :=
    @SpecifierText.more _ [] _ aligned (List.forall_mem_nil _) (fun plain => Bool.noConfusion plain) (.last type)
  have written : SpecifierText [storage, aligned, type] "static alignas\n((p(8)))int".toList :=
    @SpecifierText.more _ [' '] _ storage (List.forall_mem_singleton.2 (by decide)) (fun _ => List.cons_ne_nil _ _)
      behind
  exact ⟨_, written, type_words_of_specifiers.1 _ _ written⟩

end Word

end AllocGuard
