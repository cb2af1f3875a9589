import Mathlib.Data.List.DropRight
import AllocGuard.Header

/-! White space between the words of a text. Two texts that have the same characters apart from
gaps of white space, and that keep their words together and apart in the same places, have the
same words wherever these are plain words: no trimming, no cutting out of attributes and no
splitting into words tells them apart. Other characters may stand with or without a gap between
them. -/
namespace AllocGuard

namespace Text

variable {gap : List Char} {c : Char}

theorem trim_eq (cs : List Char) : trimChars cs = (cs.dropWhile isBlank).rdropWhile isBlank := rfl

theorem trim_end_append {front back : List Char} (word : ¬ ∀ c ∈ back, isBlank c = true) :
    (front ++ back).rdropWhile isBlank = front ++ back.rdropWhile isBlank := by
  have some : back.reverse.dropWhile isBlank ≠ [] := by
    rw [ne_eq, List.dropWhile_eq_nil_iff]
    simpa using word
  rw [List.rdropWhile, List.reverse_append, List.dropWhile_append, if_neg (by simpa using some),
    List.reverse_append, List.reverse_reverse, List.rdropWhile]

/-- The first character stays unless nothing does. -/
theorem trim_end_cons {rest : List Char} (word : ¬ ∀ d ∈ c :: rest, isBlank d = true) :
    (c :: rest).rdropWhile isBlank = c :: rest.rdropWhile isBlank := by
  by_cases blank : ∀ d ∈ rest, isBlank d = true
  · have first : isBlank c = false :=
      Bool.eq_false_iff.2 fun here => word (List.forall_mem_cons.2 ⟨here, blank⟩)
    rw [List.rdropWhile_eq_nil_iff.2 blank, List.rdropWhile, List.reverse_cons, List.dropWhile_append,
      List.dropWhile_eq_nil_iff.2 (by simpa using blank)]
    simp [List.dropWhile, first]
  · exact @trim_end_append [c] rest blank

theorem trim_idem (cs : List Char) : trimChars (trimChars cs) = trimChars cs := by
  rw [trim_eq cs]
  cases kept : cs.dropWhile isBlank with
  | nil => rfl
  | cons c rest =>
    have first : isBlank c = false := by
      have head := List.head?_dropWhile_not isBlank cs
      rwa [kept] at head
    have word (rest : List Char) : ¬ ∀ d ∈ c :: rest, isBlank d = true := by simp [first]
    rw [trim_end_cons (word rest), trim_eq, List.dropWhile_cons_of_neg (by simp [first]),
      trim_end_cons (word _), List.rdropWhile_idempotent]

theorem trim_around {front word back : List Char} (before : ∀ c ∈ front, isBlank c = true)
    (chars : ∀ c ∈ word, isBlank c = false) (behind : ∀ c ∈ back, isBlank c = true) :
    trimChars (front ++ (word ++ back)) = word := by
  have kept : (word ++ back).rdropWhile isBlank = word := by
    rw [List.rdropWhile, List.reverse_append, List.dropWhile_append_of_pos (by simpa using behind),
      ← List.rdropWhile, List.rdropWhile_eq_self_iff]
    intro nonempty
    simp [chars _ (List.getLast_mem nonempty)]
  rw [trim_eq, List.dropWhile_append_of_pos before]
  cases word with
  | nil => rw [List.nil_append, List.dropWhile_eq_nil_iff.2 behind, List.rdropWhile_nil]
  | cons c rest =>
    rw [List.cons_append, List.dropWhile_cons_of_neg (by simp [chars c List.mem_cons_self])]
    exact kept

/-- The words when a blank follows the run that is being read. -/
def flushed (run : List Char) (later : List (List Char)) : List (List Char) :=
  if run.isEmpty then later else run :: later

theorem mem_flushed {run word : List Char} {later : List (List Char)} (member : word ∈ later) :
    word ∈ flushed run later := by
  rw [flushed]
  split
  · exact member
  · exact List.mem_cons_of_mem _ member

theorem words_from_blank (blank : isBlank c = true) (run rest : List Char) :
    wordsFrom run (c :: rest) = flushed run (wordsFrom [] rest) := by
  rw [wordsFrom, if_pos blank]
  rfl

theorem words_from_char (word : isBlank c = false) (run rest : List Char) :
    wordsFrom run (c :: rest) = wordsFrom (run ++ [c]) rest := by
  rw [wordsFrom, if_neg (by simp [word])]

theorem words_from_gap (blank : ∀ c ∈ gap, isBlank c = true) (wide : gap ≠ []) (run rest : List Char) :
    wordsFrom run (gap ++ rest) = flushed run (wordsFrom [] rest) := by
  induction gap generalizing run with
  | nil => exact absurd rfl wide
  | cons c more ih =>
    rw [List.cons_append, words_from_blank (blank c List.mem_cons_self)]
    cases more with
    | nil => rfl
    | cons d more =>
      rw [ih (fun e member => blank e (List.mem_cons_of_mem _ member)) (by simp)]
      rfl

theorem words_from_end (blank : ∀ c ∈ gap, isBlank c = true) (run : List Char) :
    wordsFrom run gap = flushed run [] := by
  by_cases wide : gap = []
  · subst wide
    rfl
  · have whole := words_from_gap blank wide run []
    rwa [List.append_nil] at whole

/-- The words when a character of a word follows, with a gap in front of it or without. -/
theorem words_from_next (blank : ∀ c ∈ gap, isBlank c = true) (word : isBlank c = false) (run rest : List Char) :
    wordsFrom run (gap ++ c :: rest) =
      if gap = [] then wordsFrom (run ++ [c]) rest else flushed run (wordsFrom [c] rest) := by
  split
  · rename_i empty
    rw [empty, List.nil_append, words_from_char word]
  · rename_i wide
    rw [words_from_gap blank wide, words_from_char word]
    rfl

/-- The run that is being read becomes the front of a word. -/
theorem words_from_run {run : List Char} (nonempty : run ≠ []) (cs : List Char) :
    ∃ word ∈ wordsFrom run cs, ∀ c ∈ run, c ∈ word := by
  induction cs generalizing run with
  | nil => exact ⟨run, by simp [wordsFrom, nonempty], fun c member => member⟩
  | cons d rest ih =>
    by_cases blank : isBlank d = true
    · refine ⟨run, ?_, fun c member => member⟩
      rw [words_from_blank blank, flushed, if_neg (by simpa using nonempty)]
      exact List.mem_cons_self
    · obtain ⟨word, member, holds⟩ := @ih (run ++ [d]) (by simp)
      rw [words_from_char (Bool.eq_false_iff.2 blank)]
      exact ⟨word, member, fun c inside => holds c (List.mem_append_left _ inside)⟩

end Text

namespace Word

variable {c : Char} {prev : Bool} {cs cs' : List Char} {names : List String}

/-- The texts differ in their gaps only, and between two word characters one has a gap if the
other has. The flag tells whether a word character stands right in front of the texts. -/
inductive Spaced : Bool → List Char → List Char → Prop where
  | done {prev : Bool} {gap gap' : List Char} (blank : ∀ c ∈ gap, isGap c = true)
      (blank' : ∀ c ∈ gap', isGap c = true) : Spaced prev gap gap'
  | next {prev : Bool} {c : Char} {gap gap' rest rest' : List Char}
      (blank : ∀ c ∈ gap, isGap c = true) (blank' : ∀ c ∈ gap', isGap c = true)
      (apart : prev = true → isChar c = true → (gap = [] ↔ gap' = []))
      (later : Spaced (isChar c) rest rest') :
      Spaced prev (gap ++ c :: rest) (gap' ++ c :: rest')

/-! ## Characters -/

theorem gap_cases (gap : isGap c = true) : c = ' ' ∨ c = '\t' ∨ c = '\n' ∨ c = '\x0c' ∨ c = '\r' := by
  simpa [isGap, or_assoc] using gap

theorem gap_not_char (gap : isGap c = true) : isChar c = false := by
  rcases gap_cases gap with rfl | rfl | rfl | rfl | rfl <;> decide

theorem gap_not_start (gap : isGap c = true) : isStart c = false := by
  rcases gap_cases gap with rfl | rfl | rfl | rfl | rfl <;> decide

theorem gap_blank (gap : isGap c = true) : Text.isBlank c = true := by
  rcases gap_cases gap with rfl | rfl | rfl | rfl | rfl <;> decide

theorem start_is_char (starts : isStart c = true) : isChar c = true := by
  simp only [isStart, isChar, Char.isAlphanum, Bool.or_eq_true] at starts ⊢
  rcases starts with alpha | underscore
  · exact .inl (.inl alpha)
  · exact .inr underscore

theorem char_not_blank (word : isChar c = true) : Text.isBlank c = false := by
  have number : c.toNat = c.val.toNat := rfl
  unfold isChar Char.isAlphanum Char.isAlpha Char.isUpper Char.isLower Char.isDigit at word
  simp only [Bool.or_eq_true, Bool.and_eq_true, decide_eq_true_eq, UInt32.le_iff_toNat_le, ge_iff_le,
    beq_iff_eq] at word
  rcases word with range | rfl
  · rw [Bool.eq_false_iff]
    simp only [Text.isBlank, ne_eq, Bool.or_eq_true, Bool.and_eq_true, decide_eq_true_eq, beq_iff_eq]
    have bounds : 'A'.val.toNat = 65 ∧ 'Z'.val.toNat = 90 ∧ 'a'.val.toNat = 97 ∧ 'z'.val.toNat = 122 ∧
        '0'.val.toNat = 48 ∧ '9'.val.toNat = 57 := by decide
    omega
  · decide

/-! ## The relation -/

namespace Spaced

variable {gap : List Char} {prev' : Bool}

theorem symm (spaced : Spaced prev cs cs') : Spaced prev cs' cs := by
  induction spaced with
  | done blank blank' => exact .done blank' blank
  | next blank blank' apart _ ih => exact .next blank' blank (fun word word' => (apart word word').symm) ih

theorem weaken (spaced : Spaced prev cs cs') : Spaced false cs cs' := by
  cases spaced with
  | done blank blank' => exact .done blank blank'
  | next blank blank' _ later => exact .next blank blank' (fun word => nomatch word) later

/-- Gaps in front of both texts make them texts of their own. -/
theorem gaps {gap' : List Char} (blank : ∀ c ∈ gap, isGap c = true) (blank' : ∀ c ∈ gap', isGap c = true)
    (wide : gap ≠ []) (wide' : gap' ≠ []) (spaced : Spaced prev' cs cs') : Spaced prev (gap ++ cs) (gap' ++ cs') := by
  cases spaced with
  | done more more' =>
    exact .done (by simpa [or_imp, forall_and] using ⟨blank, more⟩)
      (by simpa [or_imp, forall_and] using ⟨blank', more'⟩)
  | next more more' _ later =>
    rw [← List.append_assoc, ← List.append_assoc]
    exact .next (by simpa [or_imp, forall_and] using ⟨blank, more⟩)
      (by simpa [or_imp, forall_and] using ⟨blank', more'⟩) (by simp [wide, wide']) later

theorem space {prev prev' : Bool} {gap gap' cs cs' : List Char} (blank : ∀ c ∈ gap, isGap c = true)
    (blank' : ∀ c ∈ gap', isGap c = true) (spaced : Spaced prev' cs cs') :
    Spaced prev (gap ++ ' ' :: cs) (gap' ++ ' ' :: cs') := by
  have isGap_space : isGap ' ' = true := by decide
  rw [List.append_cons gap ' ' cs, List.append_cons gap' ' ' cs']
  exact gaps (by simpa [or_imp, forall_and] using ⟨blank, isGap_space⟩)
    (by simpa [or_imp, forall_and] using ⟨blank', isGap_space⟩) (by simp) (by simp) spaced

theorem char {prev : Bool} {c : Char} {rest rest' : List Char} (later : Spaced (isChar c) rest rest') :
    Spaced prev (c :: rest) (c :: rest') :=
  @Spaced.next prev c [] [] rest rest' (by simp) (by simp) (fun _ _ => Iff.rfl) later

theorem word {word : List Char} (chars : ∀ c ∈ word, isChar c = true) (spaced : Spaced true cs cs') :
    Spaced true (word ++ cs) (word ++ cs') := by
  induction word with
  | nil => exact spaced
  | cons c rest ih =>
    refine char ?_
    rw [chars c List.mem_cons_self]
    exact ih fun d member => chars d (List.mem_cons_of_mem _ member)

/-- The same characters in front of both texts, the last of them being in front of the rest. -/
theorem front {chars : List Char} (spaced : Spaced (isChar ((c :: chars).getLast (List.cons_ne_nil c chars))) cs cs') :
    Spaced (isChar c) (chars ++ cs) (chars ++ cs') := by
  induction chars generalizing c with
  | nil => exact spaced
  | cons d rest ih => exact char (ih spaced)

/-- Two texts put together with a space in between. -/
theorem join {front front' back back' : List Char} (spaced : Spaced prev front front')
    (later : Spaced prev' back back') : Spaced prev (front ++ ' ' :: back) (front' ++ ' ' :: back') := by
  induction spaced with
  | done blank blank' => exact space blank blank' later
  | next blank blank' apart _ ih =>
    rw [List.append_assoc, List.append_assoc, List.cons_append, List.cons_append]
    exact .next blank blank' apart ih

/-! ## Blanks at the ends -/

theorem blank_of (spaced : Spaced prev cs cs') (blank : ∀ c ∈ cs, Text.isBlank c = true) :
    ∀ c ∈ cs', Text.isBlank c = true := by
  induction spaced with
  | done _ gaps => exact fun c member => gap_blank (gaps c member)
  | @next _ d gap gap' rest rest' _ gaps _ _ ih =>
    have later := ih fun c member => blank c (by simp [member])
    have here := blank d (by simp)
    intro c member
    rcases List.mem_append.1 member with front | back
    · exact gap_blank (gaps c front)
    · rcases List.mem_cons.1 back with rfl | behind
      · exact here
      · exact later c behind

theorem trim_front (spaced : Spaced prev cs cs') :
    Spaced false (cs.dropWhile Text.isBlank) (cs'.dropWhile Text.isBlank) := by
  induction spaced with
  | done gaps gaps' =>
    rw [List.dropWhile_eq_nil_iff.2 fun c member => gap_blank (gaps c member),
      List.dropWhile_eq_nil_iff.2 fun c member => gap_blank (gaps' c member)]
    exact .done (by simp) (by simp)
  | @next _ c gap gap' rest rest' gaps gaps' _ later ih =>
    rw [List.dropWhile_append_of_pos fun c member => gap_blank (gaps c member),
      List.dropWhile_append_of_pos fun c member => gap_blank (gaps' c member)]
    by_cases blank : Text.isBlank c = true
    · rw [List.dropWhile_cons_of_pos blank, List.dropWhile_cons_of_pos blank]
      exact ih
    · rw [List.dropWhile_cons_of_neg blank, List.dropWhile_cons_of_neg blank]
      exact char later

theorem trim_end (spaced : Spaced prev cs cs') :
    Spaced prev (cs.rdropWhile Text.isBlank) (cs'.rdropWhile Text.isBlank) := by
  induction spaced with
  | done gaps gaps' =>
    rw [List.rdropWhile_eq_nil_iff.2 fun c member => gap_blank (gaps c member),
      List.rdropWhile_eq_nil_iff.2 fun c member => gap_blank (gaps' c member)]
    exact .done (by simp) (by simp)
  | @next prev c gap gap' rest rest' gaps gaps' apart later ih =>
    by_cases blank : ∀ d ∈ gap ++ c :: rest, Text.isBlank d = true
    · have blank' := (Spaced.next gaps gaps' apart later).blank_of blank
      rw [List.rdropWhile_eq_nil_iff.2 blank, List.rdropWhile_eq_nil_iff.2 blank']
      exact .done (by simp) (by simp)
    · have word : ¬ ∀ d ∈ c :: rest, Text.isBlank d = true := by
        intro all
        exact blank fun d member => (List.mem_append.1 member).elim
          (fun front => gap_blank (gaps d front)) (all d)
      have word' : ¬ ∀ d ∈ c :: rest', Text.isBlank d = true :=
        fun all => word ((@char prev c rest rest' later).symm.blank_of all)
      rw [Text.trim_end_append word, Text.trim_end_append word', Text.trim_end_cons word, Text.trim_end_cons word']
      exact .next gaps gaps' apart ih

theorem trim (spaced : Spaced prev cs cs') : Spaced false (Text.trimChars cs) (Text.trimChars cs') :=
  spaced.trim_front.trim_end

/-- Where one text is a plain word, the other is that word with gaps around it. -/
theorem around {word : List Char} (chars : ∀ c ∈ word, isChar c = true) (spaced : Spaced prev word cs) :
    ∃ front back, cs = front ++ (word ++ back) ∧ (∀ c ∈ front, isGap c = true) ∧
      (∀ c ∈ back, isGap c = true) ∧ (prev = true → word ≠ [] → front = []) := by
  induction word generalizing prev cs with
  | nil =>
    have blank {text : List Char} (spaced : Spaced prev text cs) (empty : text = []) :
        ∀ c ∈ cs, isGap c = true := by
      cases spaced with
      | done _ gaps' => exact gaps'
      | next => simp at empty
    exact ⟨[], cs, rfl, by simp, blank spaced rfl, fun _ _ => rfl⟩
  | cons d rest ih =>
    have first := chars d List.mem_cons_self
    generalize whole : d :: rest = text at spaced
    cases spaced with
    | done gaps gaps' =>
      subst whole
      rw [gap_not_char (gaps d List.mem_cons_self)] at first
      cases first
    | @next _ c gap gap' _ rest' gaps gaps' apart later =>
      cases gap with
      | cons e more =>
        obtain ⟨rfl, _⟩ := List.cons.inj whole
        rw [gap_not_char (gaps d List.mem_cons_self)] at first
        cases first
      | nil =>
        obtain ⟨rfl, rfl⟩ := List.cons.inj whole
        obtain ⟨front, back, rfl, blank', blank, joined⟩ :=
          ih (fun e member => chars e (List.mem_cons_of_mem _ member)) later
        cases rest with
        | nil =>
          refine ⟨gap', front ++ back, rfl, gaps', ?_, fun word _ => (apart word first).1 rfl⟩
          exact fun c member => (List.mem_append.1 member).elim (blank' c) (blank c)
        | cons e more =>
          obtain rfl := joined first (by simp)
          exact ⟨gap', back, rfl, gaps', blank, fun word _ => (apart word first).1 rfl⟩

/-- A text that is one plain word is trimmed to the same word. -/
theorem trim_word {word : List Char} (chars : ∀ c ∈ word, isChar c = true) (spaced : Spaced prev word cs) :
    Text.trimChars cs = word := by
  obtain ⟨front, back, rfl, before, behind, _⟩ := spaced.around chars
  exact Text.trim_around (fun c member => gap_blank (before c member))
    (fun c member => char_not_blank (chars c member)) fun c member => gap_blank (behind c member)

/-! ## Attributes -/

theorem take_apart {text : List Char} (apart : ∀ c ∈ text.head?, isChar c = false) :
    text.takeWhile isChar = [] ∧ text.dropWhile isChar = text := by
  cases text with
  | nil => exact ⟨rfl, rfl⟩
  | cons c rest =>
    have other := apart c rfl
    exact ⟨List.takeWhile_cons_of_neg (by simp [other]), List.dropWhile_cons_of_neg (by simp [other])⟩

theorem gap_head {gap : List Char} (gaps : ∀ c ∈ gap, isGap c = true) {rest : List Char}
    (apart : gap = [] → ∀ c ∈ rest.head?, isChar c = false) : ∀ c ∈ (gap ++ rest).head?, isChar c = false := by
  cases gap with
  | nil => exact apart rfl
  | cons d more =>
    intro c here
    obtain rfl := Option.some.inj here
    exact gap_not_char (gaps d List.mem_cons_self)

/-- A word that is being read goes on to the same character in both texts. -/
theorem take_word (spaced : Spaced prev cs cs') (word : prev = true) :
    cs.takeWhile isChar = cs'.takeWhile isChar ∧
      Spaced true (cs.dropWhile isChar) (cs'.dropWhile isChar) := by
  induction spaced with
  | @done _ gap gap' gaps gaps' =>
    obtain ⟨none, all⟩ := @take_apart gap fun c here => gap_not_char (gaps c (List.mem_of_head? here))
    obtain ⟨none', all'⟩ := @take_apart gap' fun c here => gap_not_char (gaps' c (List.mem_of_head? here))
    rw [none, none', all, all']
    exact ⟨rfl, .done gaps gaps'⟩
  | @next _ c gap gap' rest rest' gaps gaps' apart later ih =>
    by_cases joined : isChar c = true ∧ gap = []
    · obtain ⟨isWord, rfl⟩ := joined
      obtain rfl := (apart word isWord).1 rfl
      obtain ⟨same, behind⟩ := ih isWord
      simp only [List.nil_append, List.takeWhile_cons_of_pos isWord, List.dropWhile_cons_of_pos isWord, same]
      exact ⟨trivial, behind⟩
    · have other (empty : gap = []) : isChar c = false :=
        Bool.eq_false_iff.2 fun isWord => joined ⟨isWord, empty⟩
      have other' (empty : gap' = []) : isChar c = false :=
        Bool.eq_false_iff.2 fun isWord => joined ⟨isWord, (apart word isWord).2 empty⟩
      obtain ⟨none, all⟩ := take_apart (@gap_head gap gaps (c :: rest) fun empty d here => by
        obtain rfl := Option.some.inj here
        exact other empty)
      obtain ⟨none', all'⟩ := take_apart (@gap_head gap' gaps' (c :: rest') fun empty d here => by
        obtain rfl := Option.some.inj here
        exact other' empty)
      rw [none, none', all, all']
      exact ⟨rfl, .next gaps gaps' (fun _ => apart word) later⟩

/-- Behind a gap both texts are at their end, or the same character comes next. -/
theorem drop_gap (spaced : Spaced prev cs cs') :
    (cs.dropWhile isGap = [] ∧ cs'.dropWhile isGap = []) ∨
      ∃ c rest rest', cs.dropWhile isGap = c :: rest ∧ cs'.dropWhile isGap = c :: rest' ∧
        Spaced (isChar c) rest rest' := by
  induction spaced with
  | done gaps gaps' => exact .inl ⟨List.dropWhile_eq_nil_iff.2 gaps, List.dropWhile_eq_nil_iff.2 gaps'⟩
  | @next _ c gap gap' rest rest' gaps gaps' _ later ih =>
    rw [List.dropWhile_append_of_pos gaps, List.dropWhile_append_of_pos gaps']
    by_cases more : isGap c = true
    · rw [List.dropWhile_cons_of_pos more, List.dropWhile_cons_of_pos more]
      exact ih
    · rw [List.dropWhile_cons_of_neg more, List.dropWhile_cons_of_neg more]
      exact .inr ⟨c, rest, rest', rfl, rfl, later⟩

theorem after_group_gap (gaps : ∀ c ∈ gap, isGap c = true) (depth : Nat) (cs : List Char) :
    afterGroup depth (gap ++ cs) = afterGroup depth cs := by
  induction gap with
  | nil => rfl
  | cons c rest ih =>
    have later := ih fun d member => gaps d (List.mem_cons_of_mem _ member)
    rcases gap_cases (gaps c List.mem_cons_self) with rfl | rfl | rfl | rfl | rfl
    all_goals exact later

/-- A group ends at the same place in both texts. -/
theorem after_group (spaced : Spaced prev cs cs') (depth : Nat) :
    Spaced false (afterGroup depth cs) (afterGroup depth cs') := by
  induction spaced generalizing depth with
  | @done _ gap gap' gaps gaps' =>
    have none := after_group_gap gaps depth []
    have none' := after_group_gap gaps' depth []
    rw [List.append_nil] at none none'
    rw [none, none']
    exact .done (by simp [afterGroup]) (by simp [afterGroup])
  | @next _ c gap gap' rest rest' gaps gaps' _ later ih =>
    rw [after_group_gap gaps, after_group_gap gaps']
    by_cases opens : c = '('
    · subst opens
      exact ih (depth + 1)
    · by_cases closes : c = ')'
      · subst closes
        rw [afterGroup, afterGroup]
        split
        · exact later.weaken
        · exact ih (depth - 1)
      · simp only [afterGroup]
        exact ih depth

theorem strip_other (other : isStart c = false) (rest : List Char) :
    stripAttributes (c :: rest) = c :: stripAttributes rest := by
  rw [stripAttributes, if_neg (by simp [other])]

/-- Characters that start no word are copied. -/
theorem strip_others {front : List Char} (others : ∀ c ∈ front, isStart c = false) (cs : List Char) :
    stripAttributes (front ++ cs) = front ++ stripAttributes cs := by
  induction front with
  | nil => rfl
  | cons c front ih =>
    obtain ⟨here, later⟩ := List.forall_mem_cons.1 others
    rw [List.cons_append, strip_other here, ih later, List.cons_append]

theorem strip_gap (gaps : ∀ c ∈ gap, isGap c = true) (cs : List Char) :
    stripAttributes (gap ++ cs) = gap ++ stripAttributes cs :=
  strip_others (fun c member => gap_not_start (gaps c member)) cs

/-- A word is taken out with its group if it is an attribute and has one. -/
theorem strip_word (starts : isStart c = true) (rest : List Char) :
    stripAttributes (c :: rest) =
      if isAttribute (String.ofList (c :: rest.takeWhile isChar)) then
        match (rest.dropWhile isChar).dropWhile isGap with
        | '(' :: inner => ' ' :: stripAttributes (afterGroup 1 inner)
        | _ => c :: rest.takeWhile isChar ++ stripAttributes (rest.dropWhile isChar)
      else c :: rest.takeWhile isChar ++ stripAttributes (rest.dropWhile isChar) := by
  rw [stripAttributes, if_pos starts]
  dsimp only
  refine ite_congr rfl (fun _ => ?_) fun _ => rfl
  split
  · rename_i inner group
    simp only [group]
  · rename_i other
    split
    · rename_i inner group
      exact absurd group (other inner)
    · rfl

/-- Attributes are taken out of both texts alike. -/
theorem strip (spaced : Spaced prev cs cs') : Spaced prev (stripAttributes cs) (stripAttributes cs') := by
  -- the text gets shorter by a whole word or group, so the induction is on its length
  induction left : cs.length using Nat.strongRecOn generalizing prev cs cs' with
  | ind left' ih =>
    subst left
    cases spaced with
    | @done _ gap gap' gaps gaps' =>
      have all := strip_gap gaps []
      have all' := strip_gap gaps' []
      rw [stripAttributes, List.append_nil] at all all'
      rw [all, all']
      exact .done gaps gaps'
    | @next _ c gap gap' rest rest' gaps gaps' apart later =>
      have length : (gap ++ c :: rest).length = gap.length + rest.length + 1 := by simp; omega
      rw [strip_gap gaps, strip_gap gaps']
      by_cases starts : isStart c = true
      · have isWord := start_is_char starts
        obtain ⟨same, behind⟩ := later.take_word isWord
        have shorter : (rest.dropWhile isChar).length ≤ rest.length := (List.dropWhile_sublist isChar).length_le
        have kept : Spaced prev (gap ++ (c :: rest.takeWhile isChar ++ stripAttributes (rest.dropWhile isChar)))
            (gap' ++ (c :: rest.takeWhile isChar ++ stripAttributes (rest'.dropWhile isChar))) := by
          refine .next gaps gaps' apart ?_
          rw [isWord]
          exact word (fun d member => List.mem_takeWhile_imp member) (ih _ (by omega) behind rfl)
        rw [strip_word starts, strip_word starts, ← same]
        split
        · rcases behind.drop_gap with ⟨none, none'⟩ | ⟨d, inner, inner', opens, opens', within⟩
          · simp only [none, none']
            exact kept
          · rw [opens, opens']
            by_cases group : d = '('
            · subst group
              have inside : inner.length < (rest.dropWhile isChar).length := by
                have less := (List.dropWhile_sublist isGap (l := rest.dropWhile isChar)).length_le
                rw [opens, List.length_cons] at less
                omega
              have less := after_group_length 1 inner
              have stripped := ih _ (by omega) (within.after_group 1) rfl
              exact space gaps gaps' stripped
            · split
              · rename_i same'
                exact absurd (List.cons.inj same').1 group
              · split
                · rename_i same'
                  exact absurd (List.cons.inj same').1 group
                · exact kept
        · exact kept
      · have other := Bool.eq_false_iff.2 starts
        rw [strip_other other, strip_other other]
        exact .next gaps gaps' apart (ih _ (by omega) later rfl)

/-! ## Words -/

/-- Where one text has plain words only, the other has the same words. The run that is being
read consists of word characters, so that a gap ends it in both texts or in none. -/
theorem words_from {prev : Bool} {cs cs' run : List Char} (spaced : Spaced prev cs cs')
    (runs : run ≠ [] → prev = true) (plain : ∀ word ∈ Text.wordsFrom run cs, ∀ c ∈ word, isChar c = true) :
    Text.wordsFrom run cs = Text.wordsFrom run cs' := by
  induction spaced generalizing run with
  | @done _ gap gap' gaps gaps' =>
    rw [Text.words_from_end fun c member => gap_blank (gaps c member),
      Text.words_from_end fun c member => gap_blank (gaps' c member)]
  | @next _ c gap gap' rest rest' gaps gaps' apart later ih =>
    have blanks := fun c member => gap_blank (gaps c member)
    have blanks' := fun c member => gap_blank (gaps' c member)
    by_cases blank : Text.isBlank c = true
    · rw [List.append_cons, List.append_cons gap'] at *
      have wider {gap : List Char} (blanks : ∀ d ∈ gap, Text.isBlank d = true) :
          ∀ d ∈ gap ++ [c], Text.isBlank d = true := by
        simpa [or_imp, forall_and] using ⟨blanks, blank⟩
      rw [Text.words_from_gap (wider blanks) (by simp)] at plain ⊢
      rw [Text.words_from_gap (wider blanks') (by simp),
        @ih [] (by simp) fun word member => plain word (Text.mem_flushed member)]
    · have nonblank := Bool.eq_false_iff.2 blank
      rw [Text.words_from_next blanks nonblank] at plain ⊢
      rw [Text.words_from_next blanks' nonblank]
      have isWord : isChar c = true := by
        split at plain
        · obtain ⟨word, member, holds⟩ := @Text.words_from_run (run ++ [c]) (by simp) rest
          exact plain word member c (holds c (by simp))
        · obtain ⟨word, member, holds⟩ := @Text.words_from_run [c] (by simp) rest
          exact plain word (Text.mem_flushed member) c (holds c (by simp))
      by_cases joined : gap = [] ↔ gap' = []
      · simp only [joined] at plain ⊢
        split at plain
        · rw [if_pos ‹_›, if_pos ‹_›, ih (fun _ => isWord) plain]
        · rw [if_neg ‹_›, if_neg ‹_›, @ih [c] (fun _ => isWord) fun word member =>
            plain word (Text.mem_flushed member)]
      · -- no word is being read, so the gap makes no difference
        have fresh : run = [] := Classical.byContradiction fun reads => joined (apart (runs reads) isWord)
        subst fresh
        have whole (later : List (List Char)) : Text.flushed [] later = later := rfl
        simp only [List.nil_append, whole, ite_self] at plain ⊢
        exact ih (fun _ => isWord) plain

end Spaced

/-- The type words of a text that has been read, in order. -/
def typeWordsOf (cs : List Char) : List String :=
  (Text.words (stripAttributes cs)).filter (!isStorage ·)

/-- Whether the texts hold nothing but what words are made of. -/
def allChars (words : List String) : Bool :=
  words.all fun word => word.toList.all isChar

theorem all_chars_mem {words : List String} (plain : allChars words = true) :
    ∀ word ∈ words, ∀ c ∈ word.toList, isChar c = true :=
  fun word member => List.all_eq_true.1 (List.all_eq_true.1 plain word member)

theorem storage_plain {word : String} (storage : isStorage word = true) : ∀ c ∈ word.toList, isChar c = true := by
  have plain : allChars ["typedef", "extern", "static", "inline", "__inline", "__inline__", "register",
      "auto", "_Thread_local", "thread_local", "__thread", "_Noreturn", "noreturn",
      "__extension__"] = true := by decide +kernel
  exact all_chars_mem plain word (by simpa [isStorage] using storage)

/-- Type words that are plain words are those of both texts. -/
theorem Spaced.type_words_of (plain : ∀ word ∈ names, ∀ c ∈ word.toList, isChar c = true)
    (spaced : Spaced prev cs cs') (words : typeWordsOf cs = names) : typeWordsOf cs' = names := by
  have same : Text.words (stripAttributes cs) = Text.words (stripAttributes cs') := by
    refine congrArg (List.map String.ofList) (spaced.strip.words_from (by simp) ?_)
    intro word member c inside
    have among : String.ofList word ∈ Text.words (stripAttributes cs) := List.mem_map_of_mem member
    cases storage : isStorage (String.ofList word) with
    | true => exact storage_plain storage c (by simpa using inside)
    | false =>
      refine plain (String.ofList word) ?_ c (by simpa using inside)
      rw [← words]
      exact List.mem_filter.2 ⟨among, by simp [storage]⟩
  rw [typeWordsOf, ← same]
  exact words

theorem Spaced.type_words_iff (plain : ∀ word ∈ names, ∀ c ∈ word.toList, isChar c = true)
    (spaced : Spaced prev cs cs') : typeWordsOf cs = names ↔ typeWordsOf cs' = names :=
  ⟨spaced.type_words_of plain, spaced.symm.type_words_of plain⟩

theorem is_plain_int_iff (specifiers : String) :
    isPlainInt specifiers = true ↔
      typeWords specifiers ∈ [["int"], ["signed"], ["signed", "int"], ["int", "signed"]] := by
  rw [isPlainInt]
  split <;> simp_all

end Word

end AllocGuard
