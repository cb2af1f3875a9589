import Mathlib.Data.List.Chain
import AllocGuard.Proofs.Significance
import AllocGuard.Proofs.SourcePartition
import AllocGuard.Proofs.WordSpacing

/-! Where one token ends and the next begins. A word or a number is read as far as it goes, and
a literal or a directive ends at its own mark or at a line end, so two tokens with nothing
between them never put two word characters next to each other. That is said of logical
characters. In a text without trigraphs and joined lines it holds of the characters as they are
written. -/
namespace AllocGuard

variable {front cs raw held back : List Char} {g : Glyph}

/-! ## Texts that are read as they are written -/

/-- Whether a trigraph or a joined line starts here. -/
def startsMark : List Char → Bool
  | '?' :: '?' :: c :: _ => (Glyph.trigraph c).isSome
  | '\\' :: c :: _ => c == '\n' || c == '\r'
  | _ => false

/-- The text has no trigraph and joins no lines. -/
def isPlainText : List Char → Bool
  | [] => true
  | c :: rest => !startsMark (c :: rest) && isPlainText rest

theorem plain_tail {c : Char} {rest : List Char} (plain : isPlainText (c :: rest) = true) :
    startsMark (c :: rest) = false ∧ isPlainText rest = true := by
  simpa [isPlainText] using plain

theorem plain_back (plain : isPlainText (front ++ back) = true) : isPlainText back = true := by
  induction front with
  | nil => exact plain
  | cons c rest ih => exact ih (plain_tail plain).2

theorem starts_mark_front (back : List Char) (marked : startsMark front = true) :
    startsMark (front ++ back) = true := by
  unfold startsMark at marked
  split at marked
  · exact marked
  · exact marked
  · cases marked

theorem plain_front (plain : isPlainText (front ++ back) = true) : isPlainText front = true := by
  induction front with
  | nil => rfl
  | cons c rest ih =>
    rw [List.cons_append] at plain
    obtain ⟨unmarked, later⟩ := plain_tail plain
    have first : startsMark (c :: rest) = false := Bool.eq_false_iff.2 fun marked => by
      rw [← List.cons_append, starts_mark_front back marked] at unmarked
      cases unmarked
    rw [isPlainText, first, ih later]
    rfl

theorem replace_plain (plain : isPlainText cs = true) : Glyph.replaceTrigraphs cs = cs.map fun c => ⟨c, [c]⟩ := by
  fun_induction Glyph.replaceTrigraphs cs with
  | case1 c rest meant means =>
    have unmarked := (plain_tail plain).1
    rw [startsMark, means] at unmarked
    cases unmarked
  | case2 c rest means ih =>
    rw [ih (plain_tail plain).2]
    rfl
  | case3 c rest other ih =>
    rw [ih (plain_tail plain).2]
    rfl
  | case4 => rfl

theorem join_plain (plain : isPlainText cs = true) :
    Glyph.joinLines [] (cs.map fun c => ⟨c, [c]⟩) = (cs.map fun c => ⟨c, [c]⟩, []) := by
  induction cs with
  | nil => rfl
  | cons c rest ih =>
    obtain ⟨unmarked, later⟩ := plain_tail plain
    cases rest with
    | nil => rfl
    | cons d rest =>
      have apart : ¬ (c = '\\' ∧ d = '\n') := by
        rintro ⟨rfl, rfl⟩
        cases unmarked
      have apart' : ¬ (c = '\\' ∧ d = '\r') := by
        rintro ⟨rfl, rfl⟩
        cases unmarked
      have next := ih later
      simp only [List.map_cons] at next ⊢
      rw [Glyph.joinLines.eq_def]
      dsimp only
      rw [if_neg apart, if_neg apart', next]
      rfl

/-- A plain text is read as it is written. -/
theorem logical_plain (plain : isPlainText cs = true) : logicalChars cs = cs := by
  rw [logicalChars, glyphs, replace_plain plain, join_plain plain, List.map_map]
  exact List.map_id' cs

/-- No text that starts so is plain. -/
def Marked (raw : List Char) : Prop :=
  ∀ back, isPlainText (raw ++ back) = false

theorem marked_append (marked : Marked raw) (more : List Char) : Marked (raw ++ more) := by
  intro back
  rw [List.append_assoc]
  exact marked _

theorem marked_behind (marked : Marked raw) (front : List Char) : Marked (front ++ raw) := by
  intro back
  rw [List.append_assoc, Bool.eq_false_iff]
  intro plain
  have behind := plain_back plain
  rw [marked back] at behind
  cases behind

theorem marked_of_start (starts : startsMark raw = true) : Marked raw := by
  intro back
  cases raw with
  | nil => cases starts
  | cons c rest => rw [List.cons_append, isPlainText, ← List.cons_append, starts_mark_front back starts]; rfl

/-- The glyph is one character that stands for itself, or its text has a mark at its front. -/
def Glyph.Simple (g : Glyph) : Prop :=
  g.raw = [g.char] ∨ Marked g.raw

theorem replace_simple (cs : List Char) : ∀ g ∈ Glyph.replaceTrigraphs cs, g.Simple := by
  fun_induction Glyph.replaceTrigraphs cs with
  | case1 c rest meant means ih =>
    refine List.forall_mem_cons.2 ⟨.inr (marked_of_start ?_), ih⟩
    rw [startsMark, means]
    rfl
  | case2 c rest means ih => exact List.forall_mem_cons.2 ⟨.inl rfl, ih⟩
  | case3 c rest other ih => exact List.forall_mem_cons.2 ⟨.inl rfl, ih⟩
  | case4 => simp

theorem simple_held (front : held = [] ∨ Marked held) (simple : g.Simple) : Glyph.Simple ⟨g.char, held ++ g.raw⟩ := by
  rcases front with rfl | marked
  · exact simple
  · exact .inr (marked_append marked _)

/-- The text of a joined line end starts with a mark. -/
theorem marked_join {next : Glyph} (front : held = [] ∨ Marked held) (simple : g.Simple) (simple' : next.Simple)
    (escape : g.char = '\\') (ends : next.char = '\n' ∨ next.char = '\r') : Marked (held ++ g.raw ++ next.raw) := by
  rcases front with rfl | marked
  · rcases simple with single | marked
    · rcases simple' with single' | marked'
      · rw [List.nil_append, single, single', escape]
        apply marked_of_start
        rcases ends with feed | back
        · rw [feed]
          rfl
        · rw [back]
          rfl
      · exact marked_behind marked' _
    · exact marked_append marked _
  · exact marked_append (marked_append marked _) _

theorem join_simple {gs : List Glyph} (front : held = [] ∨ Marked held) (simple : ∀ g ∈ gs, g.Simple) :
    ∀ g ∈ (Glyph.joinLines held gs).1, g.Simple := by
  fun_induction Glyph.joinLines held gs with
  | case1 held => simp
  | case2 held g => simpa using simple_held front (simple g (by simp))
  | case3 held g next rest joined ih =>
    refine ih (.inr ?_) fun later member => simple later (by simp [member])
    exact marked_join front (simple g (by simp)) (simple next (by simp)) joined.1 (.inl joined.2)
  | case4 held g next other joined => simp
  | case5 held g next other joined feed rest ends ih =>
    refine ih (.inr (marked_append ?_ _)) fun later member => simple later (by simp [member])
    exact marked_join front (simple g (by simp)) (simple next (by simp)) joined.1 (.inr joined.2)
  | case6 held g next other joined feed rest goesOn ih =>
    refine ih (.inr ?_) fun later member =>
      simple later (List.mem_cons_of_mem _ (List.mem_cons_of_mem _ member))
    exact marked_join front (simple g (by simp)) (simple next (by simp)) joined.1 (.inr joined.2)
  | case7 held g next rest other other' glyphs left later ih =>
    refine List.forall_mem_cons.2 ⟨simple_held front (simple g (by simp)), ?_⟩
    have behind := ih (.inl rfl) fun later member => simple later (List.mem_cons_of_mem _ member)
    rwa [later] at behind

theorem glyphs_simple (source : List Char) : ∀ g ∈ (glyphs source).1, g.Simple :=
  join_simple (.inl rfl) (replace_simple source)

/-! ## The ends of tokens -/

namespace Lexeme

variable {quote c : Char} {rest : List Char}

/-- No word goes on from the first text into the second. -/
def Apart (front back : List Char) : Prop :=
  ∀ c ∈ front.getLast?, ∀ d ∈ back.head?, Word.isChar c = true → Word.isChar d = false

theorem apart_of_back (other : ∀ d ∈ back.head?, Word.isChar d = false) (front : List Char) : Apart front back :=
  fun _ _ d here _ => other d here

theorem apart_of_front (other : ∀ c ∈ front.getLast?, Word.isChar c = false) (back : List Char) :
    Apart front back := by
  intro c last d _ word
  rw [other c last] at word
  cases word

theorem run_length_drop (p : Char → Bool) (cs : List Char) : ∀ d ∈ (cs.drop (runLength p cs)).head?, p d = false := by
  induction cs with
  | nil => simp
  | cons c rest ih =>
    by_cases goesOn : p c = true
    · rw [runLength, List.takeWhile_cons_of_pos goesOn, List.length_cons, List.drop_succ_cons]
      exact ih
    · rw [runLength, List.takeWhile_cons_of_neg goesOn]
      intro d here
      obtain rfl := Option.some.inj here
      exact Bool.eq_false_iff.2 goesOn

theorem number_length_drop (before : Bool) (cs : List Char) :
    ∀ d ∈ (cs.drop (numberLength before cs)).head?, Word.isChar d = false := by
  fun_induction numberLength before cs with
  | case1 before => simp
  | case2 before c rest goesOn ih => exact ih
  | case3 before c rest stops sign ih => exact ih
  | case4 before c rest stops unsigned =>
    intro d here
    obtain rfl := Option.some.inj here
    rw [Bool.eq_false_iff]
    intro word
    rw [Word.isChar] at word
    exact stops (by rw [word]; rfl)

theorem last_append {front back : List Char} {c : Char} (last : back.getLast? = some c) :
    (front ++ back).getLast? = some c := by
  rw [List.getLast?_append, last]
  rfl

/-- A quoted literal ends with its quote, or in front of a line end. -/
theorem quoted_length_ends (quote : Char) (cs : List Char) :
    (∀ d ∈ (cs.drop (quotedLength quote cs)).head?, d = '\n') ∨
      (cs.take (quotedLength quote cs)).getLast? = some quote := by
  fun_induction quotedLength quote cs with
  | case1 | case2 | case3 | case4 => simp
  | case5 c rest other ih =>
    rcases ih with ends | closes
    · exact .inl ends
    · exact .inr (@last_append ['\\', c] _ _ closes)
  | case6 rest => exact .inr rfl
  | case7 c rest _ _ _ _ _ ih =>
    rcases ih with ends | closes
    · exact .inl ends
    · exact .inr (@last_append [c] _ _ closes)

theorem quoted_apart (mark : Word.isChar quote = false) (front cs : List Char) :
    Apart (front ++ cs.take (quotedLength quote cs)) (cs.drop (quotedLength quote cs)) := by
  rcases quoted_length_ends quote cs with ends | closes
  · refine apart_of_back (fun d here => ?_) _
    rw [ends d here]
    decide
  · refine apart_of_front (fun c last => ?_) _
    rw [last_append closes] at last
    obtain rfl := Option.some.inj last
    exact mark

/-- A directive ends in front of a line end. -/
theorem directive_length_drop (cs : List Char) : ∀ d ∈ (cs.drop (directiveLength cs)).head?, d = '\n' := by
  fun_induction directiveLength cs with
  | case1 => simp
  | case2 rest => simp
  | case3 rest block ih =>
    have behind : ('/' :: '*' :: rest).drop (directiveLength (rest.drop block) + block + 2) =
        (rest.drop block).drop (directiveLength (rest.drop block)) := by
      rw [List.drop_drop, Nat.add_comm block]
      rfl
    rw [behind]
    exact ih
  | case4 rest =>
    intro d here
    simpa using run_length_drop (· != '\n') rest d here
  | case5 c rest _ _ _ quotes quoted ih =>
    have behind : (c :: rest).drop (directiveLength (rest.drop quoted) + quoted + 1) =
        (rest.drop quoted).drop (directiveLength (rest.drop quoted)) := by
      rw [List.drop_drop, Nat.add_comm quoted]
      rfl
    rw [behind]
    exact ih
  | case6 c rest _ _ _ other ih => exact ih

/-- The operand of a pragma operator ends with a parenthesis. -/
theorem operand_length_last {depth : Nat} {length : Nat} (hit : operandLength depth cs = some length) :
    (cs.take length).getLast? = some ')' := by
  have step {c : Char} {rest : List Char} {found : Option Nat} {length : Nat}
      (hit : found.map (· + 1) = some length)
      (later : ∀ {length}, found = some length → (rest.take length).getLast? = some ')') :
      ((c :: rest).take length).getLast? = some ')' := by
    obtain ⟨length, here, rfl⟩ := Option.map_eq_some_iff.1 hit
    exact @last_append [c] _ _ (later here)
  fun_induction operandLength depth cs generalizing length with
  | case1 | case2 => cases hit
  | case3 depth rest ih => exact step hit ih
  | case4 depth rest ends =>
    obtain rfl := Option.some.inj hit
    rfl
  | case5 depth rest deep ih => exact step hit ih
  | case6 depth c rest _ _ _ quotes quoted =>
    rename_i ih
    obtain ⟨length, here, rfl⟩ := Option.map_eq_some_iff.1 hit
    have split : (c :: rest).take (length + quotedLength c rest + 1) =
        (c :: rest.take (quotedLength c rest)) ++ (rest.drop (quotedLength c rest)).take length := by
      rw [List.take_succ_cons, Nat.add_comm length, List.take_add, List.cons_append]
    rw [split]
    exact last_append (ih here)
  | case7 depth c rest _ _ _ other ih => exact step hit ih

theorem follows_iff : follows rest c = true ↔ ∃ more, rest = c :: more := by
  rw [follows, beq_iff_eq, List.head?_eq_some_iff]

/-- The characters that a token takes are marks. -/
def TakesMarks (rest : List Char) (more : Nat) : Prop :=
  ∀ d ∈ rest.take more, Word.isChar d = false

theorem takes_none (rest : List Char) : TakesMarks rest 0 := by
  simp [TakesMarks]

theorem takes_one {rest : List Char} {c : Char} (mark : Word.isChar c = false)
    (here : follows rest c = true) : TakesMarks rest 1 := by
  obtain ⟨more, rfl⟩ := follows_iff.1 here
  simpa [TakesMarks] using mark

theorem takes_two {rest : List Char} {c d : Char} (mark : Word.isChar c = false) (mark' : Word.isChar d = false)
    (here : follows rest c = true) (next : follows rest.tail d = true) : TakesMarks rest 2 := by
  obtain ⟨more, rfl⟩ := follows_iff.1 here
  obtain ⟨more', rfl⟩ := follows_iff.1 next
  simpa [TakesMarks] using ⟨mark, mark'⟩

theorem assigned_marks (kind : TokenKind) (rest : List Char) : TakesMarks rest (assigned kind rest).2 := by
  rw [assigned]
  split
  · rename_i here
    exact @takes_one _ '=' (by decide) here
  · exact takes_none rest

theorem doubled_marks (mark : Word.isChar c = false) (rest : List Char) :
    TakesMarks rest (doubledOrAssigned c rest).2 := by
  rw [doubledOrAssigned]
  dsimp only
  split
  · rename_i here
    rcases (Bool.or_eq_true _ _).mp here with doubled | assigns
    · exact takes_one mark doubled
    · exact @takes_one _ '=' (by decide) assigns
  · exact takes_none rest

theorem shift_marks (mark : Word.isChar c = false) (rest : List Char) :
    TakesMarks rest (punctuator.shiftLength c rest) := by
  rw [punctuator.shiftLength]
  by_cases doubled : follows rest c = true
  · rw [if_pos doubled, List.drop_one]
    split
    · rename_i assigns
      exact @takes_two _ c '=' mark (by decide) doubled assigns
    · exact takes_one mark doubled
  · rw [if_neg doubled, List.drop_zero]
    split
    · rename_i assigns
      exact @takes_one _ '=' (by decide) assigns
    · exact takes_none rest

/-- A punctuator goes on with marks only. -/
theorem punctuator_marks (c : Char) (rest : List Char) : TakesMarks rest (punctuator c rest).2 := by
  unfold punctuator
  split
  all_goals first
    | exact takes_none rest
    | exact assigned_marks _ rest
    | exact doubled_marks (by decide) rest
    | exact shift_marks (by decide) rest
    | split
  -- what is left has a test of its own: `==`, `!=`, `&&`, `...`, `->` and `##`
  · exact @takes_one _ '=' (by decide) ‹_›
  · exact takes_none rest
  · exact @takes_one _ '=' (by decide) ‹_›
  · exact takes_none rest
  · rename_i here
    rcases (Bool.or_eq_true _ _).mp here with doubled | assigns
    · exact @takes_one _ '&' (by decide) doubled
    · exact @takes_one _ '=' (by decide) assigns
  · exact takes_none rest
  · rename_i here
    obtain ⟨second, third⟩ := (Bool.and_eq_true _ _).mp here
    exact @takes_two _ '.' '.' (by decide) (by decide) second third
  · exact takes_none rest
  · exact @takes_one _ '>' (by decide) ‹_›
  · exact doubled_marks (by decide) rest
  · exact @takes_one _ '#' (by decide) ‹_›
  · exact takes_none rest

theorem ident_char (word : Word.isChar c = true) : isIdentChar c = true := by
  simp only [Word.isChar, isIdentChar, isIdentStart, Char.isAlphanum, Bool.or_eq_true] at word ⊢
  rcases word with (alpha | digit) | underscore
  · exact .inl (.inl (.inl (.inl alpha)))
  · exact .inr digit
  · exact .inl (.inl (.inl (.inr underscore)))

theorem mark_of_other {numeric : Bool} (notNumber : ¬ (c.isDigit || numeric) = true)
    (notWord : ¬ isIdentStart c = true) : Word.isChar c = false := by
  rw [Bool.eq_false_iff]
  intro word
  have goesOn := ident_char word
  rw [isIdentChar, Bool.or_eq_true] at goesOn
  rcases goesOn with starts | digit
  · exact notWord starts
  · exact notNumber (by rw [digit]; rfl)

theorem run_apart (front rest : List Char) : Apart front (rest.drop (runLength isIdentChar rest)) := by
  refine apart_of_back (fun d here => Bool.eq_false_iff.2 fun word => ?_) front
  have stops := run_length_drop isIdentChar rest d here
  rw [ident_char word] at stops
  cases stops

/-- A literal whose opening quote stands at `more` ends with its quote or in front of a line end. -/
theorem marked_literal_apart (mark : Word.isChar quote = false) (first : Char) {more : Nat}
    (opens : follows (rest.drop more) quote = true) :
    Apart (first :: rest.take (more + 1 + quotedLength quote (rest.drop more).tail))
      (rest.drop (more + 1 + quotedLength quote (rest.drop more).tail)) := by
  obtain ⟨after, split⟩ := follows_iff.1 opens
  have taken : rest.take (more + 1 + quotedLength quote after) =
      rest.take more ++ quote :: after.take (quotedLength quote after) := by
    rw [Nat.add_assoc, List.take_add, split, Nat.add_comm 1, List.take_succ_cons]
  have left : rest.drop (more + 1 + quotedLength quote after) = after.drop (quotedLength quote after) := by
    rw [Nat.add_assoc, ← List.drop_drop, split, Nat.add_comm 1, List.drop_succ_cons]
  rw [split, List.tail_cons, taken, left, ← List.cons_append, List.append_cons]
  exact quoted_apart mark _ _

/-- A pragma operator ends with its keyword or with the parenthesis behind its operand. -/
theorem pragma_apart (first : Char) (rest : List Char) :
    Apart (first :: rest.take (runLength isIdentChar rest +
        pragmaLength (rest.drop (runLength isIdentChar rest))))
      (rest.drop (runLength isIdentChar rest + pragmaLength (rest.drop (runLength isIdentChar rest)))) := by
  generalize keyword : runLength isIdentChar rest = more
  have alone := run_apart (first :: rest.take more) rest
  rw [keyword] at alone
  rw [pragmaLength]
  split
  · rename_i operand opens
    split
    · rename_i length closes
      generalize runLength (fun c => c == ' ' || c == '\t') (rest.drop more) = gap at opens ⊢
      have taken : first :: rest.take (more + (gap + 1 + length)) =
          (first :: rest.take more ++ (rest.drop more).take gap ++ ['(']) ++ operand.take length := by
        rw [List.take_add, Nat.add_assoc gap, List.take_add, opens, Nat.add_comm 1 length, List.take_succ_cons]
        simp
      refine apart_of_front (fun c last => ?_) _
      rw [taken, last_append (operand_length_last closes)] at last
      obtain rfl := Option.some.inj last
      decide
    · exact alone
  · exact alone

theorem word_apart (first : Char) (rest : List Char) :
    Apart (first :: rest.take (word first rest).2) (rest.drop (word first rest).2) := by
  rw [word]
  split
  · rename_i literal
    exact marked_literal_apart (by decide) first ((Bool.and_eq_true _ _).mp literal).2
  · split
    · rename_i literal
      exact marked_literal_apart (by decide) first ((Bool.and_eq_true _ _).mp literal).2
    · split
      · exact pragma_apart first rest
      · exact run_apart _ rest
      · exact run_apart _ rest

/-- No word goes on from a token that carries meaning into what follows it. -/
theorem read_apart {lineStart : Bool} {first : Char} {rest : List Char}
    (carries : (read lineStart first rest).1.isTrivia = false) :
    Apart (first :: rest.take (read lineStart first rest).2)
      (rest.drop (read lineStart first rest).2) := by
  revert carries
  rw [read]
  split
  · intro carries
    cases carries
  · split
    · intro carries
      cases carries
    · split
      · intro carries
        cases carries
      · intro _
        split
        · refine apart_of_back (fun d here => ?_) _
          rw [directive_length_drop rest d here]
          decide
        · split
          · exact quoted_apart (by decide) [first] rest
          · split
            · exact quoted_apart (by decide) [first] rest
            · split
              · exact apart_of_back (number_length_drop false rest) _
              · split
                · exact word_apart first rest
                · refine apart_of_front (fun c last => ?_) _
                  rcases List.mem_cons.1 (List.mem_of_getLast? last) with rfl | marks
                  · exact mark_of_other ‹_› ‹_›
                  · exact punctuator_marks first rest c marks

end Lexeme

/-! ## Neighbouring tokens -/

/-- Glyphs of a plain text are the characters of the text. -/
theorem raws_plain {gs : List Glyph} (simple : ∀ g ∈ gs, g.Simple)
    (plain : isPlainText (gs.map Glyph.raw).flatten = true) : (gs.map Glyph.raw).flatten = gs.map Glyph.char := by
  induction gs with
  | nil => rfl
  | cons g rest ih =>
    rw [List.map_cons, List.flatten_cons] at plain
    have single : g.raw = [g.char] := by
      rcases simple g List.mem_cons_self with single | marked
      · exact single
      · rw [marked] at plain
        cases plain
    rw [List.map_cons, List.flatten_cons, single,
      ih (fun later member => simple later (List.mem_cons_of_mem _ member)) (plain_back plain)]
    rfl

namespace Token

/-- No word goes on from the first token into the second, if both carry meaning and are read as
they are written. -/
def Apart (t next : Token) : Prop :=
  t.kind.isTrivia = false → next.kind.isTrivia = false → isPlainText t.raw = true →
    isPlainText next.raw = true → Lexeme.Apart t.raw next.raw

end Token

namespace TokenSeq

variable {ts : TokenSeq} {start i stop j : Nat} {gs : List Glyph} {t : Token}

/-- What a scan starts with is the first glyph, unless no glyph is left. -/
theorem scan_head {lineStart : Bool} {left : List Char} (simple : ∀ g ∈ gs, g.Simple)
    (first : (scan lineStart start left (gs.map Glyph.char) (gs.map Glyph.raw)).head? = some t)
    (carries : t.kind.isTrivia = false) (plain : isPlainText t.raw = true) :
    t.raw.head? = (gs.map Glyph.char).head? := by
  cases gs with
  | nil =>
    rw [List.map_nil, List.map_nil, scan] at first
    · split at first
      · cases first
      · obtain rfl := Option.some.inj first
        cases carries
    · simp
  | cons g rest =>
    rw [List.map_cons, List.map_cons, scan] at first
    obtain rfl := Option.some.inj first
    have single : g.raw = [g.char] := by
      rcases simple g List.mem_cons_self with single | marked
      · exact single
      · rw [marked] at plain
        cases plain
    rw [single]
    rfl

theorem scan_apart (lineStart : Bool) (start : Nat) (left : List Char) (simple : ∀ g ∈ gs, g.Simple) :
    (scan lineStart start left (gs.map Glyph.char) (gs.map Glyph.raw)).IsChain Token.Apart := by
  induction gs using scan_induction generalizing lineStart start with
  | nil =>
    rw [List.map_nil, List.map_nil, scan]
    · split
      · exact .nil
      · exact .singleton _
    · simp
  | cons g rest ih =>
    have behind (more : Nat) : ∀ later ∈ rest.drop more, later.Simple :=
      fun later member => simple later (List.mem_cons_of_mem _ (List.mem_of_mem_drop member))
    rw [List.map_cons, List.map_cons, scan]
    dsimp only
    rw [← List.map_drop, ← List.map_drop]
    generalize read : Lexeme.read lineStart g.char (rest.map Glyph.char) = result
    refine List.isChain_cons.2 ⟨fun next here carries carries' plain plain' => ?_, ih _ _ _ (behind result.2)⟩
    have head := scan_head (behind result.2) here carries' plain'
    have whole : g.raw ++ ((rest.map Glyph.raw).take result.2).flatten =
        g.char :: (rest.map Glyph.char).take result.2 := by
      have part := @raws_plain (g :: rest.take result.2) (fun glyph member => ?_) (by
        rw [List.map_cons, List.flatten_cons, List.map_take]
        exact plain)
      · rwa [List.map_cons, List.flatten_cons, List.map_take, List.map_cons, List.map_take] at part
      · rcases List.mem_cons.1 member with rfl | inside
        · exact simple glyph List.mem_cons_self
        · exact simple glyph (List.mem_cons_of_mem _ (List.mem_of_mem_take inside))
    have edge := @Lexeme.read_apart lineStart g.char (rest.map Glyph.char) (by rw [read]; exact carries)
    rw [read] at edge
    intro c last d first
    dsimp only at last
    rw [whole] at last
    rw [head, List.map_drop] at first
    exact edge c last d first

theorem of_source_apart (source : String) : (ofSource source).tokens.toList.IsChain Token.Apart :=
  scan_apart true 0 (glyphs source.toList).2 (glyphs_simple source.toList)

/-- Whether the tokens `[start, stop)` are read as they are written, and those that carry no
meaning are white space of the common kind: no comment, no vertical tab. -/
def isPlainRange (ts : TokenSeq) (start stop : Nat) : Bool :=
  isPlainText (ts.textRange start stop).toList &&
    (Position.range start stop).all fun i => ts.isSignificant i || (ts.text i).toList.all Word.isGap

/-- A part of a plain range is read as it is written. -/
theorem plain_between (plain : isPlainText (ts.textRange start stop).toList = true) (lower : start ≤ i)
    (upper : j ≤ stop) : isPlainText (ts.textRange i j).toList = true := by
  by_cases ordered : i ≤ j
  · rw [← ts.text_range_append lower (Nat.le_trans ordered upper), ← ts.text_range_append ordered upper,
      String.toList_append, String.toList_append] at plain
    exact plain_front (plain_back plain)
  · have empty : j - i = 0 := by omega
    rw [text_range_eq, empty, List.take_zero]
    rfl

theorem plain_part (plain : ts.isPlainRange start stop = true) (lower : start ≤ i) (upper : j ≤ stop) :
    isPlainText (ts.textRange i j).toList = true :=
  plain_between ((Bool.and_eq_true _ _).mp plain).1 lower upper

/-- How a range of tokens is written when it is plain. -/
structure PlainlyWritten (ts : TokenSeq) (start stop : Nat) : Prop where
  plain : ∀ i j, start ≤ i → j ≤ stop → isPlainText (ts.textRange i j).toList = true
  some : ∀ i, start ≤ i → i < stop → (ts.text i).toList ≠ []
  gap : ∀ i, start ≤ i → i < stop → ts.isSignificant i = false →
    ∀ c ∈ (ts.text i).toList, Word.isGap c = true
  spelled : ∀ i, start ≤ i → i < stop → ts.text i = ts.spelling i
  apart : ∀ i, start ≤ i → i + 1 < stop → ts.isSignificant i = true →
    ts.isSignificant (i + 1) = true → Lexeme.Apart (ts.text i).toList (ts.text (i + 1)).toList

theorem text_of_get (there : ts.get? i = some t) : (ts.text i).toList = t.raw := by
  rw [text, there]
  exact String.toList_ofList

theorem kind_of_significant (there : ts.get? i = some t) (carries : ts.isSignificant i = true) :
    t.kind.isTrivia = false := by
  simpa [isSignificant, kindIs, kind?, there] using carries

theorem plainly_written {source : String} (plain : (ofSource source).isPlainRange start stop = true)
    (inside : stop ≤ (ofSource source).size) : (ofSource source).PlainlyWritten start stop := by
  have nonempty := tile_nonempty (of_source_tiles source)
  have chain := of_source_apart source
  generalize ofSource source = ts at plain inside nonempty chain ⊢
  have gaps := List.all_eq_true.1 ((Bool.and_eq_true _ _).mp plain).2
  have token {i : Nat} (upper : i < stop) : ∃ t, ts.get? i = some t :=
    ⟨_, Array.getElem?_eq_getElem (Nat.lt_of_lt_of_le upper inside)⟩
  have single {i : Nat} (lower : start ≤ i) (upper : i < stop) :
      isPlainText (ts.text i).toList = true := by
    rw [← text_range_single]
    exact plain_part plain lower upper
  constructor
  · exact fun i j => plain_part plain
  · intro i lower upper
    obtain ⟨t, there⟩ := token upper
    rw [text_of_get there]
    exact nonempty t (List.mem_of_getElem? (get_to_list there))
  · intro i lower upper blank
    have gap := gaps i (Position.mem_range.2 ⟨lower, upper⟩)
    rw [blank, Bool.false_or, List.all_eq_true] at gap
    exact gap
  · intro i lower upper
    obtain ⟨t, there⟩ := token upper
    have read := logical_plain (single lower upper)
    rw [text_of_get there] at read
    rw [text, spelling, there, Option.map_some, Option.map_some, Option.getD_some, Option.getD_some,
      Token.text, Token.spelling, read]
  · intro i lower upper carries carries'
    obtain ⟨t, there⟩ := @token i (by omega)
    obtain ⟨next, there'⟩ := token upper
    have plain := single lower (by omega)
    have plain' := single (Nat.le_succ_of_le lower) upper
    rw [text_of_get there] at plain ⊢
    rw [text_of_get there'] at plain' ⊢
    have bound : i + 1 < ts.tokens.toList.length := Nat.lt_of_lt_of_le upper inside
    have edge := List.isChain_iff_getElem.1 chain i bound
    have here := (List.getElem?_eq_some_iff.1 (get_to_list there)).2
    have here' := (List.getElem?_eq_some_iff.1 (get_to_list there')).2
    rw [here, here'] at edge
    exact edge (kind_of_significant there carries) (kind_of_significant there' carries') plain plain'

end TokenSeq

end AllocGuard
