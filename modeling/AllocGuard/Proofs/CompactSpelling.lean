import AllocGuard.Proofs.ClingingTokens
import AllocGuard.Proofs.GuardSubjects
import AllocGuard.Proofs.HeaderBlindness
import AllocGuard.Proofs.InsertedGuards

/-! The text of a subject. It has no white space but between two words, so a token may go on into the next
one when the text is read again: `- -` is written `--`, and `/ *` opens a comment. The text has the tokens
it was made of exactly if none of them clings to what stands behind it, and no trigraph or joined line end
has come about. To tell so from the tokens alone, the characters that are not blanks are counted: neither
the phases nor the scan add any, and both leave them all only if nothing runs together. -/
namespace AllocGuard

/-! ## Characters that are not blanks -/

/-- The number of characters other than blanks. -/
def solid (cs : List Char) : Nat :=
  cs.countP (· != ' ')

theorem solid_append (front back : List Char) : solid (front ++ back) = solid front + solid back :=
  List.countP_append

theorem solid_cons (c : Char) (cs : List Char) : solid (c :: cs) = solid [c] + solid cs :=
  solid_append [c] cs

theorem solid_blank {cs : List Char} (none : solid cs = 0) : ∀ c ∈ cs, c = ' ' := by
  intro c member
  have blank := List.countP_eq_zero.1 none c member
  rwa [bne_iff_ne, Ne, not_not] at blank

theorem solid_pos {cs : List Char} {c : Char} (member : c ∈ cs) (other : c ≠ ' ') : 0 < solid cs :=
  List.countP_pos_iff.2 ⟨c, member, bne_iff_ne.2 other⟩

/-- A trigraph and a joined line end take two characters other than blanks. -/
theorem solid_marked {cs : List Char} (marked : isPlainText cs = false) : 2 ≤ solid cs := by
  induction cs with
  | nil => cases marked
  | cons c rest ih =>
    rw [solid_cons]
    cases starts : startsMark (c :: rest) with
    | false =>
      rw [isPlainText, starts] at marked
      have behind := ih marked
      omega
    | true =>
      unfold startsMark at starts
      split at starts
      · rename_i d more same
        obtain ⟨rfl, rfl⟩ := List.cons.inj same
        have mark : solid ['?'] = 1 := rfl
        rw [solid_cons '?' (d :: more)]
        omega
      · rename_i d more same
        obtain ⟨rfl, rfl⟩ := List.cons.inj same
        have backslash : solid ['\\'] = 1 := rfl
        have line : solid [d] = 1 := by
          rw [Bool.or_eq_true, beq_iff_eq, beq_iff_eq] at starts
          rcases starts with rfl | rfl <;> rfl
        rw [solid_cons d more]
        omega
      · cases starts

/-- A glyph is its own character, or it has more characters that are not blanks. -/
theorem glyph_solid {g : Glyph} (simple : g.Simple) : g.raw = [g.char] ∨ solid [g.char] < solid g.raw := by
  refine simple.imp_right fun marked => ?_
  have most : solid [g.char] ≤ 1 := List.countP_le_length
  have least := solid_marked ((List.append_nil g.raw) ▸ marked [])
  omega

theorem glyphs_solid {gs : List Glyph} (simple : ∀ g ∈ gs, g.Simple) :
    gs.flatMap Glyph.raw = gs.map Glyph.char ∨ solid (gs.map Glyph.char) < solid (gs.flatMap Glyph.raw) := by
  induction gs with
  | nil => exact .inl rfl
  | cons g gs ih =>
    obtain ⟨here, later⟩ := List.forall_mem_cons.1 simple
    rw [List.flatMap_cons, List.map_cons, solid_cons, solid_append]
    rcases glyph_solid here, ih later with ⟨single | less, same | less'⟩
    · exact .inl (by rw [single, same]; rfl)
    · rw [single]
      exact .inr (Nat.add_lt_add_left less' _)
    · rw [same]
      exact .inr (Nat.add_lt_add_right less _)
    · exact .inr (Nat.add_lt_add less less')

/-- A text is left as it is by the first two phases, or it has fewer characters that are not blanks
behind them. -/
theorem logical_solid (cs : List Char) : logicalChars cs = cs ∨ solid (logicalChars cs) < solid cs := by
  have whole := glyphs_raw cs
  have count := congrArg solid whole
  rw [solid_append] at count
  have chars := glyphs_solid (glyphs_simple cs)
  rw [logicalChars]
  rcases eq_or_ne (glyphs cs).2 [] with none | some
  · rw [none, List.append_nil] at whole
    rw [none, show solid [] = 0 from rfl, Nat.add_zero] at count
    exact chars.imp (fun same => same.symm.trans whole) fun less => Nat.lt_of_lt_of_eq less count
  · -- what is left over ends in a line end
    right
    obtain ⟨c, last⟩ := Option.ne_none_iff_exists'.1 (mt List.getLast?_eq_none_iff.1 some)
    have left : 0 < solid (glyphs cs).2 := by
      refine solid_pos (List.mem_of_getLast? last) ?_
      rcases glyphs_left_last cs c last with rfl | rfl <;> decide
    rcases chars with same | less
    · rw [← same]
      omega
    · omega

/-! ## Text of tokens -/

namespace TokenSeq

open Glyph

variable {face : TokenFace} {ts : TokenSeq} {faces : List TokenFace} {i floor start stop : Nat}

/-- The tokens as they are spelled. -/
def spelledFaces (ts : TokenSeq) : List TokenFace :=
  ts.tokens.toList.map fun t => (t.kind, logicalChars t.raw)

/-- The tokens that carry meaning. -/
def carriers (faces : List TokenFace) : List TokenFace :=
  faces.filter fun face => !face.1.isTrivia

theorem spelled_faces_text (text : String) :
    (ofSource text).spelledFaces.flatMap Prod.snd = logicalChars text.toList := by
  rw [spelledFaces, List.flatMap_map, ← tokens_spelled]

theorem spelled_face_get {t : Token} (there : ts.get? i = some t) :
    ts.spelledFace i = (t.kind, logicalChars t.raw) := by
  rw [spelledFace, kind?, spelling_of_get there, there, String.toList_ofList]
  rfl

theorem spelled_faces_eq (ts : TokenSeq) : ts.spelledFaces = (List.range' 0 ts.size).map ts.spelledFace := by
  refine List.ext_getElem ?_ fun i inside _ => ?_
  · rw [spelledFaces, List.length_map, List.length_map, List.length_range']
    rfl
  · rw [spelledFaces, List.length_map] at inside
    have there : ts.get? i = some ts.tokens[i] := Array.getElem?_eq_getElem inside
    simp only [spelledFaces, List.getElem_map, List.getElem_range', Nat.zero_add, Nat.one_mul]
    rw [spelled_face_get there, Array.getElem_toList]

/-- The token as the meaning of a sequence lists it. -/
def spelledPart (face : TokenFace) : TokenKind × String :=
  (face.1, String.ofList face.2)

theorem spelled_part_inj {face' : TokenFace} (same : spelledPart face = spelledPart face') : face = face' := by
  obtain ⟨kind, text⟩ := Prod.mk.inj same
  exact Prod.ext kind (String.ofList_inj.1 text)

theorem spelled_part_face (ts : TokenSeq) (i : Nat) :
    spelledPart (ts.spelledFace i) = ((ts.kind? i).getD .unknown, ts.spelling i) :=
  Prod.ext rfl String.ofList_toList

theorem meaning_in_faces (ts : TokenSeq) (start stop : Nat) :
    ts.meaningIn start stop = ((ts.significant start stop).map ts.spelledFace).map spelledPart := by
  rw [meaningIn, List.map_map]
  exact List.map_congr_left fun i _ => (ts.spelled_part_face i).symm

/-- The meaning of a sequence is made of the tokens that carry one. -/
theorem meaning_carriers (ts : TokenSeq) : ts.meaning = (carriers ts.spelledFaces).map spelledPart := by
  have carry : ∀ i ∈ List.range' 0 ts.size, ts.isSignificant i = !(ts.spelledFace i).1.isTrivia := by
    intro i member
    have inside : i < ts.size := by
      rw [List.mem_range'_1] at member
      omega
    have there : ts.get? i = some ts.tokens[i] := Array.getElem?_eq_getElem inside
    rw [isSignificant, kindIs, kind?, spelled_face_get there, there]
    rfl
  have places : carriers ts.spelledFaces = (ts.significant 0 ts.size).map ts.spelledFace := by
    rw [carriers, spelled_faces_eq, List.filter_map, significant_eq, Nat.sub_zero, List.filter_congr carry]
    rfl
  rw [places]
  exact meaning_in_faces ts 0 ts.size

theorem carriers_cons (carries : face.1.isTrivia = false) (rest : List TokenFace) :
    carriers (face :: rest) = face :: carriers rest :=
  List.filter_cons_of_pos (by rw [carries]; rfl)

theorem carriers_trivia (trivia : face.1.isTrivia = true) (rest : List TokenFace) :
    carriers (face :: rest) = carriers rest :=
  List.filter_cons_of_neg (by rw [trivia]; decide)

/-- Tokens that carry no meaning are blanks, or some character is in them. -/
theorem carriers_solid (faces : List TokenFace) :
    (∀ face ∈ faces, face.1.isTrivia = true → ∀ c ∈ face.2, c = ' ') ∧
        solid ((carriers faces).flatMap Prod.snd) = solid (faces.flatMap Prod.snd) ∨
      solid ((carriers faces).flatMap Prod.snd) < solid (faces.flatMap Prod.snd) := by
  induction faces with
  | nil => exact .inl ⟨List.forall_mem_nil _, rfl⟩
  | cons face rest ih =>
    rw [List.flatMap_cons, solid_append]
    cases trivia : face.1.isTrivia with
    | false =>
      rw [carriers_cons trivia, List.flatMap_cons, solid_append]
      refine ih.imp (fun blanks => ⟨List.forall_mem_cons.2 ⟨?_, blanks.1⟩, by rw [blanks.2]⟩) fun less =>
        Nat.add_lt_add_left less _
      rw [trivia]
      exact fun none => absurd none Bool.false_ne_true
    | true =>
      rw [carriers_trivia trivia]
      rcases Nat.eq_zero_or_pos (solid face.2) with none | some
      · rw [none, Nat.zero_add]
        exact ih.imp_left fun blanks =>
          ⟨List.forall_mem_cons.2 ⟨fun _ => solid_blank none, blanks.1⟩, blanks.2⟩
      · right
        rcases ih with ⟨_, count⟩ | less <;> omega

section Settled

variable {text : String} (settled : normalize text = text)

include settled

theorem settled_chars : logicalChars text.toList = text.toList := by
  rwa [normalize, ← String.toList_inj, String.toList_ofList] at settled

/-- In a text that the first two phases leave as it is, tokens are spelled as they are written. -/
theorem settled_spelled : (ofSource text).spelledFaces = facesOf true [] (singles text.toList) ∧
    ∀ face ∈ (ofSource text).spelledFaces, logicalChars face.2 = face.2 := by
  have reads := reads_singles (settled_chars settled)
  have glyphs : glyphs text.toList = (singles text.toList, []) := by
    rwa [Reads, List.append_nil, singles_raw] at reads
  have tokens : (ofSource text).tokens.toList = scanGlyphs true 0 [] (singles text.toList) := by
    rw [of_source_scan, glyphs]
  have chars : scanGlyphs true 0 [] (singles text.toList) = scanChars true 0 text.toList := by
    rw [scanGlyphs, singles_char, singles, List.map_map]
    rfl
  have written : ∀ t ∈ (ofSource text).tokens.toList, logicalChars t.raw = t.raw := by
    rw [tokens, chars]
    intro t member
    exact String.ofList_inj.1 (scan_chars_spelling reads true 0 t member)
  constructor
  · rw [spelledFaces, facesOf, ← tokens]
    exact List.map_congr_left fun t member => Prod.ext rfl (written t member)
  · intro face member
    obtain ⟨t, listed, rfl⟩ := List.mem_map.1 member
    show logicalChars (logicalChars t.raw) = logicalChars t.raw
    rw [written t listed, written t listed]

/-- The tokens of such a text are read one behind the other. -/
theorem settled_reads : ReadsFrom [] true (ofSource text).spelledFaces := by
  obtain ⟨faces, written⟩ := settled_spelled settled
  have whole := (spelled_faces_text text).trans (settled_chars settled)
  rw [faces] at written whole ⊢
  obtain ⟨next, chars, reads⟩ := faces_reads (reads_singles (settled_chars settled))
    (List.append_nil _).symm written
  rw [singles_char, whole] at chars
  rwa [List.append_right_eq_self.1 chars.symm] at reads

end Settled

/-! ## Compact spellings -/

/-- Tokens with a blank between two words. `afterWord` tells whether a word stands in front. -/
def compact (afterWord : Bool) : List TokenFace → List TokenFace
  | [] => []
  | face :: rest =>
    (if readsAsWord face.1 && afterWord then [blank] else []) ++ face :: compact (readsAsWord face.1) rest

/-- None of the tokens clings to what stands behind it in their compact spelling. -/
def standApart : List TokenFace → Bool
  | [] => true
  | face :: rest =>
    !Lexeme.clings face.1 face.2 ((compact (readsAsWord face.1) rest).flatMap Prod.snd) && standApart rest

theorem spell_positions_compact (ts : TokenSeq) (afterWord : Bool) (positions : List Nat) :
    (ts.spellPositions afterWord positions).toList =
      (compact afterWord (positions.map ts.spelledFace)).flatMap Prod.snd := by
  induction positions generalizing afterWord with
  | nil => rfl
  | cons i rest ih =>
    have word : ts.kindIs i readsAsWord = readsAsWord (ts.spelledFace i).1 := by
      rw [kindIs, spelledFace]
      cases ts.kind? i <;> rfl
    rw [spellPositions, List.map_cons, compact, word, List.flatMap_append, List.flatMap_cons]
    simp only [String.toList_append, ih, List.append_assoc]
    rw [show (ts.spelledFace i).2 = (ts.spelling i).toList from rfl]
    split <;> rfl

/-- The token carries meaning, and is read so when nothing stands behind it. -/
def OwnFace (face : TokenFace) : Prop :=
  face.1.isTrivia = false ∧ ∃ lineStart first tail, face.2 = first :: tail ∧
    Lexeme.read lineStart first tail = (face.1, tail.length)

theorem own_face {source : String} (carries : (ofSource source).isSignificant i = true) :
    OwnFace ((ofSource source).spelledFace i) := by
  obtain ⟨kind, seen, other⟩ := kind_is_iff.1 carries
  obtain ⟨t, there, rfl⟩ := Option.map_eq_some_iff.1 seen
  rw [Bool.not_eq_true'] at other
  rw [spelled_face_get there]
  refine ⟨other, ?_⟩
  rcases token_in_text there with ⟨space, _⟩ | ⟨lineStart, first, tail, spelled, read⟩
  · rw [space] at other
    cases other
  · refine ⟨lineStart, first, tail, spelled, ?_⟩
    rw [Lexeme.read_front (by rw [read]), read]

theorem OwnFace.starts (own : OwnFace face) :
    ∃ first tail, face.2 = first :: tail ∧ Lexeme.isSpace first = false := by
  obtain ⟨carries, lineStart, first, tail, text, read⟩ := own
  refine ⟨first, tail, text, Bool.eq_false_iff.2 fun space => ?_⟩
  rw [Lexeme.read, if_pos space] at read
  rw [← (Prod.mk.inj read).1] at carries
  cases carries

/-- A compact spelling starts with a blank or with its first token. -/
theorem compact_head (own : ∀ face ∈ faces, OwnFace face) (afterWord : Bool) :
    ∀ c ∈ ((compact afterWord faces).flatMap Prod.snd).head?, c = ' ' ∨ Lexeme.isSpace c = false := by
  cases faces with
  | nil => exact fun c none => absurd none (Option.not_mem_none c)
  | cons face rest =>
    obtain ⟨first, tail, text, solid⟩ := (own face List.mem_cons_self).starts
    intro c head
    rw [compact] at head
    split at head
    · exact .inl (Option.some.inj head).symm
    · rw [List.nil_append, List.flatMap_cons, text] at head
      exact .inr ((Option.some.inj head) ▸ solid)

/-- Tokens are read off their compact spelling exactly if they stand apart. -/
theorem compact_reads_iff (own : ∀ face ∈ faces, OwnFace face) (afterWord : Bool) :
    ReadsFrom [] false (compact afterWord faces) ↔ standApart faces = true := by
  induction faces generalizing afterWord with
  | nil => exact iff_of_true trivial rfl
  | cons face rest ih =>
    obtain ⟨here, later⟩ := List.forall_mem_cons.1 own
    obtain ⟨first, tail, text, solid⟩ := here.starts
    obtain ⟨carries, lineStart, first', tail', text', read⟩ := here
    obtain ⟨rfl, rfl⟩ := List.cons.inj (text.symm.trans text')
    have line : ((compact (readsAsWord face.1) rest).flatMap Prod.snd).head? ≠ some '\n' := by
      intro head
      rcases compact_head later _ '\n' head with blank | other
      · cases blank
      · cases other
    have token : ReadsFrom [] false (face :: compact (readsAsWord face.1) rest) ↔
        standApart (face :: rest) = true := by
      rw [ReadsFrom, no_line_behind carries, ih later, standApart, Bool.and_eq_true, Bool.not_eq_true', text,
        List.append_nil, ← Lexeme.read_again_iff read carries line]
      refine and_congr_left fun _ => ⟨?_, fun again => ⟨first, tail, rfl, again⟩⟩
      rintro ⟨_, _, ⟨⟩, again⟩
      exact again
    rw [compact]
    split
    · rw [List.singleton_append, ReadsFrom, ← token]
      refine and_iff_right ⟨' ', [], rfl, ?_⟩
      show (TokenKind.space, Lexeme.runLength Lexeme.isSpace _) = (.space, 0)
      rw [List.flatMap_cons, text, List.nil_append, List.cons_append, List.cons_append, Lexeme.run_length_cons,
        solid, if_neg Bool.false_ne_true]
    · exact token

theorem compact_carriers (own : ∀ face ∈ faces, OwnFace face) (afterWord : Bool) :
    carriers (compact afterWord faces) = faces := by
  induction faces generalizing afterWord with
  | nil => rfl
  | cons face rest ih =>
    obtain ⟨here, later⟩ := List.forall_mem_cons.1 own
    have token := carriers_cons here.1 (compact (readsAsWord face.1) rest)
    rw [ih later] at token
    rw [compact]
    split
    · exact token
    · exact token

theorem compact_solid (faces : List TokenFace) (afterWord : Bool) :
    solid ((compact afterWord faces).flatMap Prod.snd) = solid (faces.flatMap Prod.snd) := by
  induction faces generalizing afterWord with
  | nil => rfl
  | cons face rest ih =>
    rw [compact, List.flatMap_append, solid_append, List.flatMap_cons, List.flatMap_cons, solid_append,
      solid_append, ih]
    split <;> exact Nat.zero_add _

/-- Tokens that carry meaning, with blanks between them that make up the text of a compact spelling, are
the tokens of that spelling. -/
theorem compact_of_text {faces words : List TokenFace} {lineStart afterWord : Bool}
    (reads : ReadsFrom [] lineStart faces) (blanks : ∀ face ∈ faces, face.1.isTrivia = true → ∀ c ∈ face.2, c = ' ')
    (listed : carriers faces = words) (own : ∀ face ∈ words, OwnFace face)
    (text : faces.flatMap Prod.snd = (compact afterWord words).flatMap Prod.snd) :
    faces = compact afterWord words := by
  induction faces generalizing words lineStart afterWord with
  | nil =>
    subst listed
    rfl
  | cons face rest ih =>
    obtain ⟨⟨first, tail, written, read⟩, later⟩ := reads
    obtain ⟨here, behind⟩ := List.forall_mem_cons.1 blanks
    rw [List.flatMap_cons, written, List.cons_append] at text
    cases trivia : face.1.isTrivia with
    | false =>
      rw [carriers_cons trivia] at listed
      subst listed
      obtain ⟨own, others⟩ := List.forall_mem_cons.1 own
      obtain ⟨first', tail', written', solid⟩ := own.starts
      obtain ⟨rfl, rfl⟩ := List.cons.inj (written.symm.trans written')
      rw [compact] at text ⊢
      split at text
      · rw [(List.cons.inj text).1] at solid
        cases solid
      · rename_i none
        rw [if_neg none]
        rw [List.nil_append, List.flatMap_cons, written, List.cons_append] at text
        have same := List.append_cancel_left (List.cons.inj text).2
        rw [← ih later behind rfl others same]
        rfl
    | true =>
      rw [carriers_trivia trivia] at listed
      obtain ⟨rfl, spaces⟩ := List.forall_mem_cons.1 (written ▸ here trivia)
      cases words with
      | nil => exact absurd text (List.cons_ne_nil _ _)
      | cons word words =>
        obtain ⟨c, cs, starts, solid⟩ := (own word List.mem_cons_self).starts
        rw [compact] at text ⊢
        split at text
        · rename_i both
          rw [List.singleton_append, List.flatMap_cons, List.flatMap_cons, starts] at text
          have text := (List.cons.inj text).2
          cases tail with
          | cons d tail =>
            rw [← (List.cons.inj text).1, spaces d List.mem_cons_self] at solid
            cases solid
          | nil =>
            have kind : face = blank := Prod.ext (Prod.mk.inj read).1.symm written
            have front : compact false (word :: words) = word :: compact (readsAsWord word.1) words := by
              rw [compact, Bool.and_false, if_neg Bool.false_ne_true, List.nil_append]
            have same := @ih (word :: words) _ false later behind listed own
              (by rw [front, List.flatMap_cons, starts]; exact text)
            rw [if_pos both, kind, same, front]
            rfl
        · rw [List.nil_append, List.flatMap_cons, starts] at text
          rw [← (List.cons.inj text).1] at solid
          cases solid

theorem OwnFace.no_hash (own : OwnFace face) (other : face.1 ≠ .directive ∧ face.1 ≠ .operator) :
    face.2.head? ≠ some '#' := by
  obtain ⟨_, lineStart, first, tail, text, read⟩ := own
  rw [text]
  rintro ⟨⟩
  cases lineStart with
  | true => exact other.1 ((congrArg Prod.fst read).symm.trans (Lexeme.read_hash tail).1)
  | false => exact other.2 ((congrArg Prod.fst read).symm.trans (Lexeme.read_hash tail).2)

/-- It makes no difference whether a line starts with the spelling, unless it starts with a `#`. -/
theorem compact_any_line (own : ∀ face ∈ faces, OwnFace face) (hash : ∀ face ∈ faces.head?, face.2.head? ≠ some '#') :
    ReadsFrom [] true (compact false faces) ↔ ReadsFrom [] false (compact false faces) := by
  cases faces with
  | nil => exact Iff.rfl
  | cons face rest =>
    have other := hash face rfl
    have carries := (own face List.mem_cons_self).1
    rw [compact, Bool.and_false, if_neg Bool.false_ne_true, List.nil_append, ReadsFrom, ReadsFrom,
      no_line_behind carries, no_line_behind carries]
    refine and_congr_left fun _ => ?_
    constructor
    · rintro ⟨first, tail, text, read⟩
      rw [text] at other
      exact ⟨first, tail, text, by rwa [Lexeme.read_any_line (fun same => other (same ▸ rfl))] at read⟩
    · rintro ⟨first, tail, text, read⟩
      rw [text] at other
      exact ⟨first, tail, text, by rwa [Lexeme.read_any_line (fun same => other (same ▸ rfl))]⟩

/-- A compact spelling has the tokens it was made of exactly if the first two phases leave it as it is and
the tokens stand apart in it. -/
theorem compact_again_iff {text : String} (own : ∀ face ∈ faces, OwnFace face)
    (hash : ∀ face ∈ faces.head?, face.2.head? ≠ some '#')
    (written : text.toList = (compact false faces).flatMap Prod.snd) :
    carriers (ofSource text).spelledFaces = faces ↔ normalize text = text ∧ standApart faces = true := by
  constructor
  · intro listed
    have count := compact_solid faces false
    rw [← written] at count
    have spelled := spelled_faces_text text
    have most := carriers_solid (ofSource text).spelledFaces
    rw [listed, spelled] at most
    -- no character is lost to the phases, and none but blanks to the tokens in between
    have same : logicalChars text.toList = text.toList := by
      refine (logical_solid text.toList).resolve_right fun less => ?_
      rcases most with ⟨_, all⟩ | less' <;> omega
    rw [same] at most
    obtain ⟨blanks, _⟩ := most.resolve_right (by omega)
    have settled : normalize text = text := by rw [normalize, same, String.ofList_toList]
    have reads := settled_reads settled
    have same := compact_of_text reads blanks listed own
      ((spelled.trans (settled_chars settled)).trans written)
    rw [same, compact_any_line own hash, compact_reads_iff own] at reads
    exact ⟨settled, reads⟩
  · rintro ⟨settled, apart⟩
    have reads := (compact_any_line own hash).2 ((compact_reads_iff own false).2 apart)
    rw [(settled_spelled settled).1, written, reads.faces, compact_carriers own]

/-! ## Subjects -/

theorem postfix_start_kind {inner : List (Nat × Nat)} (expression : ts.Postfix floor start stop inner) :
    ts.kind? start = some .identifier ∨ ts.kind? start = some .openParen := by
  induction expression with
  | name seen => exact .inl seen
  | group closes opens => exact .inr (@matching_open_kind _ _ _ _ .paren closes opens)
  | member _ _ _ _ _ ih => exact ih
  | subscript _ _ _ _ ih => exact ih

/-- The first token of a subject. -/
theorem lvalue_head {assign : Nat} (hit : ts.lvalueBefore assign floor = some (start, stop)) :
    (ts.significant start stop).head? = some start ∧
      ∃ kind, ts.kind? start = some kind ∧ kind ≠ .directive ∧ kind ≠ .operator := by
  obtain ⟨last, first, _, found, rfl, begins⟩ := lvalue_before_cases hit
  obtain ⟨inner, expression⟩ := postfix_of_start found
  have width := postfix_nonempty expression
  have stands : ts.Stands start (last + 1) start := by
    refine ⟨Nat.le_refl start, ?_, (lvalue_first hit).2.2⟩
    rcases begins with rfl | ⟨starred, _⟩
    · exact width
    · have bounds := prev_significant_bounds starred
      omega
  have none : ts.significant start start = [] := by
    rw [significant_eq, Nat.sub_self]
    rfl
  refine ⟨by rw [significant_split stands, none]; rfl, ?_⟩
  rcases begins with rfl | ⟨_, star⟩
  · rcases postfix_start_kind expression with name | group
    · exact ⟨_, name, by decide, by decide⟩
    · exact ⟨_, group, by decide, by decide⟩
  · exact ⟨_, star, by decide, by decide⟩

/-- The text of a subject has the tokens of the subject when it is read again exactly if no token of the
subject clings to what stands behind it, and no trigraph or joined line end has come about. -/
theorem spell_range_again_iff {source : String} {assign floor start stop : Nat}
    (hit : (ofSource source).lvalueBefore assign floor = some (start, stop)) :
    let ts := ofSource source
    let text := ts.spellRange start stop
    (ofSource text).meaning = ts.meaningIn start stop ↔
      normalize text = text ∧ standApart ((ts.significant start stop).map ts.spelledFace) = true := by
  intro ts text
  obtain ⟨head, kind, seen, other⟩ := lvalue_head hit
  have own : ∀ face ∈ (ts.significant start stop).map ts.spelledFace, OwnFace face := by
    intro face member
    obtain ⟨i, inside, rfl⟩ := List.mem_map.1 member
    exact own_face (List.mem_filter.1 inside).2
  have hash : ∀ face ∈ ((ts.significant start stop).map ts.spelledFace).head?, face.2.head? ≠ some '#' := by
    intro face first
    refine (own face (List.mem_of_mem_head? first)).no_hash ?_
    rw [List.head?_map, head, Option.map_some] at first
    obtain rfl := Option.some.inj first
    rwa [spelledFace, seen, Option.getD_some]
  have again := compact_again_iff own hash (spell_positions_compact ts false _)
  rw [meaning_carriers, meaning_in_faces]
  exact (List.map_injective_iff.2 fun _ _ => spelled_part_inj).eq_iff.trans again

/-- A subject with members and a subscript. -/
theorem spell_range_again_iff_subscript :
    let source := "\x7b s->buf[sizeof (int) * i + 1] = malloc(1); \x7d"
    let ts := ofSource source
    let text := "s->buf[sizeof(int)*i+1]"
    ts.lvalueBefore 21 0 = some (2, 20) ∧ ts.spellRange 2 20 = text ∧ normalize text = text ∧
      standApart ((ts.significant 2 20).map ts.spelledFace) = true ∧
      (ofSource text).meaning = ts.meaningIn 2 20 := by
  intro source ts text
  obtain ⟨hit, spelled, settled, apart⟩ : ts.lvalueBefore 21 0 = some (2, 20) ∧ ts.spellRange 2 20 = text ∧
      normalize text = text ∧ standApart ((ts.significant 2 20).map ts.spelledFace) = true := by
    decide +kernel
  -- from here on only these facts matter, and no step may compute with the text
  clear_value source text
  refine ⟨hit, spelled, settled, apart, ?_⟩
  subst spelled
  exact (spell_range_again_iff hit).2 ⟨settled, apart⟩

/-- Two signs run together to another operator, and a division by what a pointer points to opens a
comment. -/
theorem spell_range_runs_together :
    let signs := ofSource "\x7b a[i - -1] = malloc(1); \x7d"
    let division := ofSource "\x7b a[n / *k] = malloc(1); \x7d"
    signs.lvalueBefore 12 0 = some (2, 11) ∧ signs.spellRange 2 11 = "a[i--1]" ∧
      (signs.meaningIn 2 11).map Prod.snd = ["a", "[", "i", "-", "-", "1", "]"] ∧
      (ofSource "a[i--1]").meaning.map Prod.snd = ["a", "[", "i", "--", "1", "]"] ∧
    division.lvalueBefore 12 0 = some (2, 11) ∧ division.spellRange 2 11 = "a[n/*k]" ∧
      (division.meaningIn 2 11).map Prod.snd = ["a", "[", "n", "/", "*", "k", "]"] ∧
      (ofSource "a[n/*k]").meaning.map Prod.snd = ["a", "[", "n"] := by
  decide +kernel

end TokenSeq

end AllocGuard
