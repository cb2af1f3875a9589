import AllocGuard.Proofs.SourcePartition

/-! The scan sees logical characters only. A stretch of text between two glyphs is read by itself as
the glyphs that stand there, so a token is spelled by the logical characters it was scanned from.
Hence a text and the text of its logical characters have the same tokens. Two things are read from
the text as it is written and are kept apart: joined line ends at the very end of a text, and white
space with joined line ends, which passes for the start of a line. -/
namespace AllocGuard

/-! ## Reading a stretch of text by itself -/

namespace Glyph

variable {cs held left : List Char} {gs : List Glyph} {count : Nat}

/-- The first glyph takes its own text from the front, and is read in the same way when less text
follows. -/
theorem replace_trigraphs_first {g : Glyph} (read : replaceTrigraphs cs = g :: gs) :
    ∃ rest, cs = g.raw ++ rest ∧ gs = replaceTrigraphs rest ∧
      ∀ front, front <+: rest → replaceTrigraphs (g.raw ++ front) = g :: replaceTrigraphs front := by
  revert read
  fun_cases replaceTrigraphs cs with
  | case1 c rest meant known =>
    rintro ⟨⟩
    exact ⟨rest, rfl, rfl, fun front _ => replace_known known front⟩
  | case2 c rest unknown =>
    rintro ⟨⟩
    refine ⟨'?' :: c :: rest, rfl, rfl, ?_⟩
    rintro front ⟨back, whole⟩
    rcases front with _ | ⟨first, _ | ⟨second, front⟩⟩
    · rfl
    · obtain ⟨rfl, _⟩ := List.cons.inj whole
      rfl
    · obtain ⟨rfl, later⟩ := List.cons.inj whole
      obtain ⟨rfl, _⟩ := List.cons.inj later
      exact replace_unknown unknown front
  | case3 c rest plain =>
    rintro ⟨⟩
    refine ⟨rest, rfl, rfl, ?_⟩
    rintro front ⟨back, rfl⟩
    refine replaceTrigraphs.eq_2 c front fun d more mark here => ?_
    exact plain d (more ++ back) mark (by rw [here]; rfl)
  | case4 => rintro ⟨⟩

theorem replace_trigraphs_take (cs : List Char) (count : Nat) :
    replaceTrigraphs (((replaceTrigraphs cs).take count).flatMap raw) =
      (replaceTrigraphs cs).take count := by
  induction count generalizing cs with
  | zero => rfl
  | succ count ih =>
    cases read : replaceTrigraphs cs with
    | nil => rfl
    | cons g gs =>
      obtain ⟨rest, _, rfl, shorter⟩ := replace_trigraphs_first read
      have front : ((replaceTrigraphs rest).take count).flatMap raw <+: rest := by
        refine ⟨((replaceTrigraphs rest).drop count).flatMap raw, ?_⟩
        rw [← List.flatMap_append, List.take_append_drop, replace_trigraphs_raw]
      rw [List.take_succ_cons, List.flatMap_cons, shorter _ front, ih]

theorem replace_trigraphs_drop (cs : List Char) (count : Nat) :
    replaceTrigraphs (((replaceTrigraphs cs).drop count).flatMap raw) =
      (replaceTrigraphs cs).drop count := by
  induction count generalizing cs with
  | zero => rw [List.drop_zero, replace_trigraphs_raw]
  | succ count ih =>
    cases read : replaceTrigraphs cs with
    | nil => rfl
    | cons g gs =>
      obtain ⟨rest, _, rfl, _⟩ := replace_trigraphs_first read
      rw [List.drop_succ_cons, ih]

/-- Glyphs that were read were read from some. -/
theorem cut_positive {read : List Glyph} {cut : Nat} (positive : 0 < count) (inside : count ≤ read.length)
    (front : joinLines held (gs.take cut) = (read.take count, [])) : ∃ earlier, cut = earlier + 1 := by
  cases cut with
  | zero =>
    have none := congrArg (fun read => read.1.length) front
    simp only [List.take_zero, joinLines, List.length_nil, List.length_take] at none
    omega
  | succ earlier => exact ⟨earlier, rfl⟩

/-- A cut behind a glyph is a cut between two glyphs of the first phase. The induction follows the
joining, which holds text back only in front of another glyph. -/
theorem join_lines_cut_behind {held : List Char} {gs : List Glyph} {count : Nat} (positive : 0 < count)
    (inside : count ≤ (joinLines held gs).1.length) :
    ∃ cut, joinLines held (gs.take cut) = ((joinLines held gs).1.take count, []) ∧
      joinLines [] (gs.drop cut) = ((joinLines held gs).1.drop count, (joinLines held gs).2) := by
  induction held, gs using joinLines.induct generalizing count with
  | case1 held => exact absurd inside (Nat.not_le_of_lt positive)
  | case2 held g =>
    have one : count = 1 := Nat.le_antisymm inside positive
    subst one
    exact ⟨1, rfl, rfl⟩
  | case3 held g next rest joined ih =>
    rw [join_newline joined] at inside ⊢
    obtain ⟨cut, front, back⟩ := ih positive inside
    exact ⟨cut + 2, (join_newline joined held _).trans front, back⟩
  | case4 held g next unjoined joined =>
    rw [join_carriage joined] at inside
    exact absurd inside (Nat.not_le_of_lt positive)
  | case5 held g next unjoined joined feed rest fed ih =>
    rw [join_carriage_newline joined fed] at inside ⊢
    obtain ⟨cut, front, back⟩ := ih positive inside
    exact ⟨cut + 3, (join_carriage_newline joined fed held _).trans front, back⟩
  | case6 held g next unjoined joined feed rest unfed ih =>
    rw [join_carriage_other joined unfed] at inside ⊢
    obtain ⟨cut, front, back⟩ := ih positive inside
    obtain ⟨earlier, rfl⟩ := cut_positive positive inside front
    exact ⟨earlier + 3, (join_carriage_other joined unfed held _).trans front, back⟩
  | case7 held g next rest unjoined plain glyphs left split ih =>
    have kept (more : List Glyph) : Kept g (next :: more) := by
      rintro backslash _ ⟨⟩
      exact ⟨fun newline => unjoined ⟨backslash, newline⟩, fun carriage => plain ⟨backslash, carriage⟩⟩
    rw [join_lines_kept (kept rest)] at inside ⊢
    obtain ⟨count, rfl⟩ := Nat.exists_eq_add_of_lt positive
    rcases Nat.eq_zero_or_pos count with rfl | more
    · exact ⟨1, rfl, rfl⟩
    · simp only [Nat.zero_add, List.length_cons, Nat.add_le_add_iff_right] at inside
      obtain ⟨cut, front, back⟩ := ih more inside
      obtain ⟨earlier, rfl⟩ := cut_positive more inside front
      refine ⟨earlier + 2, ?_, ?_⟩
      · rw [List.take_succ_cons, List.take_succ_cons, join_lines_kept (kept _), ← List.take_succ_cons,
          front, Nat.zero_add, List.take_succ_cons]
      · rw [Nat.zero_add, List.drop_succ_cons, List.drop_succ_cons]
        exact back

/-- The glyphs are those of their own text, followed by the joined line ends `left`. -/
def Reads (gs : List Glyph) (left : List Char) : Prop :=
  glyphs (gs.flatMap raw ++ left) = (gs, left)

theorem reads_glyphs (source : List Char) : Reads (glyphs source).1 (glyphs source).2 := by
  rw [Reads, glyphs_raw]

/-- Text can be cut between any two of its glyphs, and both parts are read as before. -/
theorem Reads.cut (reads : Reads gs left) (inside : count ≤ gs.length) :
    Reads (gs.take count) [] ∧ Reads (gs.drop count) left := by
  rcases Nat.eq_zero_or_pos count with rfl | positive
  · exact ⟨rfl, reads⟩
  · rw [Reads, glyphs] at reads
    have phase := replace_trigraphs_take (gs.flatMap raw ++ left)
    have phase' := replace_trigraphs_drop (gs.flatMap raw ++ left)
    generalize replaceTrigraphs (gs.flatMap raw ++ left) = first at reads phase phase'
    obtain ⟨cut, front, back⟩ := @join_lines_cut_behind [] first count positive
      (by rw [reads]; exact inside)
    rw [reads] at front back
    have kept := join_lines_raw [] (first.take cut)
    have kept' := join_lines_raw [] (first.drop cut)
    rw [front] at kept
    rw [back] at kept'
    constructor
    · rw [Reads, kept, List.nil_append, glyphs, phase, front]
    · rw [Reads, kept', List.nil_append, glyphs, phase', back]

theorem Reads.take (reads : Reads gs left) (count : Nat) : Reads (gs.take count) [] := by
  rw [List.take_eq_take_min]
  exact (reads.cut (Nat.min_le_right _ _)).1

theorem Reads.drop (reads : Reads gs left) (count : Nat) : Reads (gs.drop count) left := by
  by_cases inside : count ≤ gs.length
  · exact (reads.cut inside).2
  · have whole := (reads.cut (Nat.le_refl gs.length)).2
    rwa [List.drop_length, ← List.drop_eq_nil_of_le (Nat.le_of_not_le inside)] at whole

/-- The text of glyphs stands for their characters. -/
theorem Reads.logical (reads : Reads gs left) : logicalChars (gs.flatMap raw ++ left) = gs.map char := by
  rw [logicalChars, reads]

/-- A glyph is one of the first phase, with the text that was held back in front of it. -/
theorem join_lines_from : ∀ g ∈ (joinLines held gs).1, ∃ first ∈ gs, first.char = g.char ∧ first.raw <:+ g.raw := by
  fun_induction joinLines held gs with
  | case1 held => exact List.forall_mem_nil _
  | case2 held g =>
    intro found member
    obtain rfl := List.mem_singleton.1 member
    exact ⟨g, List.mem_singleton_self g, rfl, List.suffix_append held g.raw⟩
  | case3 held g next rest joined ih =>
    intro found member
    obtain ⟨first, inside, same⟩ := ih found member
    exact ⟨first, List.mem_cons_of_mem _ (List.mem_cons_of_mem _ inside), same⟩
  | case4 held g next unjoined joined => exact List.forall_mem_nil _
  | case5 held g next unjoined joined feed rest fed ih =>
    intro found member
    obtain ⟨first, inside, same⟩ := ih found member
    exact ⟨first, List.mem_cons_of_mem _ (List.mem_cons_of_mem _ (List.mem_cons_of_mem _ inside)), same⟩
  | case6 held g next unjoined joined feed rest unfed ih =>
    intro found member
    obtain ⟨first, inside, same⟩ := ih found member
    exact ⟨first, List.mem_cons_of_mem _ (List.mem_cons_of_mem _ inside), same⟩
  | case7 held g next rest unjoined plain glyphs left split ih =>
    rw [split] at ih
    intro found member
    rcases List.mem_cons.1 member with rfl | later
    · exact ⟨g, List.mem_cons_self, rfl, List.suffix_append held g.raw⟩
    · obtain ⟨first, inside, same⟩ := ih found later
      exact ⟨first, List.mem_cons_of_mem _ inside, same⟩

/-- No trigraph stands for a line end. -/
theorem replace_trigraphs_newline : ∀ g ∈ replaceTrigraphs cs, g.char = '\n' → '\n' ∈ g.raw := by
  fun_induction replaceTrigraphs cs with
  | case1 c rest meant known ih =>
    refine List.forall_mem_cons.2 ⟨fun newline => ?_, ih⟩
    obtain rfl : meant = '\n' := newline
    unfold trigraph at known
    split at known <;> cases known
  | case2 c rest unknown ih => exact List.forall_mem_cons.2 ⟨fun newline => absurd newline (by decide), ih⟩
  | case3 c rest plain ih =>
    exact List.forall_mem_cons.2 ⟨fun newline => List.mem_singleton.2 newline.symm, ih⟩
  | case4 => exact List.forall_mem_nil _

/-- A line end that is kept is written as one. -/
theorem Reads.newline (reads : Reads gs left) (ends : '\n' ∈ gs.map char) : '\n' ∈ gs.flatMap raw := by
  obtain ⟨g, member, newline⟩ := List.mem_map.1 ends
  have found : g ∈ (glyphs (gs.flatMap raw ++ left)).1 := by rwa [reads]
  obtain ⟨first, inside, same, text⟩ := join_lines_from g found
  have written := replace_trigraphs_newline first inside (same.trans newline)
  exact List.mem_flatMap.2 ⟨g, member, text.subset written⟩

/-! ## Texts of logical characters -/

/-- The characters as glyphs that stand for themselves. -/
def singles (cs : List Char) : List Glyph :=
  cs.map fun c => ⟨c, [c]⟩

@[simp] theorem singles_char (cs : List Char) : (singles cs).map char = cs := by
  rw [singles, List.map_map]
  exact List.map_id' cs

@[simp] theorem singles_raw (cs : List Char) : (singles cs).flatMap raw = cs := by
  simp [singles, List.flatMap_map]

theorem singles_take (cs : List Char) (count : Nat) : (singles cs).take count = singles (cs.take count) :=
  List.map_take.symm

theorem singles_drop (cs : List Char) (count : Nat) : (singles cs).drop count = singles (cs.drop count) :=
  List.map_drop.symm

theorem length_le_raw (nonempty : ∀ g ∈ gs, g.raw ≠ []) : gs.length ≤ (gs.flatMap raw).length := by
  induction gs with
  | nil => exact Nat.le_refl 0
  | cons g gs ih =>
    have first := List.length_pos_iff.2 (nonempty g List.mem_cons_self)
    have later := ih fun g member => nonempty g (List.mem_cons_of_mem _ member)
    rw [List.flatMap_cons, List.length_append, List.length_cons]
    omega

/-- Glyphs whose text is the text of their characters stand for themselves: there is no more text
than one character for each. -/
theorem eq_singles (nonempty : ∀ g ∈ gs, g.raw ≠ []) (same : gs.flatMap raw ++ left = gs.map char) :
    gs = singles (gs.map char) ∧ left = [] := by
  induction gs with
  | nil => exact ⟨rfl, same⟩
  | cons g gs ih =>
    have behind : ∀ g ∈ gs, g.raw ≠ [] := fun g member => nonempty g (List.mem_cons_of_mem _ member)
    have long := length_le_raw behind
    obtain ⟨c, more, text⟩ := List.exists_cons_of_ne_nil (nonempty g List.mem_cons_self)
    rw [List.flatMap_cons, text, List.map_cons, List.cons_append, List.cons_append, List.cons.injEq] at same
    obtain ⟨rfl, later⟩ := same
    have count := congrArg List.length later
    simp only [List.length_append, List.length_map] at count
    have none : more = [] := List.eq_nil_of_length_eq_zero (by omega)
    rw [none, List.nil_append] at later
    obtain ⟨singles, left⟩ := ih behind later
    refine ⟨?_, left⟩
    rw [List.map_cons, Glyph.singles, List.map_cons, ← Glyph.singles, ← singles, ← none, ← text]

/-- A text that is its own text of logical characters is read character by character. -/
theorem reads_singles (settled : logicalChars cs = cs) : Reads (singles cs) [] := by
  have text := glyphs_raw cs
  obtain ⟨chars, left⟩ := eq_singles (glyphs_nonempty cs) (text.trans settled.symm)
  have chars : (glyphs cs).1 = singles cs := chars.trans (congrArg singles settled)
  rw [Reads, List.append_nil, singles_raw, ← chars, ← left]

end Glyph

/-! ## The scan -/

/-- What a token is and how it is spelled. -/
def Token.spelled (t : Token) : TokenKind × String :=
  (t.kind, t.spelling)

/-- White space that stands for some characters and has line ends in its text, all of them joined
away. -/
def Token.JoinsOnly (t : Token) : Prop :=
  t.kind = .space ∧ t.spelling ≠ "" ∧ '\n' ∈ t.raw ∧ '\n' ∉ t.spelling.toList

instance (t : Token) : Decidable t.JoinsOnly :=
  inferInstanceAs (Decidable (_ ∧ _ ∧ _ ∧ _))

namespace TokenSeq

open Glyph

/-- The tokens of characters that stand for themselves. -/
def scanChars (lineStart : Bool) (start : Nat) (chars : List Char) : List Token :=
  scan lineStart start [] chars (chars.map fun c => [c])

theorem scan_chars_cons (lineStart : Bool) (start : Nat) (c : Char) (chars : List Char) :
    scanChars lineStart start (c :: chars) =
      let (kind, more) := Lexeme.read lineStart c chars
      let raw := c :: chars.take more
      ⟨kind, start, raw⟩ ::
        scanChars (lineStartAfter lineStart kind raw) (start + Text.byteLength raw) (chars.drop more) := by
  have flat (chars : List Char) : (chars.map fun c => [c]).flatten = chars := by
    rw [← List.flatMap_def, List.flatMap_singleton']
  simp only [scanChars, List.map_cons, scan, ← List.map_take, ← List.map_drop, flat, List.singleton_append]

/-- One step takes the same characters from glyphs as from characters that stand for themselves, and
a line starts behind it in the same case. -/
theorem step_transparent {taken : List Glyph} (reads : Reads taken []) (some : taken ≠ []) (lineStart : Bool)
    {kind : TokenKind} {start : Nat} (lines : ¬ Token.JoinsOnly ⟨kind, start, taken.flatMap raw⟩) :
    logicalChars (taken.flatMap raw) = taken.map char ∧
      lineStartAfter lineStart kind (taken.flatMap raw) =
        lineStartAfter lineStart kind (taken.map char) := by
  have spelled := reads.logical
  rw [List.append_nil] at spelled
  refine ⟨spelled, ?_⟩
  have newline (space : kind = .space) :
      (taken.flatMap raw).contains '\n' = (taken.map char).contains '\n' := by
    rw [Bool.eq_iff_iff, List.contains_iff_mem, List.contains_iff_mem]
    refine ⟨fun written => Decidable.of_not_not fun missing => ?_, reads.newline⟩
    refine lines ⟨space, ?_, written, ?_⟩
    · rw [Token.spelling, spelled, ← String.ofList_nil, Ne, String.ofList_inj, List.map_eq_nil_iff]
      exact some
    · rw [Token.spelling, spelled, String.toList_ofList]
      exact missing
  cases kind with
  | space => rw [lineStartAfter, lineStartAfter, newline rfl]
  | _ => rfl

/-- The scan of glyphs follows the scan of their characters, and what it takes is spelled by these
characters. Joined line ends behind the last glyph are a token that stands for none. -/
theorem scan_transparent {gs : List Glyph} {left : List Char} (reads : Reads gs left) (lineStart : Bool)
    (start start' : Nat) (lines : ∀ t ∈ scan lineStart start left (gs.map char) (gs.map raw), ¬ t.JoinsOnly) :
    (scan lineStart start left (gs.map char) (gs.map raw)).map Token.spelled =
      (scanChars lineStart start' (gs.map char)).map (fun t => (t.kind, t.text)) ++
        if left.isEmpty then [] else [(.space, "")] := by
  induction gs using scan_induction generalizing lineStart start start' with
  | nil =>
    have none : logicalChars left = [] := reads.logical
    simp only [List.map_nil, scanChars, scan, List.isEmpty_nil, if_true, List.nil_append]
    split
    · rfl
    · simp only [List.map_cons, List.map_nil, Token.spelled, Token.spelling, none, String.ofList_nil]
  | cons g rest ih =>
    have chars : (g :: rest).map char = g.char :: rest.map char := rfl
    rw [scan_glyph] at lines ⊢
    rw [chars, scan_chars_cons]
    generalize Lexeme.read lineStart g.char (rest.map char) = token at lines ⊢
    obtain ⟨kind, more⟩ := token
    obtain ⟨here, later⟩ := List.forall_mem_cons.1 lines
    obtain ⟨spelled, line⟩ := step_transparent (reads.take (more + 1)) (List.cons_ne_nil _ _) lineStart here
    rw [List.take_succ_cons, List.flatMap_cons, List.map_cons, List.map_take] at spelled line
    have token : Token.spelled ⟨kind, start, g.raw ++ (rest.take more).flatMap raw⟩ =
        (kind, String.ofList (g.char :: (rest.map char).take more)) := by
      rw [Token.spelled, Token.spelling, spelled]
    dsimp only at later ⊢
    rw [List.map_cons, List.map_cons, List.cons_append, token, ← line, ← List.map_drop]
    exact congrArg _ (ih more (reads.drop (more + 1)) _ _ _ later)

/-- In a text that is read character by character, every token is spelled as it is written. -/
theorem scan_chars_spelling {chars : List Char} (settled : Reads (singles chars) []) (lineStart : Bool)
    (start : Nat) : ∀ t ∈ scanChars lineStart start chars, t.spelling = t.text := by
  induction chars using scan_induction generalizing lineStart start with
  | nil =>
    simp only [scanChars, List.map_nil, scan, List.isEmpty_nil, if_true]
    exact List.forall_mem_nil _
  | cons c chars ih =>
    rw [scan_chars_cons]
    generalize Lexeme.read lineStart c chars = token
    obtain ⟨kind, more⟩ := token
    have whole := (settled.take (more + 1)).logical
    rw [List.append_nil, singles_take, singles_raw, singles_char, List.take_succ_cons] at whole
    have behind := settled.drop (more + 1)
    rw [singles_drop, List.drop_succ_cons] at behind
    refine List.forall_mem_cons.2 ⟨congrArg String.ofList whole, ?_⟩
    exact ih more behind _ _

theorem scan_chars_nonempty (lineStart : Bool) (start : Nat) (chars : List Char) :
    ∀ t ∈ scanChars lineStart start chars, t.text ≠ "" := by
  have tiled := scan_tiles lineStart start [] chars (chars.map fun c => [c]) (by simp) (by simp)
  intro t member
  rw [Token.text, ← String.ofList_nil, Ne, String.ofList_inj]
  exact tile_nonempty tiled t member

/-- The tokens in order: what each of them is and how it is spelled. -/
def spelled (ts : TokenSeq) : List (TokenKind × String) :=
  ts.tokens.toList.map Token.spelled

/-- The list without its last token, if that stands for no character. -/
def dropSilentEnd (stream : List (TokenKind × String)) : List (TokenKind × String) :=
  if stream.getLast?.any (·.2 == "") then stream.dropLast else stream

theorem drop_silent_end_append {stream : List (TokenKind × String)} (loud : ∀ part ∈ stream, part.2 ≠ "")
    (silent : Bool) : dropSilentEnd (stream ++ if silent then [] else [(.space, "")]) = stream := by
  cases silent with
  | true =>
    have last : stream.getLast?.any (·.2 == "") = false := by
      rw [Option.any_eq_false]
      intro part final
      exact beq_false_of_ne (loud part (List.mem_of_getLast? final))
    rw [if_pos rfl, List.append_nil, dropSilentEnd, last]
    rfl
  | false => simp [dropSilentEnd]

/-- The first two phases of reading do not show in the tokens. If a text has been through them and
would come out of them again as it is, it has the tokens of the text that went in, by kind and
spelling. Joined line ends at the end of the first text are left out, and no white space of it may
pass for the start of a line by joined line ends alone. -/
theorem phases_transparent (source : String)
    (settled : normalize (normalize source) = normalize source)
    (lines : ∀ t ∈ (ofSource source).tokens.toList, ¬ t.JoinsOnly) :
    dropSilentEnd (ofSource source).spelled = (ofSource (normalize source)).spelled := by
  have again : logicalChars (logicalChars source.toList) = logicalChars source.toList := by
    simpa only [normalize, String.toList_ofList, String.ofList_inj] using settled
  have plain := reads_singles again
  have read : glyphs (normalize source).toList = (singles (logicalChars source.toList), []) := by
    rw [Reads, singles_raw, List.append_nil] at plain
    rw [normalize, String.toList_ofList, plain]
  have after : (ofSource (normalize source)).spelled =
      (scanChars true 0 (logicalChars source.toList)).map fun t => (t.kind, t.text) := by
    rw [spelled, ofSource, read]
    dsimp only
    rw [singles_char, singles, List.map_map]
    refine List.map_congr_left fun t member => ?_
    rw [Token.spelled, scan_chars_spelling plain true 0 t member]
  have before := scan_transparent (reads_glyphs source.toList) true 0 0 lines
  rw [after]
  refine (congrArg dropSilentEnd before).trans (drop_silent_end_append ?_ _)
  intro part member
  obtain ⟨t, found, rfl⟩ := List.mem_map.1 member
  exact scan_chars_nonempty true 0 _ t found

theorem phases_transparent_marks :
    let source := "??=def\\\nine X 1\nstr??/\nuct S ??<\\\r\n_Prag\\\nma (L\\\n\")\") " ++
      "L\\\n\"??/\"\" -\\\n> ??>\\\n"
    (normalize (normalize source) = normalize source ∧
      ∀ t ∈ (ofSource source).tokens.toList, ¬ t.JoinsOnly) ∧
      normalize source = "#define X 1\nstruct S \x7b_Pragma (L\")\") L\"\\\"\" -> \x7d" ∧
      dropSilentEnd (ofSource source).spelled = (ofSource (normalize source)).spelled := by
  intro source
  have settled : normalize (normalize source) = normalize source := by decide +kernel
  have lines : ∀ t ∈ (ofSource source).tokens.toList, ¬ t.JoinsOnly := by decide +kernel
  exact ⟨⟨settled, lines⟩, by decide +kernel, phases_transparent source settled lines⟩

-- white space over a joined line end passes for the start of a line, which it is not afterwards
example :
    let source := "x \\\n #y"
    (ofSource source).spelled = [(.identifier, "x"), (.space, "  "), (.directive, "#y")] ∧
      (ofSource (normalize source)).spelled =
        [(.identifier, "x"), (.space, "  "), (.operator, "#"), (.identifier, "y")] := by
  decide +kernel

end TokenSeq

end AllocGuard
