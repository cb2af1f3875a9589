import AllocGuard.Proofs.PhaseTransparency
import AllocGuard.Proofs.TokenLookahead

/-! Reading text that was put together. Two texts that meet are read as two sequences of glyphs,
unless a trigraph or a joined line end goes across the seam. The tokens of the first text stay as they
are if its last token is complete and its pragma operators have their operands. What follows a text is
part of a comment exactly if the text ends in an open one, unless a pragma operator takes it. -/
namespace AllocGuard

/-! ## Glyphs across a seam -/

namespace Glyph

variable {c : Char} {g : Glyph} {front back : List Char} {gs : List Glyph}

/-- No trigraph and no joined line end goes across the seam of two texts. -/
structure Seam (front back : List Char) : Prop where
  line : ∀ c ∈ back.head?, c ≠ '\n' ∧ c ≠ '\r'
  trigraph : front.getLast? ≠ some '?' ∨
    ∀ c ∈ back.head?, c ≠ '?' ∧ (Glyph.trigraph c = none ∨ ¬ ['?', '?'] <:+ front)

theorem Seam.shorter (seam : Seam (c :: front) back) :
    Seam front back where
  line := seam.line
  trigraph := by
    rcases seam.trigraph with other | apart
    · refine .inl fun last => other ?_
      rw [← List.singleton_append, Lexeme.last_append last]
    · refine .inr fun d here => ?_
      obtain ⟨mark, known⟩ := apart d here
      exact ⟨mark, known.imp_right fun shorter marks => shorter (marks.trans (List.suffix_cons c front))⟩

theorem replace_trigraphs_seam (seam : Seam front back) :
    replaceTrigraphs (front ++ back) = replaceTrigraphs front ++ replaceTrigraphs back := by
  fun_induction replaceTrigraphs front with
  | case1 c rest meant known ih =>
    rw [List.cons_append, List.cons_append, List.cons_append, replace_known known,
      ih seam.shorter.shorter.shorter, List.cons_append]
  | case2 c rest unknown ih =>
    rw [List.cons_append, List.cons_append, List.cons_append, replace_unknown unknown,
      ← List.cons_append, ← List.cons_append, ih seam.shorter, List.cons_append]
  | case3 c rest plain ih =>
    have single : replaceTrigraphs (c :: (rest ++ back)) = ⟨c, [c]⟩ :: replaceTrigraphs (rest ++ back) := by
      by_cases across : c = '?' ∧ rest = ['?']
      · obtain ⟨rfl, rfl⟩ := across
        cases back with
        | nil => rfl
        | cons d back =>
          have apart := seam.trigraph.resolve_left (absurd rfl) d rfl
          have unknown : trigraph d = none := apart.2.resolve_right fun shorter => shorter (List.suffix_refl _)
          exact replace_unknown unknown back
      · refine replaceTrigraphs.eq_2 c (rest ++ back) fun d more mark split => ?_
        rcases rest with _ | ⟨x, _ | ⟨y, rest⟩⟩
        · have last : [c].getLast? = some '?' := congrArg some mark
          have mark : '?' ∈ back.head? := by rw [← List.nil_append back, split]; rfl
          exact (seam.trigraph.resolve_left (absurd last) '?' mark).1 rfl
        · exact across ⟨mark, by rw [(List.cons.inj split).1]⟩
        · obtain ⟨same, _⟩ := List.cons.inj split
          exact plain y rest mark (by rw [same])
    rw [List.cons_append, single, ih seam.shorter, List.cons_append]
  | case4 => rfl

theorem join_lines_seam {held : List Char} {front back : List Glyph}
    (plain : ∀ g ∈ back.head?, g.char ≠ '\n' ∧ g.char ≠ '\r') :
    joinLines held (front ++ back) =
      ((joinLines held front).1 ++ (joinLines (joinLines held front).2 back).1,
        (joinLines (joinLines held front).2 back).2) := by
  induction held, front using joinLines.induct with
  | case1 held => rfl
  | case2 held g =>
    have kept : Kept g back := fun _ => plain
    rw [List.singleton_append, join_lines_kept kept]
    rfl
  | case3 held g next rest joined ih =>
    rw [List.cons_append, List.cons_append, join_newline joined, join_newline joined, ih]
  | case4 held g next unjoined joined =>
    rw [join_carriage joined]
    cases back with
    | nil => exact join_carriage joined held
    | cons feed back => exact join_carriage_other joined (plain feed rfl).1 held back
  | case5 held g next unjoined joined feed rest fed ih =>
    rw [List.cons_append, List.cons_append, List.cons_append, join_carriage_newline joined fed,
      join_carriage_newline joined fed, ih]
  | case6 held g next unjoined joined feed rest unfed ih =>
    rw [List.cons_append, List.cons_append, List.cons_append, join_carriage_other joined unfed,
      join_carriage_other joined unfed, ← List.cons_append, ih]
  | case7 held g next rest unjoined other glyphs left split ih =>
    have kept (more : List Glyph) : Kept g (next :: more) := by
      rintro backslash _ ⟨⟩
      exact ⟨fun newline => unjoined ⟨backslash, newline⟩, fun carriage => other ⟨backslash, carriage⟩⟩
    rw [List.cons_append, List.cons_append, join_lines_kept (kept _), join_lines_kept (kept _),
      ← List.cons_append, ih]
    rfl

/-- The characters that a line ends with. -/
def IsLineEnd (c : Char) : Prop :=
  c = '\n' ∨ c = '\r'

theorem trigraph_line {meant : Char} (known : trigraph c = some meant) : ¬ IsLineEnd meant := by
  rintro (rfl | rfl)
  all_goals
    unfold trigraph at known
    split at known <;> cases known

theorem replace_trigraphs_line {cs : List Char} (other : ∀ c ∈ cs.head?, ¬ IsLineEnd c) :
    ∀ g ∈ (replaceTrigraphs cs).head?, ¬ IsLineEnd g.char := by
  fun_cases replaceTrigraphs cs with
  | case1 c rest meant known =>
    rintro _ ⟨⟩
    exact trigraph_line known
  | case2 c rest unknown =>
    rintro _ ⟨⟩
    exact other '?' rfl
  | case3 c rest _ =>
    rintro _ ⟨⟩
    exact other c rfl
  | case4 => exact fun g none => absurd none (Option.not_mem_none g)

/-- A glyph ends in its own character or in the last one of a trigraph. -/
theorem replace_trigraphs_last (cs : List Char) : ∀ g ∈ replaceTrigraphs cs,
    ∃ last, g.raw.getLast? = some last ∧ (last = g.char ∨ trigraph last = some g.char) := by
  fun_induction replaceTrigraphs cs with
  | case1 c rest meant known ih => exact List.forall_mem_cons.2 ⟨⟨c, rfl, .inr known⟩, ih⟩
  | case2 c rest unknown ih => exact List.forall_mem_cons.2 ⟨⟨'?', rfl, .inl rfl⟩, ih⟩
  | case3 c rest plain ih => exact List.forall_mem_cons.2 ⟨⟨c, rfl, .inl rfl⟩, ih⟩
  | case4 => exact List.forall_mem_nil _

/-- The glyphs of line ends are written as line ends. -/
def LinesWritten (gs : List Glyph) : Prop :=
  ∀ g ∈ gs, IsLineEnd g.char → g.raw.getLast? = some g.char

theorem lines_written (cs : List Char) : LinesWritten (replaceTrigraphs cs) := by
  intro g member line
  obtain ⟨last, ends, rfl | known⟩ := replace_trigraphs_last cs g member
  · exact ends
  · exact absurd line (trigraph_line known)

theorem LinesWritten.behind (written : LinesWritten (g :: gs)) : LinesWritten gs :=
  fun later member => written later (List.mem_cons_of_mem g member)

theorem LinesWritten.last (written : LinesWritten (g :: gs)) (line : IsLineEnd g.char) (front : List Char) :
    ∀ c ∈ (front ++ g.raw).getLast?, IsLineEnd c := by
  intro c last
  rw [Lexeme.last_append (written g List.mem_cons_self line)] at last
  obtain rfl := Option.some.inj last
  exact line

/-- Joined line ends that are left over end in a line end. -/
theorem join_lines_left {held : List Char} {gs : List Glyph} (written : LinesWritten gs)
    (before : ∀ c ∈ held.getLast?, IsLineEnd c) : ∀ c ∈ (joinLines held gs).2.getLast?, IsLineEnd c := by
  fun_induction joinLines held gs with
  | case1 held => exact before
  | case2 held g => exact fun c last => absurd last (Option.not_mem_none c)
  | case3 held g next rest joined ih =>
    exact ih written.behind.behind (written.behind.last (.inl joined.2) _)
  | case4 held g next unjoined joined => exact written.behind.last (.inr joined.2) _
  | case5 held g next unjoined joined feed rest fed ih =>
    exact ih written.behind.behind.behind (written.behind.behind.last (.inl fed) _)
  | case6 held g next unjoined joined feed rest unfed ih =>
    exact ih written.behind.behind (written.behind.last (.inr joined.2) _)
  | case7 held g next rest unjoined plain glyphs left split ih =>
    rw [split] at ih
    exact ih written.behind fun c last => absurd last (Option.not_mem_none c)

end Glyph

/-- Two texts that meet at a seam are read one after the other. -/
theorem glyphs_append {front back : List Char} (seam : Glyph.Seam front back) :
    glyphs (front ++ back) =
      ((glyphs front).1 ++ (Glyph.joinLines (glyphs front).2 (Glyph.replaceTrigraphs back)).1,
        (Glyph.joinLines (glyphs front).2 (Glyph.replaceTrigraphs back)).2) := by
  unfold glyphs
  rw [Glyph.replace_trigraphs_seam seam]
  refine Glyph.join_lines_seam fun g here => not_or.1 ?_
  exact Glyph.replace_trigraphs_line (fun c first => not_or.2 (seam.line c first)) g here

/-- Joined line ends that a text leaves over end in a line end. -/
theorem glyphs_left_last (text : List Char) : ∀ c ∈ (glyphs text).2.getLast?, Glyph.IsLineEnd c :=
  @Glyph.join_lines_left [] _ (Glyph.lines_written text) fun c last => absurd last (Option.not_mem_none c)

/-- A text that does not end in a line end leaves none over. -/
theorem glyphs_whole {text : List Char} (ends : ∀ c ∈ text.getLast?, ¬ Glyph.IsLineEnd c) : (glyphs text).2 = [] := by
  by_contra some
  obtain ⟨c, last⟩ := Option.ne_none_iff_exists'.1 (mt List.getLast?_eq_none_iff.1 some)
  refine ends c ?_ (glyphs_left_last text c last)
  rw [← glyphs_raw text]
  exact Lexeme.last_append last

/-! ## Tokens of glyphs -/

namespace TokenSeq

open Glyph

/-- The tokens of glyphs, with joined line ends behind them. -/
def scanGlyphs (lineStart : Bool) (start : Nat) (left : List Char) (gs : List Glyph) : List Token :=
  scan lineStart start left (gs.map char) (gs.map raw)

/-- The number of glyphs behind the first one that belong to the first token. -/
def firstLength (lineStart : Bool) (g : Glyph) (rest : List Glyph) : Nat :=
  (Lexeme.read lineStart g.char (rest.map char)).2

def firstToken (lineStart : Bool) (start : Nat) (g : Glyph) (rest : List Glyph) : Token where
  kind := (Lexeme.read lineStart g.char (rest.map char)).1
  start := start
  raw := (g :: rest.take (firstLength lineStart g rest)).flatMap raw

/-- Whether a directive may start behind a token. -/
def behind (lineStart : Bool) (t : Token) : Bool :=
  lineStartAfter lineStart t.kind t.raw

theorem scan_glyphs_cons (lineStart : Bool) (start : Nat) (left : List Char) (g : Glyph) (rest : List Glyph) :
    scanGlyphs lineStart start left (g :: rest) =
      firstToken lineStart start g rest ::
        scanGlyphs (behind lineStart (firstToken lineStart start g rest))
          (firstToken lineStart start g rest).stop left (rest.drop (firstLength lineStart g rest)) :=
  scan_glyph lineStart start left g rest

theorem scan_glyphs_nil (lineStart : Bool) (start : Nat) : scanGlyphs lineStart start [] [] = [] := by
  simp only [scanGlyphs, List.map_nil, scan, List.isEmpty_nil, if_true]

theorem first_length_le (lineStart : Bool) (g : Glyph) (rest : List Glyph) :
    firstLength lineStart g rest ≤ rest.length := by
  have inside := Lexeme.read_le lineStart g.char (rest.map char)
  rwa [List.length_map] at inside

/-- The glyphs are read to their end in the same way, also when `more` follows them. -/
inductive Settled (more : List Char) : Bool → List Glyph → Prop
  | done {lineStart : Bool} : Settled more lineStart []
  | token {lineStart : Bool} {g : Glyph} {rest : List Glyph}
      (same : Lexeme.read lineStart g.char (rest.map char ++ more) =
        Lexeme.read lineStart g.char (rest.map char))
      (later : Settled more (behind lineStart (firstToken lineStart 0 g rest))
        (rest.drop (firstLength lineStart g rest))) : Settled more lineStart (g :: rest)

/-- A first token that is read in the same way takes the same glyphs. -/
theorem first_append {lineStart : Bool} {g : Glyph} {front back : List Glyph}
    (same : Lexeme.read lineStart g.char (front.map char ++ back.map char) =
      Lexeme.read lineStart g.char (front.map char)) (start : Nat) :
    firstLength lineStart g (front ++ back) = firstLength lineStart g front ∧
      firstToken lineStart start g (front ++ back) = firstToken lineStart start g front := by
  have length : firstLength lineStart g (front ++ back) = firstLength lineStart g front := by
    rw [firstLength, List.map_append, same]
    rfl
  refine ⟨length, ?_⟩
  rw [firstToken, firstToken, List.map_append, same, length,
    List.take_append_of_le_length (first_length_le lineStart g front)]

/-- What the first token takes and what it leaves is all there is. -/
theorem first_stop (lineStart : Bool) (start : Nat) (g : Glyph) (rest : List Glyph) :
    (firstToken lineStart start g rest).stop +
        Text.byteLength ((rest.drop (firstLength lineStart g rest)).flatMap raw) =
      start + Text.byteLength ((g :: rest).flatMap raw) := by
  rw [Token.stop, firstToken, Nat.add_assoc, ← Text.byte_length_append, ← List.flatMap_append,
    List.cons_append, List.take_append_drop]

/-- Settled glyphs have their own tokens, and the tokens of what follows them come behind. -/
theorem Settled.scan_append {lineStart : Bool} {front back : List Glyph}
    (settled : Settled (back.map char) lineStart front) (start : Nat) (left : List Char) :
    scanGlyphs lineStart start left (front ++ back) =
      scanGlyphs lineStart start [] front ++
        scanGlyphs ((scanGlyphs lineStart start [] front).foldl behind lineStart)
          (start + Text.byteLength (front.flatMap raw)) left back := by
  induction settled generalizing start with
  | done => rw [scan_glyphs_nil, List.flatMap_nil, List.nil_append, List.nil_append, List.foldl_nil]; rfl
  | @token lineStart g rest same later ih =>
    obtain ⟨length, first⟩ := first_append same start
    rw [List.cons_append, scan_glyphs_cons, scan_glyphs_cons, first, length,
      List.drop_append_of_le_length (first_length_le lineStart g rest)]
    have moved : behind lineStart (firstToken lineStart 0 g rest) =
        behind lineStart (firstToken lineStart start g rest) := rfl
    rw [moved] at ih
    rw [ih, List.cons_append, List.foldl_cons, first_stop]

/-- The glyphs of the first tokens of a text are settled where they stand. -/
theorem settled_cut {lineStart : Bool} {start count : Nat} {gs : List Glyph}
    (inside : count ≤ (scanGlyphs lineStart start [] gs).length) :
    ∃ cut, Settled ((gs.drop cut).map char) lineStart (gs.take cut) ∧
      (scanGlyphs lineStart start [] (gs.take cut)).length = count := by
  induction count generalizing lineStart start gs with
  | zero => exact ⟨0, .done, congrArg List.length (scan_glyphs_nil lineStart start)⟩
  | succ count ih =>
    cases gs with
    | nil =>
      rw [scan_glyphs_nil] at inside
      cases inside
    | cons g rest =>
      rw [scan_glyphs_cons, List.length_cons] at inside
      obtain ⟨cut, settled, counted⟩ := ih (Nat.le_of_succ_le_succ inside)
      have bound := first_length_le lineStart g rest
      generalize length : firstLength lineStart g rest = first at settled counted bound
      have whole : rest.take (first + cut) ++ rest.drop (first + cut) = rest := List.take_append_drop _ _
      have same : Lexeme.read lineStart g.char
            ((rest.take (first + cut)).map char ++ (rest.drop (first + cut)).map char) =
          Lexeme.read lineStart g.char ((rest.take (first + cut)).map char) := by
        refine (Lexeme.read_front ?_).symm
        rw [← List.map_append, whole, List.length_map, List.length_take]
        have count : (Lexeme.read lineStart g.char (rest.map char)).2 = first := length
        omega
      obtain ⟨taken, token⟩ := first_append same start
      rw [whole, length] at taken
      rw [whole] at token
      have later : (rest.take (first + cut)).drop first = (rest.drop first).take cut := by
        rw [List.take_add, List.drop_append_of_le_length, List.drop_eq_nil_of_le, List.nil_append]
        all_goals
          rw [List.length_take]
          omega
      rw [List.drop_drop] at settled
      refine ⟨first + cut + 1, ?_, ?_⟩
      · rw [List.drop_succ_cons, List.take_succ_cons]
        refine .token same ?_
        show Settled _ (behind lineStart (firstToken lineStart start g (rest.take (first + cut)))) _
        rw [← taken, ← token, later]
        exact settled
      · rw [List.take_succ_cons, scan_glyphs_cons, ← taken, ← token, later, List.length_cons, counted]

/-- The first token of glyphs that are read from their own text is spelled by them. -/
theorem first_spelled {g : Glyph} {rest : List Glyph} {left : List Char} (reads : Reads (g :: rest) left)
    (lineStart : Bool) (start : Nat) :
    logicalChars (firstToken lineStart start g rest).raw =
      g.char :: (rest.map char).take (firstLength lineStart g rest) := by
  have spelled := (reads.take (firstLength lineStart g rest + 1)).logical
  rwa [List.append_nil, List.take_succ_cons, List.map_cons, List.map_take] at spelled

end TokenSeq

/-! ## Complete texts -/

namespace Token

def isBarePragma (t : Token) : Bool :=
  Lexeme.isBarePragma t.kind (logicalChars t.raw)

def isOpenComment (t : Token) : Bool :=
  t.kind == .comment && Lexeme.isOpenComment (logicalChars t.raw)

def isComplete (t : Token) : Bool :=
  Lexeme.isComplete t.kind (logicalChars t.raw)

end Token

namespace TokenSeq

open Glyph

variable {t : Token} {g next : Glyph} {gs rest back : List Glyph} {later : List Token} {count start : Nat}
  {left : List Char} {lineStart : Bool}

/-- The pragma operators among the tokens have their operands, and the last token is complete. -/
def isClosed (tokens : List Token) : Bool :=
  tokens.all (!·.isBarePragma) && tokens.getLast?.all Token.isComplete

theorem is_closed_cons (closed : isClosed (t :: later) = true) :
    t.isBarePragma = false ∧ (later = [] → t.isComplete = true) ∧ isClosed later = true := by
  obtain ⟨given, last⟩ := (Bool.and_eq_true _ _).mp closed
  obtain ⟨here, others⟩ := (Bool.and_eq_true _ _).mp given
  refine ⟨(Bool.not_eq_true' _).mp here, ?_, (Bool.and_eq_true _ _).mpr ⟨others, ?_⟩⟩
  · rintro rfl
    exact last
  · cases later with
    | nil => rfl
    | cons next later => exact last

theorem scan_glyphs_empty : scanGlyphs lineStart start [] gs = [] ↔ gs = [] := by
  cases gs with
  | nil => simp only [scan_glyphs_nil]
  | cons g rest => simp only [scan_glyphs_cons, reduceCtorEq]

/-- Glyphs whose tokens are closed are settled in front of everything that is no white space. -/
theorem settled_closed (reads : Reads gs left) (closed : isClosed (scanGlyphs lineStart start [] gs) = true)
    {more : List Char} (other : ∀ c ∈ more.head?, Lexeme.isSpace c = false) : Settled more lineStart gs := by
  induction gs using scan_induction generalizing lineStart start with
  | nil => exact .done
  | cons g rest ih =>
    have spelled := first_spelled reads lineStart start
    rw [scan_glyphs_cons] at closed
    obtain ⟨given, complete, closed⟩ := is_closed_cons closed
    refine .token ?_ (ih _ (reads.drop (firstLength lineStart g rest + 1)) closed)
    rcases Nat.lt_or_eq_of_le (first_length_le lineStart g rest) with inside | whole
    · refine Lexeme.read_stops ?_ ?_ ?_
      · rwa [List.length_map]
      · rwa [Token.isBarePragma, spelled] at given
      · intro dot alone
        obtain ⟨r, rfl, char⟩ := List.map_eq_singleton_iff.1 alone
        have none : firstLength lineStart g [r] = 0 := Nat.lt_one_iff.1 inside
        rw [none, List.drop_zero, scan_glyphs_cons] at closed
        have ends := (is_closed_cons closed).2.1 (scan_glyphs_empty.2 (List.drop_nil))
        rw [Token.isComplete, firstToken, char] at ends
        cases ends
    · have last : rest.drop (firstLength lineStart g rest) = [] :=
        List.drop_eq_nil_of_le (Nat.le_of_eq whole.symm)
      have ends := complete (scan_glyphs_empty.2 last)
      rw [Token.isComplete, spelled, List.take_of_length_le] at ends
      · refine Lexeme.read_complete ?_ ends other
        rwa [List.length_map]
      · rw [List.length_map]
        exact Nat.le_of_eq whole.symm

/-! ## What follows a text -/

/-- The kind of the token that a byte belongs to. -/
def kindIn? (tokens : List Token) (offset : Nat) : Option TokenKind :=
  (tokens.find? fun t => t.start ≤ offset && offset < t.stop).map Token.kind

def endsOpen (tokens : List Token) : Bool :=
  tokens.getLast?.any Token.isOpenComment

theorem kind_in_cons {offset : Nat} (lower : t.start ≤ offset) :
    kindIn? (t :: later) offset = if offset < t.stop then some t.kind else kindIn? later offset := by
  unfold kindIn?
  rw [List.find?_cons, decide_eq_true lower, Bool.true_and]
  split
  · rename_i covers
    rw [if_pos (of_decide_eq_true covers)]
    rfl
  · rename_i passed
    rw [if_neg (of_decide_eq_false passed)]

theorem ends_open_cons (some : later ≠ []) : endsOpen (t :: later) = endsOpen later := by
  obtain ⟨next, later, rfl⟩ := List.exists_cons_of_ne_nil some
  rfl

/-- A first token that ends inside glyphs stays the same in front of others, and is no open comment
then if it takes all of them. -/
theorem first_inside (reads : Reads (g :: rest) left) (newline : next.char ≠ '\n')
    (inside : firstLength lineStart g (rest ++ next :: back) ≤ rest.length) (start : Nat) :
    firstLength lineStart g (rest ++ next :: back) = firstLength lineStart g rest ∧
      firstToken lineStart start g (rest ++ next :: back) = firstToken lineStart start g rest ∧
      (firstLength lineStart g rest = rest.length →
        (firstToken lineStart start g rest).isOpenComment = false) := by
  have same : Lexeme.read lineStart g.char (rest.map char ++ (next :: back).map char) =
      Lexeme.read lineStart g.char (rest.map char) := by
    refine (Lexeme.read_front ?_).symm
    rwa [← List.map_append, List.length_map]
  obtain ⟨length, token⟩ := first_append same start
  refine ⟨length, token, fun whole => ?_⟩
  rw [Bool.eq_false_iff]
  intro opens
  obtain ⟨comment, open'⟩ := (Bool.and_eq_true _ _).mp opens
  rw [first_spelled reads, List.take_of_length_le] at open'
  · have longer := (Lexeme.comment_goes_on_iff (beq_iff_eq.1 comment)
      (by rwa [List.length_map]) newline (back.map char)).2.2 open'
    rw [List.map_cons] at same
    rw [same, List.length_map] at longer
    exact absurd whole (Nat.ne_of_gt longer)
  · rw [List.length_map]
    exact Nat.le_of_eq whole.symm

/-- A first token that goes on behind glyphs is a comment exactly if they end in an open one, unless
it is a pragma operator. -/
theorem first_goes_on (reads : Reads (g :: rest) left) (plain : next.char ∉ ['/', '\n', '.'])
    (star : next.char = '*' → ∀ last ∈ (g :: rest).getLast?, last.char ≠ '/')
    (longer : rest.length < firstLength lineStart g (rest ++ next :: back)) (start : Nat) :
    (firstToken lineStart start g (rest ++ next :: back)).kind = .comment ↔
      endsOpen (scanGlyphs lineStart start [] (g :: rest)) = true ∧
        (firstToken lineStart start g (rest ++ next :: back)).kind ≠ .pragma := by
  simp only [List.mem_cons, List.not_mem_nil, or_false, not_or] at plain
  obtain ⟨slash, newline, dot⟩ := plain
  rw [firstLength, List.map_append, List.map_cons, ← List.length_map (f := char)] at longer
  rw [firstToken]
  dsimp only
  rw [List.map_append, List.map_cons]
  rcases Lexeme.read_goes_on dot longer with whole | pragma
  · have all : firstLength lineStart g rest = rest.length := by rwa [List.length_map] at whole
    have single : scanGlyphs lineStart start [] (g :: rest) = [firstToken lineStart start g rest] := by
      rw [scan_glyphs_cons, all, List.drop_length, scan_glyphs_nil]
    have open' : endsOpen (scanGlyphs lineStart start [] (g :: rest)) =
        ((firstToken lineStart start g rest).kind == .comment &&
          Lexeme.isOpenComment (g.char :: rest.map char)) := by
      rw [single]
      show (firstToken lineStart start g rest).isOpenComment = _
      rw [Token.isOpenComment, first_spelled reads, all, List.take_of_length_le]
      exact Nat.le_of_eq (List.length_map char)
    rw [open', Bool.and_eq_true, beq_iff_eq]
    constructor
    · intro comment
      obtain ⟨first, mark, tail, marks, split⟩ := Lexeme.read_comment_iff.1 comment
      have some : rest.map char ≠ [] := by
        intro none
        rw [none] at split
        rw [List.map_eq_nil_iff.1 none] at star
        obtain ⟨rfl, _⟩ := List.cons.inj split
        exact marks.elim slash fun mark => star mark g rfl first
      obtain ⟨own, here⟩ := Lexeme.head_of_append some split
      have short : (Lexeme.read lineStart g.char (rest.map char)).1 = .comment :=
        Lexeme.read_comment_iff.2 ⟨first, mark, own, marks, here⟩
      refine ⟨⟨short, (Lexeme.comment_goes_on_iff short whole newline _).2.1 longer⟩, ?_⟩
      rw [comment]
      exact fun other => TokenKind.noConfusion other
    · rintro ⟨⟨short, _⟩, _⟩
      exact (Lexeme.comment_goes_on_iff short whole newline _).1
  · rw [pragma]
    exact ⟨fun comment => TokenKind.noConfusion comment, fun both => absurd rfl both.2⟩

theorem last_of_drop : ∀ last ∈ (rest.drop count).getLast?, last ∈ (g :: rest).getLast? := by
  intro last here
  rw [← List.drop_succ_cons (a := g), List.getLast?_drop] at here
  split at here
  · cases here
  · exact here

/-- What follows glyphs is part of a comment exactly if they end in an open one, unless a pragma
operator takes it. -/
theorem comment_behind {gs : List Glyph} {after : List Char} (reads : Reads gs after) {next : Glyph}
    (plain : next.char ∉ ['/', '\n', '.']) (star : next.char = '*' → ∀ last ∈ gs.getLast?, last.char ≠ '/')
    (back : List Glyph) (left : List Char) {lineStart : Bool}
    {start offset : Nat} (lower : start + Text.byteLength (gs.flatMap raw) ≤ offset)
    (upper : offset < start + Text.byteLength (gs.flatMap raw) + Text.byteLength next.raw) :
    kindIn? (scanGlyphs lineStart start left (gs ++ next :: back)) offset = some .comment ↔
      endsOpen (scanGlyphs lineStart start [] gs) = true ∧
        kindIn? (scanGlyphs lineStart start left (gs ++ next :: back)) offset ≠ some .pragma := by
  induction gs using scan_induction generalizing lineStart start with
  | nil =>
    rw [List.flatMap_nil] at lower upper
    have covers : offset < (firstToken lineStart start next back).stop := by
      rw [Token.stop, firstToken, List.flatMap_cons, Text.byte_length_append, ← Nat.add_assoc]
      exact Nat.lt_of_lt_of_le upper (Nat.le_add_right _ _)
    rw [List.nil_append, scan_glyphs_cons, kind_in_cons lower, if_pos covers, scan_glyphs_nil]
    constructor
    · intro comment
      have slash := (Lexeme.read_comment_iff.1 (Option.some.inj comment)).1
      rw [slash] at plain
      exact absurd List.mem_cons_self plain
    · rintro ⟨opens, _⟩
      cases opens
  | cons g rest ih =>
    have starts : start ≤ offset := Nat.le_trans (Nat.le_add_right _ _) lower
    rw [List.cons_append, scan_glyphs_cons lineStart start left, kind_in_cons starts]
    rcases Nat.lt_or_ge rest.length (firstLength lineStart g (rest ++ next :: back)) with longer | inside
    · have covers : offset < (firstToken lineStart start g (rest ++ next :: back)).stop := by
        obtain ⟨more, count⟩ := Nat.exists_eq_add_of_lt longer
        have taken : (rest ++ next :: back).take (rest.length + more + 1) =
            rest ++ next :: back.take more := by
          rw [Nat.add_assoc, List.take_length_add_append, List.take_succ_cons]
        rw [Token.stop, firstToken, count, taken, ← List.cons_append, List.flatMap_append,
          @List.flatMap_cons _ _ next, Text.byte_length_append, Text.byte_length_append, ← Nat.add_assoc,
          ← Nat.add_assoc]
        exact Nat.lt_of_lt_of_le upper (Nat.le_add_right _ _)
      rw [if_pos covers, Option.some_inj, Ne, Option.some_inj]
      exact first_goes_on reads plain star longer start
    · have newline : next.char ≠ '\n' := fun same => plain (by rw [same]; decide)
      obtain ⟨length, token, closed⟩ := first_inside reads newline inside start
      have stop := first_stop lineStart start g rest
      have passed : ¬ offset < (firstToken lineStart start g rest).stop := by omega
      have bound := first_length_le lineStart g rest
      rw [token, length, if_neg passed, List.drop_append_of_le_length bound, scan_glyphs_cons]
      have later := @ih (firstLength lineStart g rest) (reads.drop (firstLength lineStart g rest + 1))
        (fun mark last here => star mark last (last_of_drop last here))
        (behind lineStart (firstToken lineStart start g rest)) (firstToken lineStart start g rest).stop
        (by omega) (by omega)
      rcases eq_or_ne (rest.drop (firstLength lineStart g rest)) [] with none | some
      · have whole : firstLength lineStart g rest = rest.length :=
          Nat.le_antisymm bound (List.drop_eq_nil_iff.1 none)
        have single : endsOpen [firstToken lineStart start g rest] = false := closed whole
        rw [none, scan_glyphs_nil] at later ⊢
        rw [single]
        exact later
      · rw [ends_open_cons (mt scan_glyphs_empty.1 some)]
        exact later

/-- Glyphs end in an open comment only if they do so without the last of them. -/
theorem ends_open_snoc {after : List Char} (reads : Reads gs after) (plain : next.char ∉ ['/', '\n', '.'])
    (star : next.char = '*' → ∀ last ∈ gs.getLast?, last.char ≠ '/')
    (opens : endsOpen (scanGlyphs lineStart start [] (gs ++ [next])) = true) :
    endsOpen (scanGlyphs lineStart start [] gs) = true := by
  induction gs using scan_induction generalizing lineStart start with
  | nil =>
    have single : (firstToken lineStart start next []).isOpenComment = true := by
      rwa [List.nil_append, scan_glyphs_cons, List.drop_nil, scan_glyphs_nil] at opens
    have slash := (Lexeme.read_comment_iff.1 (beq_iff_eq.1 (Bool.and_eq_true_iff.1 single).1)).1
    rw [slash] at plain
    exact absurd List.mem_cons_self plain
  | cons g rest ih =>
    rw [List.cons_append, scan_glyphs_cons] at opens
    rcases Nat.lt_or_ge rest.length (firstLength lineStart g (rest ++ [next])) with longer | inside
    · have none : (rest ++ [next]).drop (firstLength lineStart g (rest ++ [next])) = [] := by
        rwa [List.drop_eq_nil_iff, List.length_append]
      have single : (firstToken lineStart start g (rest ++ [next])).isOpenComment = true := by
        rwa [none, scan_glyphs_nil] at opens
      have comment := beq_iff_eq.1 (Bool.and_eq_true_iff.1 single).1
      exact ((first_goes_on reads plain star longer start).1 comment).1
    · have newline : next.char ≠ '\n' := fun same => plain (by rw [same]; decide)
      obtain ⟨length, token, _⟩ := first_inside reads newline inside start
      have bound := first_length_le lineStart g rest
      rw [token, length, List.drop_append_of_le_length bound, ends_open_cons] at opens
      · have later := ih _ (reads.drop (firstLength lineStart g rest + 1))
          (fun mark last here => star mark last (last_of_drop last here)) opens
        rw [scan_glyphs_cons, ends_open_cons]
        · exact later
        · intro none
          rw [none] at later
          cases later
      · rw [Ne, scan_glyphs_empty]
        exact List.append_ne_nil_of_right_ne_nil _ (List.cons_ne_nil _ _)

theorem ends_open_append {front back : List Token} (some : back ≠ []) : endsOpen (front ++ back) = endsOpen back := by
  rw [endsOpen, List.getLast?_append_of_ne_nil _ some, endsOpen]

/-- Where glyphs stand makes no difference to whether they end in an open comment. -/
theorem ends_open_moved (lineStart : Bool) (start start' : Nat) (gs : List Glyph) :
    endsOpen (scanGlyphs lineStart start [] gs) = endsOpen (scanGlyphs lineStart start' [] gs) := by
  induction gs using scan_induction generalizing lineStart start start' with
  | nil => rw [scan_glyphs_nil, scan_glyphs_nil]
  | cons g rest ih =>
    rw [scan_glyphs_cons, scan_glyphs_cons]
    rcases eq_or_ne (rest.drop (firstLength lineStart g rest)) [] with none | some
    · rw [none, scan_glyphs_nil, scan_glyphs_nil]
      rfl
    · rw [ends_open_cons (mt scan_glyphs_empty.1 some), ends_open_cons (mt scan_glyphs_empty.1 some)]
      exact ih _ _ _ _

/-- Closed tokens do not end in an open comment. -/
theorem closed_ends {tokens : List Token} (closed : isClosed tokens = true) : endsOpen tokens = false := by
  obtain ⟨_, last⟩ := (Bool.and_eq_true _ _).mp closed
  unfold endsOpen
  cases here : tokens.getLast? with
  | none => rfl
  | some t =>
    rw [here] at last
    have complete : t.isComplete = true := last
    rw [Option.any_some, Bool.eq_false_iff]
    intro opens
    obtain ⟨comment, opened⟩ := (Bool.and_eq_true _ _).mp opens
    rw [Token.isComplete, Lexeme.isComplete, beq_iff_eq.1 comment, opened] at complete
    cases complete

/-! ## Texts -/

theorem of_source_scan (text : String) :
    (ofSource text).tokens.toList = scanGlyphs true 0 (glyphs text.toList).2 (glyphs text.toList).1 := rfl

/-- A character that is read as it is written takes the joined line ends in front of it. -/
theorem glyphs_behind {c : Char} (mark : c ≠ '?') (backslash : c ≠ '\\') (held rest : List Char) :
    joinLines held (replaceTrigraphs (c :: rest)) =
      (⟨c, held ++ [c]⟩ :: (glyphs rest).1, (glyphs rest).2) := by
  rw [replaceTrigraphs.eq_2 c rest fun _ _ same _ => mark same]
  have kept : Kept ⟨c, [c]⟩ (replaceTrigraphs rest) := fun same => absurd same backslash
  exact join_lines_kept kept held

/-- Text without question marks and backslashes is read as it is written. -/
theorem glyphs_singles {front : List Char} (plain : ∀ c ∈ front, c ≠ '?' ∧ c ≠ '\\') (rest : List Char) :
    glyphs (front ++ rest) = (singles front ++ (glyphs rest).1, (glyphs rest).2) := by
  induction front with
  | nil => rfl
  | cons c front ih =>
    obtain ⟨⟨mark, backslash⟩, others⟩ := List.forall_mem_cons.1 plain
    rw [List.cons_append, glyphs, glyphs_behind mark backslash [], ih others]
    rfl

/-- A text that starts with a line end starts with white space. -/
theorem starts_on_line {text : List Char} (other : ∀ c ∈ (logicalChars text).head?, Lexeme.isSpace c = false) :
    ∀ c ∈ text.head?, c ≠ '\n' ∧ c ≠ '\r' := by
  cases text with
  | nil => exact fun c none => absurd none (Option.not_mem_none c)
  | cons first rest =>
    rintro _ ⟨⟩
    have read (mark : first ≠ '?') (backslash : first ≠ '\\') :
        (logicalChars (first :: rest)).head? = some first :=
      congrArg (fun read => (read.1.map char).head?) (glyphs_behind mark backslash [] rest)
    constructor
    all_goals
      rintro rfl
      exact absurd (other _ (read (by decide) (by decide))) (by decide)

/-- Whether a directive may start behind the text. -/
def endsAtLineStart (text : String) : Bool :=
  (ofSource text).tokens.toList.foldl behind true

/-- A text that does not end in a line end, with closed tokens. -/
structure IsClosed (text : String) : Prop where
  whole : (glyphs text.toList).2 = []
  closed : isClosed (ofSource text).tokens.toList = true

/-- Closed text keeps its tokens in front of other text, and the tokens of the other text come behind. -/
theorem IsClosed.scan_append {front back : String} (closed : IsClosed front)
    (trigraph : front.toList.getLast? ≠ some '?' ∨
      ∀ c ∈ back.toList.head?, c ≠ '?' ∧ (Glyph.trigraph c = none ∨ ¬ ['?', '?'] <:+ front.toList))
    (other : ∀ c ∈ (logicalChars back.toList).head?, Lexeme.isSpace c = false) (left : List Char) :
    scanGlyphs true 0 left (glyphs (front ++ back).toList).1 =
      (ofSource front).tokens.toList ++ scanGlyphs (endsAtLineStart front)
        (Text.byteLength front.toList) left (glyphs back.toList).1 := by
  have seam : Seam front.toList back.toList := ⟨starts_on_line other, trigraph⟩
  have joined : (glyphs (front ++ back).toList).1 = (glyphs front.toList).1 ++ (glyphs back.toList).1 := by
    rw [String.toList_append, glyphs_append seam, closed.whole]
    rfl
  have tokens := closed.closed
  rw [of_source_scan, closed.whole] at tokens
  have bytes : (glyphs front.toList).1.flatMap raw = front.toList := by
    have kept := glyphs_raw front.toList
    rwa [closed.whole, List.append_nil] at kept
  have settled := settled_closed (reads_glyphs front.toList) tokens other
  rw [joined, settled.scan_append 0 left, endsAtLineStart, of_source_scan, closed.whole, bytes, Nat.zero_add]

theorem IsClosed.tokens_append {front back : String} (closed : IsClosed front)
    (trigraph : front.toList.getLast? ≠ some '?' ∨
      ∀ c ∈ back.toList.head?, c ≠ '?' ∧ (Glyph.trigraph c = none ∨ ¬ ['?', '?'] <:+ front.toList))
    (other : ∀ c ∈ (logicalChars back.toList).head?, Lexeme.isSpace c = false) :
    (ofSource (front ++ back)).tokens.toList =
      (ofSource front).tokens.toList ++ scanGlyphs (endsAtLineStart front)
        (Text.byteLength front.toList) (glyphs back.toList).2 (glyphs back.toList).1 := by
  have seam : Seam front.toList back.toList := ⟨starts_on_line other, trigraph⟩
  have left : (glyphs (front ++ back).toList).2 = (glyphs back.toList).2 := by
    rw [String.toList_append, glyphs_append seam, closed.whole]
    rfl
  rw [of_source_scan, left]
  exact closed.scan_append trigraph other _

theorem settled_end (lineStart : Bool) (gs : List Glyph) : Settled [] lineStart gs := by
  induction gs using scan_induction generalizing lineStart with
  | nil => exact .done
  | cons g rest ih => exact .token (by rw [List.append_nil]) (ih _ _)

/-- Joined line ends at the end make one more token at most. -/
theorem scan_left_length (lineStart : Bool) (start : Nat) (left : List Char) (gs : List Glyph) :
    (scanGlyphs lineStart start left gs).length ≤ (scanGlyphs lineStart start [] gs).length + 1 := by
  have split := @Settled.scan_append lineStart gs [] (settled_end lineStart gs) start left
  have last (lineStart : Bool) (start : Nat) : (scanGlyphs lineStart start left []).length ≤ 1 := by
    simp only [scanGlyphs, List.map_nil, scan]
    split
    · exact Nat.zero_le 1
    · exact Nat.le_refl 1
  rw [List.append_nil] at split
  rw [split, List.length_append]
  exact Nat.add_le_add_left (last _ _) _

/-- The first tokens of a text are the tokens of their own text. -/
theorem tokens_cut {source : String} (inside : count < (ofSource source).size) :
    (glyphs ((ofSource source).textRange 0 count).toList).2 = [] ∧
      (ofSource ((ofSource source).textRange 0 count)).tokens.toList =
        (ofSource source).tokens.toList.take count := by
  have size : (ofSource source).size =
      (scanGlyphs true 0 (glyphs source.toList).2 (glyphs source.toList).1).length := rfl
  have bound := scan_left_length true 0 (glyphs source.toList).2 (glyphs source.toList).1
  obtain ⟨cut, settled, counted⟩ := @settled_cut true 0 count (glyphs source.toList).1 (by omega)
  have first : (ofSource source).tokens.toList.take count =
      scanGlyphs true 0 [] ((glyphs source.toList).1.take cut) := by
    have split := settled.scan_append 0 (glyphs source.toList).2
    rw [List.take_append_drop] at split
    rw [of_source_scan, split, ← counted, List.take_left]
  have text : ((ofSource source).textRange 0 count).toList =
      ((glyphs source.toList).1.take cut).flatMap raw := by
    rw [text_range_eq, String.toList_ofList, Nat.sub_zero, List.drop_zero, first, scanGlyphs, scan_raw,
      List.append_nil, List.flatMap_def]
    rw [List.length_map, List.length_map]
  have read : glyphs ((ofSource source).textRange 0 count).toList =
      ((glyphs source.toList).1.take cut, []) := by
    have reads := (reads_glyphs source.toList).take cut
    rwa [Reads, List.append_nil, ← text] at reads
  rw [of_source_scan, read, first]
  exact ⟨rfl, rfl⟩

end TokenSeq

end AllocGuard
