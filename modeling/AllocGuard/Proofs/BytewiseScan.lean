import AllocGuard.Proofs.BytewiseLexeme

/-! The tokens of a text, scanned by bytes. Trigraphs and joined line ends are ASCII text,
so the first two phases of reading turn the bytes of a text into the bytes of its logical
characters. The scan then takes from them, token by token, the bytes of what it takes from
the characters, and no token ends inside a character. -/
namespace AllocGuard

open Text

namespace Glyph

variable {g next feed : Glyph} {front gs rest gs' : List Glyph} {c meant : Char}

/-- The second sequence is the first one in bytes: a glyph for every byte of a logical
character, and among these glyphs the bytes of its raw text. -/
inductive InBytes : List Glyph → List Glyph → Prop
  | nil : InBytes [] []
  | cons {g : Glyph} {front gs gs' : List Glyph} (chars : front.map char = units g.char)
      (raws : front.flatMap raw = bytes g.raw) (later : InBytes gs gs') :
      InBytes (g :: gs) (front ++ gs')

theorem in_bytes_char (written : InBytes gs gs') : gs'.map char = bytes (gs.map char) := by
  induction written with
  | nil => rfl
  | cons chars raws later ih => rw [List.map_append, chars, ih, List.map_cons, bytes_cons]

theorem in_bytes_raw (written : InBytes gs gs') : gs'.flatMap raw = bytes (gs.flatMap raw) := by
  induction written with
  | nil => rfl
  | cons chars raws later ih => rw [List.flatMap_append, raws, ih, List.flatMap_cons, bytes_append]

/-- The glyph of an ASCII character, its raw text in bytes. -/
def inBytes (g : Glyph) : Glyph :=
  ⟨g.char, bytes g.raw⟩

theorem front_length (chars : front.map char = units g.char) : front.length = g.char.utf8Size := by
  rw [← units_length, ← chars, List.length_map]

/-- A cut between two glyphs is a cut between their bytes. -/
theorem in_bytes_cut (written : InBytes gs gs') (count : Nat) :
    InBytes (gs.take count) (gs'.take (byteLength ((gs.map char).take count))) ∧
      InBytes (gs.drop count) (gs'.drop (byteLength ((gs.map char).take count))) := by
  induction written generalizing count with
  | nil =>
    rw [List.take_nil, List.take_nil, List.drop_nil, List.drop_nil]
    exact ⟨.nil, .nil⟩
  | @cons g front gs gs' chars raws later ih =>
    cases count with
    | zero => exact ⟨.nil, .cons chars raws later⟩
    | succ count =>
      obtain ⟨taken, dropped⟩ := ih count
      rw [List.map_cons, List.take_succ_cons, List.take_succ_cons, List.drop_succ_cons,
        byte_length_cons, ← front_length chars, List.take_length_add_append,
        List.drop_length_add_append]
      exact ⟨.cons chars raws taken, dropped⟩

/-- A glyph for an ASCII character stays one glyph. -/
theorem in_bytes_ascii (ascii : ¬ IsWide g.char) :
    InBytes (g :: gs) gs' ↔
      ∃ rest, gs' = g.inBytes :: rest ∧ InBytes gs rest := by
  constructor
  · intro written
    cases written with
    | cons chars raws later =>
      rw [units_narrow ascii] at chars
      obtain ⟨x, rfl, same⟩ := List.map_eq_singleton_iff.1 chars
      rw [List.flatMap_singleton] at raws
      refine ⟨_, ?_, later⟩
      rw [inBytes, ← same, ← raws]
      rfl
  · rintro ⟨rest, rfl, later⟩
    have chars : [g.inBytes].map char = units g.char := (units_narrow ascii).symm
    exact .cons chars (List.flatMap_singleton _ _) later

/-- A backslash and the line end behind it stay what they are. -/
theorem in_bytes_joined (narrow : ¬ IsWide c) (joined : g.char = '\\' ∧ next.char = c)
    (written : InBytes (g :: next :: gs) gs') :
    ∃ rest, gs' = g.inBytes :: next.inBytes :: rest ∧
      (g.inBytes.char = '\\' ∧ next.inBytes.char = c) ∧ InBytes gs rest := by
  obtain ⟨backslash, rfl⟩ := joined
  obtain ⟨_, rfl, behind⟩ := (in_bytes_ascii (by rw [backslash]; decide)).1 written
  obtain ⟨rest, rfl, later⟩ := (in_bytes_ascii narrow).1 behind
  exact ⟨rest, rfl, ⟨backslash, rfl⟩, later⟩

theorem in_bytes_head (written : InBytes (g :: gs) gs') :
    ∃ first rest, gs' = first :: rest ∧ ∀ c, ¬ IsWide c → (first.char = c ↔ g.char = c) := by
  by_cases wide : IsWide g.char
  · cases written with
    | cons chars raws later =>
      obtain ⟨u, us, parts, wideU, _⟩ := units_cons wide
      rw [parts] at chars
      obtain ⟨x, xs, rfl, rfl, _⟩ := List.map_eq_cons_iff.1 chars
      refine ⟨x, _, rfl, fun c narrow => ?_⟩
      exact iff_of_false (wide_ne wideU narrow) (wide_ne wide narrow)
  · obtain ⟨rest, rfl, _⟩ := (in_bytes_ascii wide).1 written
    exact ⟨_, rest, rfl, fun c _ => Iff.rfl⟩

/-! ## Trigraphs -/

theorem trigraph_narrow (known : trigraph c = some meant) : ¬ IsWide c ∧ ¬ IsWide meant := by
  unfold trigraph at known
  split at known <;> cases known <;> decide

theorem replace_trigraphs_wide {us : List Char} (wide : ∀ u ∈ us, IsWide u) (rest : List Char) :
    replaceTrigraphs (us ++ rest) = us.map (fun u => ⟨u, [u]⟩) ++ replaceTrigraphs rest := by
  induction us with
  | nil => rfl
  | cons u us ih =>
    rw [List.cons_append, replaceTrigraphs, ih fun u member => wide u (List.mem_cons_of_mem _ member)]
    · rfl
    · intro c rest mark
      exact absurd mark (wide_ne (wide u List.mem_cons_self) (by decide))

theorem replace_known (known : trigraph c = some meant) (rest : List Char) :
    replaceTrigraphs ('?' :: '?' :: c :: rest) = ⟨meant, ['?', '?', c]⟩ :: replaceTrigraphs rest := by
  rw [replaceTrigraphs, known]

theorem replace_unknown (unknown : trigraph c = none) (rest : List Char) :
    replaceTrigraphs ('?' :: '?' :: c :: rest) =
      ⟨'?', ['?']⟩ :: replaceTrigraphs ('?' :: c :: rest) := by
  rw [replaceTrigraphs, unknown]

private theorem unknown_bytes (unknown : trigraph c = none) (rest : List Char) :
    ∃ u us, bytes (c :: rest) = u :: us ∧ trigraph u = none := by
  by_cases wide : IsWide c
  · obtain ⟨u, us, parts, wideU, _⟩ := units_cons wide
    refine ⟨u, us ++ bytes rest, by rw [bytes_cons, parts, List.cons_append], ?_⟩
    cases known : trigraph u with
    | none => rfl
    | some meant => exact absurd wideU (trigraph_narrow known).1
  · exact ⟨c, bytes rest, bytes_narrow wide rest, unknown⟩

private theorem not_doubled {p : Prop} {rest : List Char} (plain : ∀ c more, p → rest = '?' :: c :: more → False) :
    ∀ c more, p → bytes rest = '?' :: c :: more → False := by
  intro c more holds here
  have mark : rest.head? = some '?' := (head_bytes (by decide) rest).1 (by rw [here]; rfl)
  obtain ⟨behind, rfl⟩ := List.head?_eq_some_iff.1 mark
  cases behind with
  | nil => cases here
  | cons d behind => exact plain d behind holds rfl

/-- A trigraph is ASCII text, so replacing trigraphs and writing in bytes commute. -/
theorem replace_trigraphs_bytes (cs : List Char) : InBytes (replaceTrigraphs cs) (replaceTrigraphs (bytes cs)) := by
  have mark : ¬ IsWide '?' := by decide
  induction cs using replaceTrigraphs.induct with
  | case1 c rest meant known ih =>
    obtain ⟨narrow, ascii⟩ := trigraph_narrow known
    rw [bytes_narrow mark, bytes_narrow mark, bytes_narrow narrow, replace_known known,
      replace_known known, in_bytes_ascii ascii]
    refine ⟨_, ?_, ih⟩
    rw [inBytes, bytes_narrow mark, bytes_narrow mark, bytes_narrow narrow]
    rfl
  | case2 c rest unknown ih =>
    obtain ⟨u, us, here, unknownU⟩ := unknown_bytes unknown rest
    rw [bytes_narrow mark, here] at ih
    rw [bytes_narrow mark, bytes_narrow mark, here, replace_unknown unknown, replace_unknown unknownU,
      in_bytes_ascii mark]
    exact ⟨_, rfl, ih⟩
  | case3 c rest plain ih =>
    rw [replaceTrigraphs.eq_2 _ _ plain]
    by_cases wide : IsWide c
    · rw [bytes_cons, replace_trigraphs_wide (units_wide wide)]
      refine .cons ?_ ?_ ih
      · rw [List.map_map]
        exact List.map_id (units c)
      · rw [List.flatMap_map]
        exact (List.flatMap_singleton' (units c)).trans (List.flatMap_singleton units c).symm
    · rw [bytes_narrow wide, replaceTrigraphs.eq_2 _ _ (not_doubled plain), in_bytes_ascii wide]
      refine ⟨_, ?_, ih⟩
      rw [inBytes, bytes_narrow wide]
      rfl
  | case4 => exact .nil

/-! ## Joined lines -/

/-- A glyph that is not the backslash of a joined line end. -/
def Kept (g : Glyph) (rest : List Glyph) : Prop :=
  g.char = '\\' → ∀ next ∈ rest.head?, next.char ≠ '\n' ∧ next.char ≠ '\r'

theorem join_lines_kept (kept : Kept g rest) (held : List Char) :
    joinLines held (g :: rest) =
      (⟨g.char, held ++ g.raw⟩ :: (joinLines [] rest).1, (joinLines [] rest).2) := by
  cases rest with
  | nil => rfl
  | cons next rest =>
    have newline : ¬ (g.char = '\\' ∧ next.char = '\n') := fun joined => (kept joined.1 next rfl).1 joined.2
    have carriage : ¬ (g.char = '\\' ∧ next.char = '\r') := fun joined => (kept joined.1 next rfl).2 joined.2
    rw [joinLines.eq_def]
    simp only [if_neg newline, if_neg carriage]

theorem join_lines_wide (wide : ∀ g ∈ front, IsWide g.char) (rest : List Glyph) :
    joinLines [] (front ++ rest) = (front ++ (joinLines [] rest).1, (joinLines [] rest).2) := by
  induction front with
  | nil => rfl
  | cons g front ih =>
    have kept : Kept g (front ++ rest) :=
      fun backslash => absurd backslash (wide_ne (wide g List.mem_cons_self) (by decide))
    rw [List.cons_append, join_lines_kept kept, ih fun g member => wide g (List.mem_cons_of_mem _ member)]
    rfl

theorem join_newline (joined : g.char = '\\' ∧ next.char = '\n') (held : List Char) (rest : List Glyph) :
    joinLines held (g :: next :: rest) = joinLines (held ++ g.raw ++ next.raw) rest := by
  rw [joinLines.eq_def]
  exact if_pos joined

private theorem no_newline (joined : g.char = '\\' ∧ next.char = '\r') : ¬ (g.char = '\\' ∧ next.char = '\n') := by
  rw [joined.2]
  exact fun both => absurd both.2 (by decide)

theorem join_carriage (joined : g.char = '\\' ∧ next.char = '\r') (held : List Char) :
    joinLines held [g, next] = ([], held ++ g.raw ++ next.raw) := by
  rw [joinLines, if_neg (no_newline joined), if_pos joined]

theorem join_carriage_newline (joined : g.char = '\\' ∧ next.char = '\r') (newline : feed.char = '\n')
    (held : List Char) (rest : List Glyph) :
    joinLines held (g :: next :: feed :: rest) =
      joinLines (held ++ g.raw ++ next.raw ++ feed.raw) rest := by
  rw [joinLines, if_neg (no_newline joined), if_pos joined, if_pos newline]

theorem join_carriage_other (joined : g.char = '\\' ∧ next.char = '\r') (other : ¬ feed.char = '\n')
    (held : List Char) (rest : List Glyph) :
    joinLines held (g :: next :: feed :: rest) =
      joinLines (held ++ g.raw ++ next.raw) (feed :: rest) := by
  rw [joinLines, if_neg (no_newline joined), if_pos joined, if_neg other]

/-- The lines that two sequences join, and the line ends that they leave over, are the
same up to writing in bytes. -/
def JoinedInBytes (held : List Char) (gs gs' : List Glyph) : Prop :=
  InBytes (joinLines held gs).1 (joinLines (bytes held) gs').1 ∧
    (joinLines (bytes held) gs').2 = bytes (joinLines held gs).2

theorem kept_bytes {rest' : List Glyph} (kept : Kept g rest) (written : InBytes rest rest') :
    Kept g.inBytes rest' := by
  intro backslash
  cases written with
  | nil => exact fun _ member => nomatch member
  | @cons next front gs gs' chars raws later =>
    obtain ⟨first, more, here, same⟩ := in_bytes_head (.cons chars raws later)
    obtain ⟨newline, carriage⟩ := kept backslash next rfl
    rw [here]
    rintro _ ⟨⟩
    exact ⟨mt (same _ (by decide)).1 newline, mt (same _ (by decide)).1 carriage⟩

/-- A glyph that is kept takes the held text along, in front of its first byte. -/
theorem joined_kept (held : List Char) (kept : Kept g rest) (written : InBytes (g :: rest) gs')
    (later : ∀ rest', InBytes rest rest' → JoinedInBytes [] rest rest') : JoinedInBytes held (g :: rest) gs' := by
  rw [JoinedInBytes, join_lines_kept kept]
  by_cases wide : IsWide g.char
  · cases written with
    | @cons _ front _ rest' chars raws behind =>
      obtain ⟨u, us, parts, wideU, wideUs, _⟩ := units_cons wide
      obtain ⟨x, xs, rfl, rfl, rfl⟩ := List.map_eq_cons_iff.1 (chars.trans parts)
      have keptX : Kept x (xs ++ rest') := fun backslash => absurd backslash (wide_ne wideU (by decide))
      have wideXs : ∀ g ∈ xs, IsWide g.char := fun g member => wideUs _ (List.mem_map_of_mem member)
      obtain ⟨same, left⟩ := later rest' behind
      rw [List.cons_append, join_lines_kept keptX, join_lines_wide wideXs]
      have moved : (⟨x.char, bytes held ++ x.raw⟩ :: xs).flatMap raw = bytes (held ++ g.raw) := by
        rw [bytes_append, ← raws, List.flatMap_cons, List.flatMap_cons, List.append_assoc]
      have spelled : (⟨x.char, bytes held ++ x.raw⟩ :: xs).map char = units g.char := chars
      exact ⟨.cons (g := ⟨g.char, held ++ g.raw⟩) spelled moved same, left⟩
  · obtain ⟨rest', rfl, behind⟩ := (in_bytes_ascii wide).1 written
    have whole : (⟨g.char, held ++ g.raw⟩ : Glyph).inBytes = ⟨g.char, bytes held ++ bytes g.raw⟩ :=
      congrArg (Glyph.mk g.char) (bytes_append held g.raw)
    obtain ⟨same, left⟩ := later rest' behind
    rw [join_lines_kept (kept_bytes kept behind)]
    refine ⟨(in_bytes_ascii (g := ⟨g.char, held ++ g.raw⟩) wide).2 ⟨_, ?_, same⟩, left⟩
    rw [whole]
    rfl

theorem join_lines_bytes (held : List Char) (written : InBytes gs gs') : JoinedInBytes held gs gs' := by
  induction held, gs using joinLines.induct generalizing gs' with
  | case1 held =>
    cases written
    exact ⟨.nil, rfl⟩
  | case2 held g =>
    refine joined_kept held (fun _ next member => nomatch member) written ?_
    intro rest' written
    cases written
    exact ⟨.nil, rfl⟩
  | case3 held g next rest joined ih =>
    obtain ⟨rest', rfl, joinedBytes, behind⟩ := in_bytes_joined (by decide) joined written
    have later := ih behind
    rw [JoinedInBytes, bytes_append, bytes_append] at later
    rwa [JoinedInBytes, join_newline joined, join_newline joinedBytes]
  | case4 held g next unjoined joined =>
    obtain ⟨rest', rfl, joinedBytes, behind⟩ := in_bytes_joined (by decide) joined written
    cases behind
    rw [JoinedInBytes, join_carriage joined, join_carriage joinedBytes, bytes_append, bytes_append]
    exact ⟨.nil, rfl⟩
  | case5 held g next unjoined joined feed rest fed ih =>
    obtain ⟨rest', rfl, joinedBytes, behind⟩ := in_bytes_joined (by decide) joined written
    obtain ⟨more, rfl, after⟩ := (in_bytes_ascii (by rw [fed]; decide)).1 behind
    have fedBytes : feed.inBytes.char = '\n' := fed
    have later := ih after
    rw [JoinedInBytes, bytes_append, bytes_append, bytes_append] at later
    rwa [JoinedInBytes, join_carriage_newline joined fed, join_carriage_newline joinedBytes fedBytes]
  | case6 held g next unjoined joined feed rest unfed ih =>
    obtain ⟨rest', rfl, joinedBytes, behind⟩ := in_bytes_joined (by decide) joined written
    have later := ih behind
    obtain ⟨first, more, rfl, same⟩ := in_bytes_head behind
    rw [JoinedInBytes, bytes_append, bytes_append] at later
    rwa [JoinedInBytes, join_carriage_other joined unfed,
      join_carriage_other joinedBytes (mt (same _ (by decide)).1 unfed)]
  | case7 held g next rest unjoined plain glyphs left split ih =>
    refine joined_kept held (fun backslash found member => ?_) written fun _ => ih
    cases member
    exact ⟨fun newline => unjoined ⟨backslash, newline⟩, fun carriage => plain ⟨backslash, carriage⟩⟩

end Glyph

/-- Reading the bytes of a text gives the bytes of its glyphs. -/
theorem glyphs_bytes (source : List Char) :
    Glyph.InBytes (glyphs source).1 (glyphs (bytes source)).1 ∧
      (glyphs (bytes source)).2 = bytes (glyphs source).2 :=
  Glyph.join_lines_bytes [] (Glyph.replace_trigraphs_bytes source)

namespace TokenSeq

theorem line_start_bytes (lineStart : Bool) (kind : TokenKind) (raw : List Char) :
    lineStartAfter lineStart kind (bytes raw) = lineStartAfter lineStart kind raw := by
  have newline : (bytes raw).contains '\n' = raw.contains '\n' := by
    rw [Bool.eq_iff_iff, List.contains_iff_mem, List.contains_iff_mem, mem_bytes (by decide)]
  cases kind with
  | space => rw [lineStartAfter, lineStartAfter, newline]
  | _ => rfl

/-- One step of the scan, over glyphs. -/
theorem scan_glyph (lineStart : Bool) (start : Nat) (left : List Char) (g : Glyph) (rest : List Glyph) :
    scan lineStart start left ((g :: rest).map Glyph.char) ((g :: rest).map Glyph.raw) =
      let (kind, more) := Lexeme.read lineStart g.char (rest.map Glyph.char)
      let raw := g.raw ++ (rest.take more).flatMap Glyph.raw
      ⟨kind, start, raw⟩ ::
        scan (lineStartAfter lineStart kind raw) (start + Text.byteLength raw) left
          ((rest.drop more).map Glyph.char) ((rest.drop more).map Glyph.raw) := by
  simp only [List.map_cons, scan, List.map_take, List.map_drop, List.flatMap_def]

/-- The bytes that a step takes are those of the glyphs that it takes. -/
theorem taken_bytes {g x : Glyph} {xs rest rest' : List Glyph} (raws : (x :: xs).flatMap Glyph.raw = bytes g.raw)
    (later : Glyph.InBytes rest rest') (more : Nat) :
    x.raw ++ (xs ++ rest'.take (Text.byteLength ((rest.map Glyph.char).take more))).flatMap Glyph.raw =
      bytes (g.raw ++ (rest.take more).flatMap Glyph.raw) := by
  rw [List.flatMap_append, ← List.append_assoc, ← List.flatMap_cons, raws,
    Glyph.in_bytes_raw (Glyph.in_bytes_cut later more).1, bytes_append]

/-- Each step of the scan by bytes follows a step of the scan by characters. -/
theorem scan_bytes {gs gs' : List Glyph} (written : Glyph.InBytes gs gs') (lineStart : Bool)
    (start start' : Nat) (left : List Char) :
    (scan lineStart start' (bytes left) (gs'.map Glyph.char) (gs'.map Glyph.raw)).map
        (fun t => (t.kind, t.raw)) =
      (scan lineStart start left (gs.map Glyph.char) (gs.map Glyph.raw)).map
        (fun t => (t.kind, bytes t.raw)) := by
  cases written with
  | nil =>
    simp only [List.map_nil, scan, bytes_empty]
    split <;> rfl
  | @cons g front rest rest' chars raws later =>
    obtain ⟨u, us, parts⟩ := units_first g.char
    obtain ⟨x, xs, rfl, rfl, rfl⟩ := List.map_eq_cons_iff.1 (chars.trans parts)
    rw [List.cons_append, scan_glyph, scan_glyph, List.map_append, Glyph.in_bytes_char later,
      Lexeme.read_bytewise lineStart parts]
    generalize Lexeme.read lineStart g.char (rest.map Glyph.char) = token
    obtain ⟨kind, more⟩ := token
    simp only [List.length_map, List.take_length_add_append, List.drop_length_add_append,
      List.map_cons, taken_bytes raws later, line_start_bytes]
    -- What is left behind the token is in bytes again, and it starts on a line as before.
    rw [scan_bytes (Glyph.in_bytes_cut later more).2]
termination_by gs.length
decreasing_by
  simp only [List.length_cons, List.length_drop]
  omega

/-- The tokens of a text, scanned by bytes, are its tokens with their texts in bytes. -/
theorem of_source_bytes (source : String) (i : Nat) :
    ((ofSource (String.ofList (bytes source.toList))).get? i).map (fun t => (t.kind, t.raw)) =
      ((ofSource source).get? i).map fun t => (t.kind, bytes t.raw) := by
  obtain ⟨written, left⟩ := glyphs_bytes source.toList
  have scanned := scan_bytes written true 0 0 (glyphs source.toList).2
  rw [← left] at scanned
  have there := congrArg (·[i]?) scanned
  simpa only [List.getElem?_map, get?, ofSource, List.getElem?_toArray, String.toList_ofList]
    using there

end TokenSeq

end AllocGuard
