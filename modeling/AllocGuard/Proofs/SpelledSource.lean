import AllocGuard.Proofs.Retokenizing

/-! The spellings of the tokens make up the text that the first two phases leave. Every token ends
between two glyphs, so that no trigraph and no joined line end goes from one token to the next, and what
a token is spelled like by itself is what it adds to the whole. The two phases take text away and never
break a character: they may run over the bytes of a text one by one, and leave the bytes of a text. -/
namespace AllocGuard

/-! ## Less text -/

namespace Glyph

theorem replace_trigraphs_size (cs : List Char) :
    ∀ g ∈ replaceTrigraphs cs, g.char.utf8Size ≤ Text.byteLength g.raw := by
  fun_induction replaceTrigraphs cs with
  | case1 c rest meant known ih =>
    refine List.forall_mem_cons.2 ⟨?_, ih⟩
    rw [Text.narrow_size (trigraph_narrow known).2]
    exact Text.byte_length_pos (List.cons_ne_nil _ _)
  | case2 c rest unknown ih => exact List.forall_mem_cons.2 ⟨Nat.le_refl _, ih⟩
  | case3 c rest plain ih => exact List.forall_mem_cons.2 ⟨Nat.le_refl _, ih⟩
  | case4 => exact List.forall_mem_nil _

/-- A logical character is not longer than the text that stands for it. -/
theorem glyph_size {source : List Char} {g : Glyph} (member : g ∈ (glyphs source).1) :
    g.char.utf8Size ≤ Text.byteLength g.raw := by
  obtain ⟨first, inside, same, held, text⟩ := join_lines_from g member
  have own := replace_trigraphs_size source first inside
  rw [← text, Text.byte_length_append, ← same]
  omega

theorem chars_size {gs : List Glyph} (sizes : ∀ g ∈ gs, g.char.utf8Size ≤ Text.byteLength g.raw) :
    Text.byteLength (gs.map char) ≤ Text.byteLength (gs.flatMap raw) := by
  induction gs with
  | nil => exact Nat.le_refl 0
  | cons g gs ih =>
    obtain ⟨here, later⟩ := List.forall_mem_cons.1 sizes
    have behind := ih later
    rw [List.map_cons, List.flatMap_cons, Text.byte_length_cons, Text.byte_length_append]
    omega

end Glyph

theorem logical_chars_size (source : List Char) : Text.byteLength (logicalChars source) ≤ Text.byteLength source := by
  have taken := Glyph.chars_size fun g (member : g ∈ (glyphs source).1) => Glyph.glyph_size member
  have whole := congrArg Text.byteLength (glyphs_raw source)
  rw [Text.byte_length_append] at whole
  rw [logicalChars]
  omega

theorem normalize_size (source : String) : (normalize source).utf8ByteSize ≤ source.utf8ByteSize := by
  have size := logical_chars_size source.toList
  rwa [← Text.byte_length_of_list, ← Text.byte_length_of_list, String.ofList_toList] at size

/-- A trigraph starts with two question marks, and a joined line end with a backslash. -/
theorem plain_of_no_marks {cs : List Char} (marks : ¬ ['?', '?'] <:+: cs) (backslash : '\\' ∉ cs) :
    isPlainText cs = true := by
  induction cs with
  | nil => rfl
  | cons c rest ih =>
    have behind := ih (fun inside => marks (inside.trans (List.suffix_cons c rest).isInfix))
      fun inside => backslash (List.mem_cons_of_mem c inside)
    have start : startsMark (c :: rest) = false := by
      rw [Bool.eq_false_iff]
      intro starts
      unfold startsMark at starts
      split at starts
      · rename_i d more here
        exact marks ⟨[], d :: more, here.symm⟩
      · rename_i d more here
        exact backslash (here ▸ List.mem_cons_self)
      · cases starts
    rw [isPlainText, start, behind]
    rfl

/-! ## Bytes -/

/-- What the first two phases leave of the bytes of a text, when they run over these one by one. -/
def normalizedBytes (source : String) : ByteArray :=
  ((logicalChars (Text.bytes source.toList)).map fun u => UInt8.ofNat u.toNat).toByteArray

theorem logical_chars_bytes (source : List Char) :
    logicalChars (Text.bytes source) = Text.bytes (logicalChars source) :=
  Glyph.in_bytes_char (glyphs_bytes source).1

theorem units_encode (c : Char) : (Text.units c).map (fun u => UInt8.ofNat u.toNat) = String.utf8EncodeChar c := by
  rw [Text.units, List.map_map]
  refine (List.map_congr_left fun byte _ => ?_).trans (List.map_id _)
  have small := byte.toNat_lt
  have valid : byte.toNat.isValidChar := .inl (by omega)
  have number : (Char.ofNat byte.toNat).toNat = byte.toNat := by
    rw [Char.ofNat, dif_pos valid]
    rfl
  rw [Function.comp_apply, number, UInt8.ofNat_toNat]
  rfl

theorem bytes_encode (cs : List Char) :
    ((Text.bytes cs).map fun u => UInt8.ofNat u.toNat).toByteArray = cs.utf8Encode := by
  rw [Text.bytes, List.map_flatMap, List.utf8Encode]
  simp only [units_encode]

/-- The bytes that are left are those of the text that is left. -/
theorem normalized_bytes_eq (source : String) : normalizedBytes source = (normalize source).toByteArray := by
  rw [normalizedBytes, logical_chars_bytes, bytes_encode, normalize, String.toByteArray_ofList]

theorem normalized_bytes_decode (source : String) :
    String.fromUTF8? (normalizedBytes source) = some (normalize source) := by
  rw [normalized_bytes_eq, String.fromUTF8?, dif_pos (normalize source).isValidUTF8]
  rfl

/-! ## Tokens in their text -/

/-- The text can be cut here: the two parts have the glyphs of the whole, each with all the text that
stands for it, and the joined line ends that come last. -/
def ReadsApart (front back : List Char) : Prop :=
  glyphs (front ++ back) = ((glyphs front).1 ++ (glyphs back).1, (glyphs front).2 ++ (glyphs back).2)

namespace TokenSeq

open Glyph

/-- Behind any number of tokens, the scan goes on with the glyphs that these have not taken. Behind all
of them there is nothing. -/
theorem scan_cut (lineStart : Bool) (start : Nat) (left : List Char) (gs : List Glyph) (i : Nat) :
    (∃ cut lineStart' start', (scanGlyphs lineStart start left gs).drop i =
        scanGlyphs lineStart' start' left (gs.drop cut) ∧
      ((scanGlyphs lineStart start left gs).take i).flatMap Token.raw = (gs.take cut).flatMap raw) ∨
    (scanGlyphs lineStart start left gs).length ≤ i := by
  induction i generalizing lineStart start gs with
  | zero => exact .inl ⟨0, lineStart, start, rfl, rfl⟩
  | succ i ih =>
    cases gs with
    | nil =>
      right
      simp only [scanGlyphs, List.map_nil, scan]
      split
      · exact Nat.zero_le _
      · exact Nat.succ_le_succ (Nat.zero_le i)
    | cons g rest =>
      rw [scan_glyphs_cons]
      rcases ih (behind lineStart (firstToken lineStart start g rest)) (firstToken lineStart start g rest).stop
        (rest.drop (firstLength lineStart g rest)) with ⟨cut, lineStart', start', later, text⟩ | past
      · refine .inl ⟨firstLength lineStart g rest + cut + 1, lineStart', start', ?_, ?_⟩
        · rw [List.drop_succ_cons, later, List.drop_succ_cons, List.drop_drop]
        · rw [List.take_succ_cons, List.flatMap_cons, text, List.take_succ_cons, List.take_add, firstToken,
            ← List.flatMap_append, List.cons_append]
      · exact .inr (Nat.succ_le_succ past)

theorem scan_glyphs_raw (lineStart : Bool) (start : Nat) (left : List Char) (gs : List Glyph) :
    (scanGlyphs lineStart start left gs).flatMap Token.raw = gs.flatMap raw ++ left := by
  rw [scanGlyphs, scan_raw, List.flatMap_def]
  rw [List.length_map, List.length_map]

theorem text_of_tokens (ts : TokenSeq) (i : Nat) :
    (ts.textRange 0 i).toList = (ts.tokens.toList.take i).flatMap Token.raw ∧
      (ts.textRange i ts.size).toList = (ts.tokens.toList.drop i).flatMap Token.raw := by
  rw [text_range_eq, text_range_eq, String.toList_ofList, String.toList_ofList, Nat.sub_zero, List.drop_zero]
  refine ⟨rfl, congrArg _ (List.take_of_length_le ?_)⟩
  rw [List.length_drop]
  exact Nat.le_refl _

/-- The end of a token cuts neither a trigraph nor a joined line end. -/
theorem tokens_read_apart (source : String) (i : Nat) :
    ReadsApart ((ofSource source).textRange 0 i).toList
      ((ofSource source).textRange i (ofSource source).size).toList := by
  obtain ⟨front, back⟩ := text_of_tokens (ofSource source) i
  have reads := reads_glyphs source.toList
  rw [front, back, of_source_scan]
  rcases scan_cut true 0 (glyphs source.toList).2 (glyphs source.toList).1 i with
    ⟨cut, lineStart, start, later, text⟩ | past
  · have before : glyphs (((glyphs source.toList).1.take cut).flatMap raw) =
        ((glyphs source.toList).1.take cut, []) := by
      have taken := reads.take cut
      rwa [Reads, List.append_nil] at taken
    have behind : glyphs (((glyphs source.toList).1.drop cut).flatMap raw ++ (glyphs source.toList).2) =
        ((glyphs source.toList).1.drop cut, (glyphs source.toList).2) := reads.drop cut
    rw [ReadsApart, later, text, scan_glyphs_raw, before, behind, List.nil_append, ← List.append_assoc,
      ← List.flatMap_append, List.take_append_drop, glyphs_raw]
  · rw [ReadsApart, List.take_of_length_le past, List.drop_eq_nil_of_le past, List.flatMap_nil, List.append_nil]
    exact Prod.ext (List.append_nil _).symm (List.append_nil _).symm

/-- Where a token of a text comes from: it was read from the characters that spell it, with the logical
characters of what stands behind it ahead. Joined line ends at the end of the text make a token that no
character stands for. -/
theorem token_in_text {source : String} {i : Nat} {t : Token} (there : (ofSource source).get? i = some t) :
    (t.kind = .space ∧ logicalChars t.raw = []) ∨
      ∃ lineStart first tail, logicalChars t.raw = first :: tail ∧
        Lexeme.read lineStart first (tail ++ logicalChars
          ((ofSource source).textRange (i + 1) (ofSource source).size).toList) = (t.kind, tail.length) := by
  have reads := reads_glyphs source.toList
  have listed := get_to_list there
  rw [(text_of_tokens (ofSource source) (i + 1)).2]
  rw [of_source_scan] at listed ⊢
  rcases scan_cut true 0 (glyphs source.toList).2 (glyphs source.toList).1 i with
    ⟨cut, lineStart, start, later, _⟩ | past
  · have here := congrArg List.head? later
    have behind := congrArg List.tail later
    rw [List.head?_drop, listed] at here
    rw [List.tail_drop] at behind
    rw [behind]
    have reads' := reads.drop cut
    generalize (glyphs source.toList).1.drop cut = gs at here reads'
    cases gs with
    | nil =>
      have none : logicalChars (glyphs source.toList).2 = [] := reads'.logical
      simp only [scanGlyphs, List.map_nil, scan] at here
      split at here
      · cases here
      · obtain rfl := Option.some.inj here
        exact .inl ⟨rfl, none⟩
    | cons g rest =>
      rw [scan_glyphs_cons, List.head?_cons] at here
      obtain rfl := Option.some.inj here
      have after : Reads (rest.drop (firstLength lineStart g rest)) (glyphs source.toList).2 := reads'.drop (_ + 1)
      have length := List.length_take_of_le (List.length_map char ▸ first_length_le lineStart g rest :
        firstLength lineStart g rest ≤ (rest.map char).length)
      refine .inr ⟨lineStart, g.char, _, first_spelled reads' lineStart start, ?_⟩
      rw [scan_glyphs_cons, List.tail_cons, scan_glyphs_raw, after.logical, List.map_drop,
        List.take_append_drop, length]
      rfl
  · rw [List.getElem?_eq_none past] at listed
    cases listed

/-- The tokens of glyphs are spelled by the characters of these. -/
theorem scan_spelled {gs : List Glyph} {left : List Char} (reads : Reads gs left) (lineStart : Bool) (start : Nat) :
    (scanGlyphs lineStart start left gs).flatMap (fun t => logicalChars t.raw) = gs.map char := by
  induction gs using scan_induction generalizing lineStart start with
  | nil =>
    have none : logicalChars left = [] := reads.logical
    simp only [scanGlyphs, List.map_nil, scan]
    split
    · rfl
    · rw [List.flatMap_singleton, none]
  | cons g rest ih =>
    have behind : Reads (rest.drop (firstLength lineStart g rest)) left := reads.drop (_ + 1)
    rw [scan_glyphs_cons, List.flatMap_cons, first_spelled reads, ih _ behind, List.map_drop,
      List.cons_append, List.take_append_drop, List.map_cons]

theorem tokens_spelled (source : String) :
    (ofSource source).tokens.toList.flatMap (fun t => logicalChars t.raw) = logicalChars source.toList := by
  rw [of_source_scan, scan_spelled (reads_glyphs source.toList)]
  rfl

theorem spellings_eq (ts : TokenSeq) :
    (List.range ts.size).map ts.spelling = ts.tokens.toList.map Token.spelling := by
  refine List.ext_getElem ?_ fun i inside _ => ?_
  · rw [List.length_map, List.length_map, List.length_range]
    rfl
  · rw [List.length_map, List.length_range] at inside
    have there : ts.get? i = some ts.tokens[i] := Array.getElem?_eq_getElem inside
    rw [List.getElem_map, List.getElem_map, List.getElem_range, spelling, there]
    rfl

/-- The spellings of all tokens, one behind the other, are the text that the first two phases leave. No
token ends inside a trigraph or a joined line end. A text without two question marks in a row and
without backslashes is left as it is. The phases may run over bytes, and what they leave is text again
and takes no more bytes than there were. -/
theorem spellings_make_normalized (source : String) :
    let ts := ofSource source
    String.join ((List.range ts.size).map ts.spelling) = normalize source ∧
      (∀ i, ReadsApart (ts.textRange 0 i).toList (ts.textRange i ts.size).toList) ∧
      (¬ ['?', '?'] <:+: source.toList → '\\' ∉ source.toList → normalize source = source) ∧
      String.fromUTF8? (normalizedBytes source) = some (normalize source) ∧
      (normalize source).utf8ByteSize ≤ source.utf8ByteSize := by
  intro ts
  refine ⟨?_, tokens_read_apart source, fun marks backslash => ?_, normalized_bytes_decode source,
    normalize_size source⟩
  · rw [spellings_eq, ← String.toList_inj, String.toList_join, List.flatMap_map, normalize,
      String.toList_ofList, ← tokens_spelled]
    exact List.flatMap_congr fun t _ => String.toList_ofList
  · rw [normalize, logical_plain (plain_of_no_marks marks backslash), String.ofList_toList]

-- a cut between the marks of a trigraph or inside a joined line end is not one between tokens
example :
    ¬ ReadsApart "a ?".toList "?= b".toList ∧ ¬ ReadsApart "a\\".toList "\nb".toList ∧
      ¬ ReadsApart "a\\\n".toList "b".toList := by
  unfold ReadsApart
  decide

end TokenSeq

end AllocGuard
