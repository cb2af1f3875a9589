import AllocGuard.Proofs.BytewiseScan

/-! The tokens of a text are a partition of it. The first two phases of reading keep
every character in the raw text of some glyph, the scan hands every glyph to exactly
one token, and the byte offsets that it counts on the way are those of the text
itself. So a token, and any range of tokens, can be cut out of the text by its
offsets, and every cut falls between two characters, also when the scan moves by bytes. -/
namespace AllocGuard

/-! ## Glyphs keep the text -/

namespace Glyph

theorem replace_trigraphs_raw (source : List Char) : (replaceTrigraphs source).flatMap raw = source := by
  fun_induction replaceTrigraphs source with
  | case1 c rest meant known ih => simp [ih]
  | case2 c rest unknown ih => simp [ih]
  | case3 c rest _ ih => simp [ih]
  | case4 => rfl

theorem replace_trigraphs_nonempty (source : List Char) : ∀ g ∈ replaceTrigraphs source, g.raw ≠ [] := by
  fun_induction replaceTrigraphs source with
  | case1 c rest meant known ih => simpa using ih
  | case2 c rest unknown ih => simpa using ih
  | case3 c rest _ ih => simpa using ih
  | case4 => simp

/-- Joining lines moves raw text from one glyph to the next and drops none of it. -/
theorem join_lines_raw (held : List Char) (gs : List Glyph) :
    (joinLines held gs).1.flatMap raw ++ (joinLines held gs).2 = held ++ gs.flatMap raw := by
  fun_induction joinLines held gs with
  | case1 held => simp
  | case2 held g => simp
  | case3 held g next rest joined ih => simpa using ih
  | case4 held g next unjoined joined => simp
  | case5 held g next unjoined joined feed rest fed ih => simpa using ih
  | case6 held g next unjoined joined feed rest unfed ih => simpa using ih
  | case7 held g next rest unjoined plain glyphs left split ih =>
    rw [split] at ih
    simp only [List.flatMap_cons, List.append_assoc, List.nil_append] at ih ⊢
    rw [ih]

theorem join_lines_nonempty (held : List Char) (gs : List Glyph)
    (nonempty : ∀ g ∈ gs, g.raw ≠ []) : ∀ g ∈ (joinLines held gs).1, g.raw ≠ [] := by
  fun_induction joinLines held gs with
  | case1 held => simp
  | case2 held g => simpa using fun _ => nonempty
  | case3 held g next rest joined ih => exact ih fun g member => nonempty g (by simp [member])
  | case4 held g next unjoined joined => simp
  | case5 held g next unjoined joined feed rest fed ih =>
    exact ih fun g member => nonempty g (by simp [member])
  | case6 held g next unjoined joined feed rest unfed ih =>
    exact ih fun g member => nonempty g (List.mem_cons_of_mem _ (List.mem_cons_of_mem _ member))
  | case7 held g next rest unjoined plain glyphs left split ih =>
    rw [split] at ih
    have later := ih fun g member => nonempty g (List.mem_cons_of_mem _ member)
    intro found member
    rcases List.mem_cons.1 member with rfl | member
    · simp [nonempty g List.mem_cons_self]
    · exact later found member

end Glyph

/-- The glyphs of a text and the line ends left over make up the text. -/
theorem glyphs_raw (source : List Char) : (glyphs source).1.flatMap Glyph.raw ++ (glyphs source).2 = source := by
  rw [glyphs, Glyph.join_lines_raw, List.nil_append, Glyph.replace_trigraphs_raw]

/-- Every logical character has source text of its own. -/
theorem glyphs_nonempty (source : List Char) : ∀ g ∈ (glyphs source).1, g.raw ≠ [] :=
  Glyph.join_lines_nonempty [] _ (Glyph.replace_trigraphs_nonempty source)

/-! ## The scan cuts between glyphs -/

namespace Token

/-- The tokens follow each other without gap from byte `start` to byte `stop`, and none
of them is empty. -/
def Tile (start stop : Nat) : List Token → Prop
  | [] => start = stop
  | t :: rest => t.start = start ∧ t.raw ≠ [] ∧ Tile t.stop stop rest

end Token

namespace TokenSeq

/-- A scan takes the first element and some of those behind it, and goes on with the others. So what it
does is shown for a list when it is known for every end of the list behind the first element. -/
theorem scan_induction {α : Type} {motive : List α → Prop} (nil : motive [])
    (cons : ∀ first rest, (∀ count, motive (rest.drop count)) → motive (first :: rest)) (list : List α) :
    motive list := by
  induction length : list.length using Nat.strongRecOn generalizing list with
  | ind length' ih =>
    subst length
    cases list with
    | nil => exact nil
    | cons first rest =>
      refine cons first rest fun count => ih _ ?_ _ rfl
      exact Nat.lt_succ_of_le (List.drop_sublist count rest).length_le

private theorem no_raws_left {chars : List Char} {raws : List (List Char)} (paired : chars.length = raws.length)
    (exhausted : ∀ first chars' firstRaw raws', chars = first :: chars' →
      raws = firstRaw :: raws' → False) : raws = [] := by
  cases raws with
  | nil => rfl
  | cons firstRaw raws =>
    cases chars with
    | nil => cases paired
    | cons first chars => exact absurd rfl (exhausted first chars firstRaw raws rfl)

private theorem taken_flatten (more : Nat) (firstRaw : List Char) (raws : List (List Char)) :
    firstRaw ++ (raws.take more).flatten ++ (raws.drop more).flatten =
      (firstRaw :: raws).flatten := by
  rw [List.append_assoc, ← List.flatten_append, List.take_append_drop, List.flatten_cons]

/-- The raw texts of the tokens are those of the glyphs, in the same order. -/
theorem scan_raw (lineStart : Bool) (start : Nat) (left chars : List Char)
    (raws : List (List Char)) (paired : chars.length = raws.length) :
    (scan lineStart start left chars raws).flatMap Token.raw = raws.flatten ++ left := by
  fun_induction scan lineStart start left chars raws with
  | case1 lineStart start first chars firstRaw raws kind more read raw ih =>
    have shorter : (chars.drop more).length = (raws.drop more).length := by
      simp only [List.length_cons, List.length_drop] at paired ⊢
      omega
    rw [List.flatMap_cons, ih shorter, ← taken_flatten more firstRaw raws]
    simp only [raw, List.append_assoc]
  | case2 lineStart start chars raws exhausted empty =>
    rw [no_raws_left paired exhausted, List.isEmpty_iff.1 empty]
    rfl
  | case3 lineStart start chars raws exhausted nonempty =>
    rw [no_raws_left paired exhausted]
    simp

/-- The offsets that the scan counts leave no gap, and every token takes some text. -/
theorem scan_tiles (lineStart : Bool) (start : Nat) (left chars : List Char) (raws : List (List Char))
    (paired : chars.length = raws.length) (nonempty : ∀ raw ∈ raws, raw ≠ []) :
    Token.Tile start (start + Text.byteLength (raws.flatten ++ left))
      (scan lineStart start left chars raws) := by
  fun_induction scan lineStart start left chars raws with
  | case1 lineStart start first chars firstRaw raws kind more read raw ih =>
    have shorter : (chars.drop more).length = (raws.drop more).length := by
      simp only [List.length_cons, List.length_drop] at paired ⊢
      omega
    have later := ih shorter fun raw member => nonempty raw (by simp [List.mem_of_mem_drop member])
    have reach : start + Text.byteLength ((firstRaw :: raws).flatten ++ left) =
        start + Text.byteLength raw + Text.byteLength ((raws.drop more).flatten ++ left) := by
      rw [← taken_flatten more firstRaw raws]
      simp only [Text.byte_length_append, raw]
      omega
    rw [reach]
    exact ⟨rfl, by simp [raw, nonempty firstRaw], later⟩
  | case2 lineStart start chars raws exhausted empty =>
    rw [no_raws_left paired exhausted, List.isEmpty_iff.1 empty]
    rfl
  | case3 lineStart start chars raws exhausted some =>
    rw [no_raws_left paired exhausted]
    exact ⟨rfl, by simpa using some, rfl⟩

/-- The tokens of a text hold its characters, each once and in order. -/
theorem of_source_raw (source : String) : (ofSource source).tokens.toList.flatMap Token.raw = source.toList := by
  have kept := glyphs_raw source.toList
  rw [List.flatMap_def] at kept
  rw [← kept]
  exact scan_raw true 0 _ _ _ (by rw [List.length_map, List.length_map])

/-- The tokens of a text run from its first byte to its last. -/
theorem of_source_tiles (source : String) :
    Token.Tile 0 (Text.byteLength source.toList) (ofSource source).tokens.toList := by
  have kept := glyphs_raw source.toList
  have nonempty := glyphs_nonempty source.toList
  have tiled := scan_tiles true 0 (glyphs source.toList).2
    ((glyphs source.toList).1.map Glyph.char) ((glyphs source.toList).1.map Glyph.raw) (by simp)
    (by simpa using nonempty)
  rw [← List.flatMap_def, kept, Nat.zero_add] at tiled
  exact tiled

end TokenSeq

/-! ## Slices of a text -/

namespace Text

theorem byte_length_of_list (cs : List Char) : (String.ofList cs).utf8ByteSize = byteLength cs := by
  induction cs with
  | nil => rfl
  | cons c cs ih =>
    rw [← List.singleton_append, String.ofList_append, String.utf8ByteSize_append, ih,
      ← String.singleton_eq_ofList, String.utf8ByteSize_singleton, List.singleton_append,
      byte_length_cons]

theorem byte_length_pos {cs : List Char} (nonempty : cs ≠ []) : 0 < byteLength cs := by
  cases cs with
  | nil => exact absurd rfl nonempty
  | cons c cs =>
    rw [byte_length_cons]
    exact Nat.add_pos_left c.utf8Size_pos _

/-- The text stands in the source between two byte offsets, both of them between two
characters, so that it can be cut out there. -/
structure IsSlice (source : String) (start stop : Nat) (text : String) : Prop where
  ordered : start ≤ stop
  start_valid : String.Pos.Raw.IsValid source ⟨start⟩
  stop_valid : String.Pos.Raw.IsValid source ⟨stop⟩
  bytes : source.toByteArray.extract start stop = text.toByteArray

theorem valid_of_split {source : String} {front back : List Char} (split : source.toList = front ++ back) :
    String.Pos.Raw.IsValid source ⟨byteLength front⟩ := by
  rw [String.Pos.Raw.isValid_iff_exists_append]
  refine ⟨String.ofList front, String.ofList back, ?_, ?_⟩
  · rw [← String.ofList_append, ← split, String.ofList_toList]
  · apply String.Pos.Raw.ext
    rw [String.byteIdx_rawEndPos, byte_length_of_list]

theorem slice_of_split {source : String} {front middle back : List Char}
    (split : source.toList = front ++ middle ++ back) :
    IsSlice source (byteLength front) (byteLength front + byteLength middle)
      (String.ofList middle) where
  ordered := Nat.le_add_right _ _
  start_valid := valid_of_split (by rw [split, List.append_assoc])
  stop_valid := by
    rw [← byte_length_append]
    exact valid_of_split split
  bytes := by
    have whole : source = String.ofList front ++ String.ofList middle ++ String.ofList back := by
      rw [← String.ofList_append, ← String.ofList_append, ← split, String.ofList_toList]
    have frontSize : (String.ofList front).toByteArray.size = byteLength front := by
      rw [String.size_toByteArray, byte_length_of_list]
    have middleSize : (String.ofList middle).toByteArray.size = byteLength middle := by
      rw [String.size_toByteArray, byte_length_of_list]
    have behind := ByteArray.extract_append_size_add (a := (String.ofList front).toByteArray)
      (b := (String.ofList middle).toByteArray ++ (String.ofList back).toByteArray)
      (i := 0) (j := byteLength middle)
    rw [Nat.add_zero, frontSize, ByteArray.extract_append_eq_left middleSize.symm] at behind
    rw [whole, String.toByteArray_append, String.toByteArray_append, ByteArray.append_assoc, behind]

end Text

namespace TokenSeq

variable {start stop i : Nat} {ts : TokenSeq} {source : String} {tokens : List Token} {t : Token}

/-! ## Offsets of tokens -/

/-- A token starts behind the text of the tokens before it. -/
theorem tile_start (tiled : Token.Tile start stop tokens) (found : tokens[i]? = some t) :
    t.start = start + Text.byteLength ((tokens.take i).flatMap Token.raw) := by
  induction tokens generalizing start i with
  | nil => simp at found
  | cons first rest ih =>
    obtain ⟨begins, _, later⟩ := tiled
    cases i with
    | zero =>
      cases found
      simpa using begins
    | succ i =>
      have behind := ih later found
      rw [behind, Token.stop, begins]
      simp
      omega

/-- The last token ends where the tiling does. -/
theorem tile_stop (tiled : Token.Tile start stop tokens) : (tokens.getLast?.map Token.stop).getD start = stop := by
  induction tokens generalizing start with
  | nil => exact tiled
  | cons first rest ih =>
    obtain ⟨_, _, later⟩ := tiled
    have reached := ih later
    rw [List.getLast?_cons]
    cases last : rest.getLast? with
    | none => simpa [last] using reached
    | some t => simpa [last] using reached

theorem tile_nonempty (tiled : Token.Tile start stop tokens) : ∀ t ∈ tokens, t.raw ≠ [] := by
  induction tokens generalizing start with
  | nil => simp
  | cons first rest ih =>
    obtain ⟨_, nonempty, later⟩ := tiled
    intro t member
    rcases List.mem_cons.1 member with rfl | member
    · exact nonempty
    · exact ih later t member

theorem get_to_list (found : ts.get? i = some t) : ts.tokens.toList[i]? = some t := by
  rwa [Array.getElem?_toList]

/-- The text of the tokens before `i`. -/
def textBefore (ts : TokenSeq) (i : Nat) : List Char :=
  (ts.tokens.toList.take i).flatMap Token.raw

theorem byte_offset_of_source (source : String) (i : Nat) :
    (ofSource source).byteOffset i = Text.byteLength ((ofSource source).textBefore i) := by
  have tiled := of_source_tiles source
  have whole := of_source_raw source
  generalize ofSource source = ts at tiled whole ⊢
  cases found : ts.get? i with
  | some t =>
    rw [byteOffset, found, Option.map_some, Option.getD_some, tile_start tiled (get_to_list found), Nat.zero_add]
    rfl
  | none =>
    have past : ts.tokens.toList.length ≤ i := Array.getElem?_eq_none_iff.1 found
    have stop := tile_stop tiled
    rw [← whole] at stop
    rw [byteOffset, found, Option.map_none, Option.getD_none, textBefore, List.take_of_length_le past,
      byteLength, ← Array.getLast?_toList, stop]

/-- Text of a range of tokens, in characters. -/
theorem text_range_eq (ts : TokenSeq) (start stop : Nat) :
    ts.textRange start stop =
      String.ofList (((ts.tokens.toList.drop start).take (stop - start)).flatMap Token.raw) := by
  rw [textRange, Array.toList_extract, List.extract_eq_take_drop]

theorem text_before_add (ts : TokenSeq) (ordered : start ≤ stop) :
    ts.textBefore stop = ts.textBefore start ++ (ts.textRange start stop).toList := by
  have count : stop = start + (stop - start) := by omega
  rw [text_range_eq, String.toList_ofList, textBefore, textBefore, ← List.flatMap_append, ← List.take_add, ← count]

/-- Ranges of tokens that meet have texts that meet. -/
theorem text_range_append (ts : TokenSeq) {middle : Nat} (front : start ≤ middle) (back : middle ≤ stop) :
    ts.textRange start middle ++ ts.textRange middle stop = ts.textRange start stop := by
  have whole := ts.text_before_add (Nat.le_trans front back)
  rw [ts.text_before_add back, ts.text_before_add front, List.append_assoc] at whole
  apply String.toList_injective
  rw [String.toList_append]
  exact List.append_cancel_left whole

/-- All tokens together have the text they were read from. -/
theorem text_range_of_source (source : String) : (ofSource source).textRange 0 (ofSource source).size = source := by
  have all : (ofSource source).tokens.toList.take (ofSource source).size =
      (ofSource source).tokens.toList := List.take_of_length_le (Nat.le_of_eq rfl)
  rw [text_range_eq, Nat.sub_zero, List.drop_zero, all, of_source_raw, String.ofList_toList]

/-- A range that ends before it starts has the text of an empty one. -/
theorem text_range_max (ts : TokenSeq) (start stop : Nat) :
    ts.textRange start (max stop start) = ts.textRange start stop := by
  have count : max stop start - start = stop - start := by omega
  rw [text_range_eq, text_range_eq, count]

/-- Every range of tokens stands in the source between the offsets of its ends. -/
theorem text_range_slice (source : String) (start stop : Nat) :
    Text.IsSlice source ((ofSource source).byteOffset start)
      ((ofSource source).byteOffset (max stop start)) ((ofSource source).textRange start stop) := by
  have ordered : start ≤ max stop start := Nat.le_max_right _ _
  have split : source.toList = (ofSource source).textBefore start ++
      ((ofSource source).textRange start (max stop start)).toList ++
        ((ofSource source).tokens.toList.drop (max stop start)).flatMap Token.raw := by
    rw [← text_before_add _ ordered, textBefore, ← List.flatMap_append, List.take_append_drop, of_source_raw]
  have slice := Text.slice_of_split split
  rw [← Text.byte_length_append, ← text_before_add _ ordered, String.ofList_toList] at slice
  rwa [byte_offset_of_source, byte_offset_of_source, ← text_range_max]

/-- One token is a range of its own. -/
theorem text_range_single (ts : TokenSeq) (i : Nat) : ts.textRange i (i + 1) = ts.text i := by
  have one : i + 1 - i = 1 := by omega
  rw [text_range_eq, one, text]
  cases found : ts.get? i with
  | none =>
    have past : ts.tokens.toList.length ≤ i := Array.getElem?_eq_none_iff.1 found
    rw [List.drop_eq_nil_of_le past]
    rfl
  | some t =>
    obtain ⟨inside, same⟩ := List.getElem?_eq_some_iff.1 (get_to_list found)
    rw [List.drop_eq_getElem_cons inside, same]
    simp [Token.text]

theorem byte_offset_of_token (found : ts.get? i = some t) : ts.byteOffset i = t.start := by
  rw [byteOffset, found]
  rfl

/-- The token after the `i`th one starts where that one ends. -/
theorem byte_offset_succ (found : (ofSource source).get? i = some t) :
    (ofSource source).byteOffset (i + 1) = t.stop := by
  have text : ((ofSource source).text i).toList = t.raw := by
    rw [TokenSeq.text, found]
    exact String.toList_ofList
  rw [byte_offset_of_source, text_before_add _ (Nat.le_succ i), Text.byte_length_append,
    text_range_single, text, ← byte_offset_of_source, byte_offset_of_token found, Token.stop]

/-- The tokens cut the text into pieces: they start at its first byte, each takes at
least one byte and starts where the one before it ends, and the last ends where the
text does. Only the empty text has no token. -/
structure Partitions (ts : TokenSeq) (source : String) : Prop where
  first_start : ∀ t, ts.get? 0 = some t → t.start = 0
  positive : ∀ i t, ts.get? i = some t → t.start < t.stop
  adjacent : ∀ i t next, ts.get? i = some t → ts.get? (i + 1) = some next → next.start = t.stop
  last_stop : ∀ i t, ts.get? i = some t → ts.get? (i + 1) = none → t.stop = source.utf8ByteSize
  covered : ts.size = 0 → source = ""

theorem of_source_partitions (source : String) : (ofSource source).Partitions source where
  first_start := by
    intro t found
    rw [← byte_offset_of_token found, byte_offset_of_source]
    rfl
  positive := by
    intro i t found
    have there : t ∈ (ofSource source).tokens.toList := List.mem_of_getElem? (get_to_list found)
    have some := Text.byte_length_pos (tile_nonempty (of_source_tiles source) t there)
    rw [Token.stop]
    omega
  adjacent := by
    intro i t next found follows
    rw [← byte_offset_of_token follows, byte_offset_succ found]
  last_stop := by
    intro i t found ends
    have past : (ofSource source).tokens.toList.length ≤ i + 1 := Array.getElem?_eq_none_iff.1 ends
    rw [← byte_offset_succ found, byte_offset_of_source, textBefore, List.take_of_length_le past,
      of_source_raw, ← Text.byte_length_of_list, String.ofList_toList]
  covered := by
    intro none
    have whole := text_range_of_source source
    rw [none] at whole
    rw [← whole]
    exact text_range_eq _ 0 0

/-- Every place where the scan may stop, after any number of logical characters, lies
between two characters of the text. -/
theorem scan_position_valid (source : String) (count : Nat) :
    String.Pos.Raw.IsValid source
      ⟨Text.byteLength (((glyphs source.toList).1.take count).flatMap Glyph.raw)⟩ := by
  have whole := glyphs_raw source.toList
  rw [← List.take_append_drop count (glyphs source.toList).1, List.flatMap_append, List.append_assoc] at whole
  exact Text.valid_of_split whole.symm

theorem token_slice (found : (ofSource source).get? i = some t) :
    Text.IsSlice source t.start t.stop ((ofSource source).text i) := by
  have slice := text_range_slice source i (i + 1)
  have later : max (i + 1) i = i + 1 := by omega
  rwa [later, byte_offset_of_token found, byte_offset_succ found, text_range_single] at slice

/-- Reading a text loses nothing. Its tokens cut it into pieces, always between two
characters, and every range of tokens can be cut out and put together again. A scan of
its bytes one by one makes the same cuts. -/
theorem tokens_partition_source (source : String) :
    let ts := ofSource source
    ts.Partitions source ∧
      (∀ i t, ts.get? i = some t → Text.IsSlice source t.start t.stop (ts.text i)) ∧
      (∀ start stop, Text.IsSlice source (ts.byteOffset start) (ts.byteOffset (max stop start))
        (ts.textRange start stop)) ∧
      (∀ count, String.Pos.Raw.IsValid source
        ⟨Text.byteLength (((glyphs source.toList).1.take count).flatMap Glyph.raw)⟩) ∧
      (∀ start middle stop, start ≤ middle → middle ≤ stop →
        ts.textRange start middle ++ ts.textRange middle stop = ts.textRange start stop) ∧
      ts.textRange 0 ts.size = source ∧
      (∀ i, ((ofSource (String.ofList (Text.bytes source.toList))).get? i).map
          (fun t => (t.kind, t.raw)) =
        (ts.get? i).map fun t => (t.kind, Text.bytes t.raw)) := by
  intro ts
  refine ⟨of_source_partitions source, ?_, text_range_slice source, scan_position_valid source, ?_,
    text_range_of_source source, of_source_bytes source⟩
  · exact fun i t found => token_slice found
  · exact fun start middle stop front back => ts.text_range_append front back

end TokenSeq

end AllocGuard
