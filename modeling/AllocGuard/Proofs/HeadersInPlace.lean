import AllocGuard.Proofs.EditedTokens
import AllocGuard.Proofs.NewHeaders
import AllocGuard.Proofs.SourceLayout

/-! Headers that are read where they stand in a sequence. The same tokens show the same function wherever they stand,
and a header with a list of parameters shows where its function opens and stops. So a header that was copied is
read as before, and a new one is read in its place as it is by itself: as a function that returns `int`. -/
namespace AllocGuard

namespace TokenSeq

/-! ## The same tokens in two places -/

theorem carrying_shift (base i : Nat) (faces : List TokenFace) :
    carrying (base + i) faces = (carrying i faces).map (base + ·) := by
  induction faces generalizing i with
  | nil => rfl
  | cons face rest ih =>
    rw [carrying, carrying, Nat.add_assoc, ih]
    split <;> rfl

theorem view_listed {ts : TokenSeq} {a b p : Nat} (inside : p < (ts.declarationView a b).size) :
    (ts.declarationView a b).sig[p]? = (ts.significant a b)[p]? := by
  obtain ⟨tail, split⟩ := ts.first_declarator_front 0 (ts.significant a b)
  rw [declarationView, List.getElem?_toArray]
  nth_rewrite 2 [split]
  rw [List.getElem?_append_left (by simpa [DeclarationView.size, declarationView] using inside)]

section Twice

variable {ts ts' : TokenSeq} {i i' : Nat} {faces : List TokenFace} (there : ts.FacesAt i faces)

include there

/-- What a range says can be told from its tokens. -/
theorem FacesAt.meaning : ts.meaningIn i (i + faces.length) =
    (faces.filter (!·.1.isTrivia)).map fun face => (face.1, String.ofList (logicalChars face.2)) := by
  rw [meaningIn, there.significant]
  induction faces generalizing i with
  | nil => rfl
  | cons face rest ih =>
    have later := ih (faces_at_cons.1 there).2
    rw [carrying]
    cases trivia : face.1.isTrivia with
    | true => rw [if_pos rfl, List.filter_cons_of_neg (by simp [trivia]), later]
    | false =>
      rw [if_neg Bool.false_ne_true, List.filter_cons_of_pos (by simp [trivia]), List.map_cons, later,
        FacesAt.kind there, FacesAt.spelling there]
      rfl

theorem FacesAt.text {a b : Nat} (upper : b ≤ faces.length) :
    (ts.textRange (i + a) (i + b)).toList = ((faces.drop a).take (b - a)).flatMap Prod.snd := by
  obtain ⟨more, split⟩ := there
  rw [text_range_in, facesIn, Nat.add_sub_add_left, ← List.drop_drop, ← split]
  rcases Nat.lt_or_ge b a with empty | ordered
  · rw [Nat.sub_eq_zero_of_le (Nat.le_of_lt empty), List.take_zero, List.take_zero]
  · rw [List.drop_append_of_le_length (by omega), List.take_append_of_le_length (by rw [List.length_drop]; omega)]

variable (there' : ts'.FacesAt i' faces)

include there'

theorem FacesAt.same_core : ts'.core i' (i' + faces.length) = ts.core i (i + faces.length) :=
  core_of_meaning_in (there'.meaning.trans there.meaning.symm)

/-- The same function is read from the same header. -/
theorem FacesAt.function (entryPoint : String) (start body stop start' body' stop' : Nat) :
    (ts'.declarationView i' (i' + faces.length)).function? entryPoint start' body' stop' =
      ((ts.declarationView i (i + faces.length)).function? entryPoint start body stop).map fun f =>
        { f with start := start', body := body', stop := stop' } := by
  have ranks (ts : TokenSeq) (a : Nat) : ts.rank a a = 0 := by rw [rank, Nat.sub_self, weight_zero]
  have alike := @declaration_view_alike ts i (i + faces.length) i (i + faces.length) (Nat.le_refl _) (Nat.le_refl _)
  have alike' :=
    @declaration_view_alike ts' i' (i' + faces.length) i' (i' + faces.length) (Nat.le_refl _) (Nat.le_refl _)
  rw [ranks, ← core_size] at alike alike'
  rw [there.same_core there'] at alike'
  have spelled (p : Nat) := (alike'.spelling p).trans (alike.spelling p).symm
  rw [DeclarationView.function?, DeclarationView.function?, alike'.reading, ← alike.reading]
  cases reads : (ts.declarationView i (i + faces.length)).reading with
  | none => rfl
  | some r =>
    simp only [Option.bind_eq_bind, Option.bind_some]
    cases named : r.pivot with
    | none => rfl
    | some pivot =>
      obtain ⟨nonempty, before, bound⟩ :=
        DeclarationView.reading_bounds (ts.declaration_view_shows i (i + faces.length)) reads named
      have token {p : Nat} (inside : p < (ts.declarationView i (i + faces.length)).size) :
          ∃ r < faces.length, (ts.declarationView i (i + faces.length)).sig[p]? = some (i + r) ∧
            (ts'.declarationView i' (i' + faces.length)).sig[p]? = some (i' + r) := by
        have inside' : p < (ts'.declarationView i' (i' + faces.length)).size := by rwa [alike'.size, ← alike.size]
        have listed := view_listed inside
        rw [Array.getElem?_eq_getElem inside] at listed
        rw [view_listed inside, view_listed inside', ← listed]
        obtain ⟨lower, upper, _⟩ := mem_significant.1 (List.mem_of_getElem? listed.symm)
        obtain ⟨r, place⟩ := Nat.exists_eq_add_of_le lower
        rw [place, there.significant, ← Nat.add_zero i, carrying_shift, List.getElem?_map] at listed
        obtain ⟨r', known, same⟩ := Option.map_eq_some_iff.1 listed.symm
        refine ⟨r, by omega, by rw [place], ?_⟩
        rw [there'.significant, ← Nat.add_zero i', carrying_shift, List.getElem?_map, known, Option.map_some]
        congr 1
        omega
      obtain ⟨f, _, first, first'⟩ := token (show 0 < _ by omega)
      obtain ⟨l, upper, last, last'⟩ := token (show r.base - 1 < _ by omega)
      have span : (ts'.declarationView i' (i' + faces.length)).spanText 0 r.base =
          (ts.declarationView i (i + faces.length)).spanText 0 r.base := by
        rw [DeclarationView.spanText, DeclarationView.spanText, if_pos nonempty, if_pos nonempty]
        simp only [Array.getD_eq_getD_getElem?, first, first', last, last', Option.getD_some]
        refine congrArg Text.trim (String.toList_injective ?_)
        rw [declarationView, declarationView, Nat.add_assoc, Nat.add_assoc]
        exact (there'.text upper).trans (there.text upper).symm
      rw [Option.bind_some, Option.bind_some, span, spelled]
      split
      · rfl
      · rfl

/-- Sites of ranges with the same tokens are unsafe, and can be guarded, together. -/
theorem FacesAt.site {registry : Registry} {site : Site} (found : site ∈ ts'.sites registry i' (i' + faces.length)) :
    ∃ site' ∈ ts.sites registry i (i + faces.length), site'.isUnsafe = site.isUnsafe ∧
      site'.isGuardable = site.isGuardable := by
  have ranks (ts : TokenSeq) (a : Nat) : ts.rank a a = 0 := by rw [rank, Nat.sub_self, weight_zero]
  have listed := List.mem_map_of_mem (f := Site.relocate (ts'.rank i')) found
  rw [sites_core (Nat.le_refl i') (Nat.le_refl _), ranks, ← core_size, there.same_core there', core_size, ← ranks ts i,
    ← sites_core (Nat.le_refl i) (Nat.le_refl _)] at listed
  obtain ⟨site', found', twin⟩ := List.mem_map.1 listed
  refine ⟨site', found', ?_, ?_⟩
  · rw [← Site.unsafe_relocate (ts.rank i), twin, Site.unsafe_relocate]
  · rw [← Site.guardable_relocate (ts.rank i), twin, Site.guardable_relocate]

end Twice

/-! ## Headers with a parameter list -/

/-- Where a body that opens at `i` stops: behind its brace, or at the end. -/
def bodyStop (ts : TokenSeq) (i : Nat) : Nat :=
  ((ts.matchingClose i ts.size).map (· + 1)).getD ts.size

/-- Words and stars, and what stands between them. -/
def leadsName (kind : TokenKind) : Bool :=
  kind.isTrivia || kind.isWord || kind == .star

/-- The tokens of a header: words and stars, a name that is no word of the language, and parameters whose brackets
stand in pairs. -/
inductive IsHeader : List TokenFace → Prop
  | intro {front gap content trail : List TokenFace} {name opening close : List Char}
    (starts : ∀ face ∈ front.head?, isPassedOver face.1 = false)
    (words : ∀ face ∈ front, leadsName face.1 = true)
    (free : Word.isReserved (String.ofList (logicalChars name)) = false)
    (between : ∀ face ∈ gap, face.1.isTrivia = true) (paired : Paired content)
    (behind : ∀ face ∈ trail, face.1.isTrivia = true) :
    IsHeader (front ++ (.identifier, name) :: (gap ++ (.openParen, opening) ::
      (content ++ (.closeParen, close) :: trail)))

section Header

variable {ts : TokenSeq} {i : Nat} {front : List TokenFace}

/-- A header goes on behind words and stars. -/
theorem function_stop_lead (words : ∀ face ∈ front, leadsName face.1 = true) (there : ts.FacesAt i front)
    (prev : Option TokenKind) (named : Bool) :
    ∃ prev', ts.functionStopFrom prev named i = ts.functionStopFrom prev' named (i + front.length) ∧
      ((∀ face ∈ front, face.1.isTrivia = true) → prev' = prev) := by
  induction front generalizing i prev with
  | nil => exact ⟨prev, rfl, fun _ => rfl⟩
  | cons face front ih =>
    obtain ⟨here, later⟩ := List.forall_mem_cons.1 words
    have behind := (faces_at_cons.1 there).2
    rw [function_stop_eq, FacesAt.kind there, Option.bind_some, List.length_cons, Nat.add_comm front.length,
      ← Nat.add_assoc]
    cases trivia : face.1.isTrivia with
    | true =>
      obtain ⟨prev', same, kept⟩ := ih later behind prev
      rw [if_pos rfl]
      exact ⟨prev', same, fun all => kept (List.forall_mem_cons.1 all).2⟩
    | false =>
      obtain ⟨prev', same, _⟩ := ih later behind (some face.1)
      refine ⟨prev', Eq.trans ?_ same, fun all => ?_⟩
      · obtain ⟨kind, text⟩ := face
        cases kind <;> first | rfl | cases here
      · rw [(List.forall_mem_cons.1 all).1] at trivia
        cases trivia

theorem carrying_none (blank : ∀ face ∈ front, face.1.isTrivia = true) (i : Nat) : carrying i front = [] := by
  induction front generalizing i with
  | nil => rfl
  | cons face front ih =>
    obtain ⟨here, later⟩ := List.forall_mem_cons.1 blank
    rw [carrying, if_pos here, ih later]

theorem FacesAt.carried {q : Nat} (there : ts.FacesAt i front) (listed : q ∈ carrying i front) :
    ∃ face ∈ front, ts.kind? q = some face.1 := by
  rw [← there.significant] at listed
  obtain ⟨lower, upper, _⟩ := mem_significant.1 listed
  obtain ⟨r, rfl⟩ := Nat.exists_eq_add_of_le lower
  have below : r < front.length := by omega
  obtain ⟨more, split⟩ := there
  refine ⟨front[r], List.getElem_mem below, ?_⟩
  rw [kind_of_faces, ← List.getElem?_drop, ← split, List.getElem?_append_left below, List.getElem?_eq_getElem below]
  rfl

theorem IsHeader.starts {header : List TokenFace} (isHeader : IsHeader header) (there : ts.FacesAt i header) :
    ts.kindIs i isPassedOver = false := by
  cases isHeader with
  | @intro front gap content trail name opening close starts =>
    cases front with
    | nil => exact kind_is_of_kind (FacesAt.kind there) _
    | cons face front => rw [kind_is_of_kind (FacesAt.kind there), starts face rfl]

variable {header : List TokenFace} (isHeader : IsHeader header) (there : ts.FacesAt i header)
  (brace : ts.kind? (i + header.length) = some .openBrace)

include isHeader there brace

/-- A function ends where its body does. -/
theorem IsHeader.function_stop : ts.functionStop? i = some (ts.bodyStop (i + header.length)) := by
  cases isHeader with
  | @intro front gap content trail name opening close starts words free between paired behind =>
    obtain ⟨lead, named⟩ := faces_at_append there
    have blank {faces : List TokenFace} (trivia : ∀ face ∈ faces, face.1.isTrivia = true) :
        ∀ face ∈ faces, leadsName face.1 = true := fun face member => by rw [leadsName, trivia face member]; rfl
    obtain ⟨space, group⟩ := faces_at_append (faces_at_cons.1 named).2
    obtain ⟨closes, partner⟩ := @Paired.closes _ _ _ _ .paren _ _ paired group
    obtain ⟨_, trailing⟩ := faces_at_append (faces_at_cons.1 group).2
    obtain ⟨prev, first, _⟩ := function_stop_lead words lead none false
    obtain ⟨prev', second, kept'⟩ := function_stop_lead (blank between) space (some .identifier) false
    obtain ⟨prev'', third, kept''⟩ :=
      function_stop_lead (blank behind) (faces_at_cons.1 trailing).2 (some .closeParen) true
    cases kept' between
    cases kept'' behind
    rw [functionStop?, first, function_stop_eq, FacesAt.kind named]
    show ts.functionStopFrom (some .identifier) false _ = _
    rw [second, function_stop_eq, FacesAt.kind group]
    show (ts.matchingClose _ ts.size).bind _ = _
    rw [partner ts.size (lt_size_of_kind closes), Option.bind_some, closes]
    show ts.functionStopFrom (some .closeParen) true _ = _
    rw [third, function_stop_eq]
    have reach : i + front.length + 1 + gap.length + 1 + content.length + 1 + trail.length =
        i + (front ++ (.identifier, name) :: (gap ++ (.openParen, opening) ::
          (content ++ (.closeParen, close) :: trail))).length := by
      simp only [List.length_append, List.length_cons]
      omega
    rw [reach, brace]
    rfl

/-- The body is found, wherever the function ends. -/
theorem IsHeader.body_open {stop : Nat} (below : i + header.length < stop) (inside : stop ≤ ts.size) :
    ts.bodyOpen? i stop = some (i + header.length) := by
  have tokens := significant_split ⟨Nat.le_add_right i header.length, below, significant_of_kind brace rfl⟩
  rw [there.significant] at tokens
  cases isHeader with
  | @intro front gap content trail name opening close starts words free between paired behind =>
    obtain ⟨before, named⟩ := faces_at_append there
    obtain ⟨_, group⟩ := faces_at_append (faces_at_cons.1 named).2
    obtain ⟨closes, partner⟩ := @Paired.closes _ _ _ _ .paren _ _ paired group
    obtain ⟨_, trailing⟩ := faces_at_append (faces_at_cons.1 group).2
    have reach : i + (front ++ (.identifier, name) :: (gap ++ (.openParen, opening) ::
          (content ++ (.closeParen, close) :: trail))).length =
        i + front.length + 1 + gap.length + 1 + content.length + 1 + trail.length := by
      simp only [List.length_append, List.length_cons]
      omega
    rw [reach] at tokens below brace ⊢
    have past : ∀ q ∈ carrying i front ++ [i + front.length], ts.kindIs q scansPast = true := by
      intro q member
      rcases List.mem_append.1 member with word | same
      · obtain ⟨face, known, seen⟩ := before.carried word
        rw [kind_is_of_kind seen]
        have leads := words face known
        generalize face.1 = kind at leads
        cases kind <;> first | rfl | cases leads
      · cases List.mem_singleton.1 same
        exact word_passed (FacesAt.kind named) rfl
    have isName : ts.IsName (i + front.length) := ⟨FacesAt.kind named, by rw [FacesAt.spelling named]; exact free⟩
    have isFunction : ts.isFunctionName (i + front.length) stop = true := by
      obtain ⟨typeof, attributes⟩ := isName.takes_no_group
      rw [isFunctionName, isCallShaped, has_kind_of_kind isName.identifier, isName.identifier, isName.not_builtin]
      simp only [typeof, attributes]
      rfl
    obtain ⟨rest, all⟩ : ∃ rest, ts.significant i stop =
        (carrying i front ++ [i + front.length]) ++ (i + front.length + 1 + gap.length) :: rest := by
      rw [tokens, carrying_append, carrying, carrying_append, carrying_none between, carrying]
      simp [TokenKind.isTrivia]
    have list : ts.parameterList? i stop = some (i + front.length + 1 + gap.length) := by
      obtain ⟨aggregate, scans⟩ := @scan_list ts i stop i _ _ _ false all past
      rw [parameterList?, scans, parameter_list_eq, if_pos (by omega), FacesAt.kind group, Option.bind_some,
        prev_significant_split all, List.getLast?_concat, Option.any_some, isFunction]
      rfl
    rw [bodyOpen?, list]
    simp only [partner stop (by omega), Option.map_some, Option.bind_eq_bind, Option.bind_some]
    refine Position.first_iff.2 ⟨by omega, by omega, has_kind_iff.2 brace, fun q above upper => ?_⟩
    rw [Bool.eq_false_iff]
    intro opens
    have listed := mem_significant.2 ⟨above, upper, significant_of_kind (has_kind_iff.1 opens) rfl⟩
    rw [(faces_at_cons.1 trailing).2.significant, carrying_none behind] at listed
    cases listed

end Header

/-! ## Headers that are new -/

/-- The function that a view of a header shows, where the header declares one that returns `int`. -/
theorem DeclaresInt.function {text name params : String} (declares : DeclaresInt text name params) (entryPoint : String)
    (start body stop : Nat) :
    ((ofSource text).declarationView 0 (ofSource text).size).function? entryPoint start body stop =
      some ⟨name, start, body, stop, false, false, "", name == entryPoint⟩ := by
  obtain ⟨place, specifiers, declared, int⟩ := declares
  have reads := ((ofSource text).declarationView 0 (ofSource text).size).read_reading
  rw [← declaration_view, declared] at reads
  obtain ⟨r, reading, same⟩ := Option.map_eq_some_iff.1 reads.symm
  simp only [Prod.mk.injEq] at same
  obtain ⟨named, layers, spans⟩ := same
  obtain ⟨pivot, found, spelled⟩ := Option.map_eq_some_iff.1 named
  rw [DeclarationView.function?, reading]
  simp only [Option.bind_eq_bind, Option.bind_some, found, layers, List.map_cons, List.map_nil, Layer.bare, spans, int,
    (Prod.mk.inj spelled).1]
  rfl

/-- White space is one token. -/
theorem reads_blanks {next : List Char} {lineStart : Bool} {faces : List TokenFace}
    (reads : ReadsFrom next lineStart faces) (blank : ∀ face ∈ faces, face.1 = .space) :
    faces = ending (faces.flatMap Prod.snd) := by
  cases faces with
  | nil => rfl
  | cons face rest =>
    obtain ⟨⟨first, tail, text, own⟩, later⟩ := id reads
    have spaces := space_face reads face List.mem_cons_self (blank face List.mem_cons_self)
    cases rest with
    | nil =>
      obtain ⟨kind, raw⟩ := face
      cases blank _ List.mem_cons_self
      cases text
      rw [List.flatMap_singleton, ending, if_neg (List.cons_ne_nil first tail)]
    | cons face' rest =>
      obtain ⟨⟨first', tail', text', _⟩, _⟩ := later
      have space' := space_face reads face' (by simp) (blank face' (by simp)) first' (by simp [text'])
      rw [text] at spaces
      obtain ⟨space, spaces⟩ := List.forall_mem_cons.1 spaces
      rw [Lexeme.read, if_pos space, List.flatMap_cons, text', Lexeme.runLength, List.takeWhile_append_of_pos spaces,
        List.cons_append, List.cons_append, List.takeWhile_cons_of_pos space', List.length_append] at own
      have length := (Prod.mk.inj own).2
      rw [List.length_cons] at length
      omega

/-- A header that returns `int` has a list of parameters. -/
theorem header_faces_header {front content : List TokenFace} {name trail : List Char}
    (starts : ∀ face ∈ front.head?, isPassedOver face.1 = false)
    (storage : ∀ face ∈ front, face.1 = .space ∨ face.1.isStorage = true) (plain : isPlainText name = true)
    (free : Word.isReserved (String.ofList name) = false) (paired : Paired content) :
    IsHeader (headerFaces front name content trail) := by
  rw [headerFaces, show front ++ _ = (front ++ [(.identifier, "int".toList), blank]) ++ (.identifier, name) ::
    ([] ++ (.openParen, ['(']) :: (content ++ (.closeParen, [')']) :: ending trail)) by simp]
  refine .intro ?_ ?_ (by rwa [logical_plain plain]) (List.forall_mem_nil _) paired ?_
  · cases front with
    | nil => exact fun _ head => by cases head; rfl
    | cons face front => exact starts
  · refine List.forall_mem_append.2 ⟨fun face member => ?_, by decide⟩
    rcases storage face member with space | specifies
    · rw [space]
      rfl
    · rw [leadsName, (storage_is_word specifies).1, Bool.or_true]
      rfl
  · rw [ending]
    split
    · exact List.forall_mem_nil _
    · exact List.forall_mem_singleton.2 rfl

end TokenSeq

open TokenSeq

namespace HeaderTokens.WellFormed

section InPlace

variable {source : String} {f : Function} {h : HeaderTokens}
  (formed : h.WellFormed (ofSource source) f.start f.body)

include formed

variable {outParam : String} {shape : ReturnShape} {e : Edit}

theorem trail_faces : (ofSource source).facesIn (h.close + 1) f.body =
    ending ((ofSource source).textRange (h.close + 1) f.body).toList := by
  obtain ⟨lower, ordered, upper⟩ := formed.params_stand
  have bare := formed.bare.within (show f.start ≤ h.close + 1 by omega) (Nat.le_refl f.body)
  obtain ⟨_, _, reads⟩ := range_reads bare.plain
  rw [text_range_in]
  refine reads_blanks reads fun face member => ?_
  rcases face_in bare face member with space | ⟨i, listed, _⟩
  · exact space
  · rw [formed.behind_close] at listed
    cases listed

section Edited

variable {first : Nat} {rest : List Nat} (type : h.type = first :: rest) {content : List TokenFace} {params : String}
  (read : h.ParamsRead (ofSource source) f.body params content) {c : Char} {tail : List Char}
  (name : (ofSource source).spelling h.name = String.ofList (c :: tail)) (identifier : Lexeme.IsIdentifier c tail)
  {e : Edit}
  (edits : e = ⟨first, h.close + 1, "int " ++ (ofSource source).spelling h.name ++ "(" ++ params ++ ")"⟩)

include type read name identifier edits

/-- The tokens of the text that is put into a header. -/
theorem edited_text_faces : (ofSource e.text).faces = headerFaces [] (c :: tail) content [] := by
  obtain ⟨_, plain⟩ := formed.edited_text type read name identifier edits
  have written : e.text.toList = (headerFaces [] (c :: tail) content []).flatMap Prod.snd := by
    have words : "int ".toList = "int".toList ++ [' '] ∧ "(".toList = ['('] ∧ ")".toList = [')'] := by decide
    simp only [edits, String.toList_append, name, @String.toList_ofList (c :: tail), read.spelled, words, headerFaces,
      List.flatMap_append, List.flatMap_cons, List.nil_append, ending_text, blank, List.append_assoc, List.append_nil]
  refine of_source_faces written ?_ (header_reads identifier (fun _ => trivial) (read.reads _ (by simp))
    (List.forall_mem_nil _))
  rw [editedHeader, String.toList_append, String.toList_append, List.append_assoc] at plain
  exact plain_front (plain_back plain)

/-- The tokens of a new header, in its place and by itself. -/
theorem edited_header_faces :
    (ofSource ((ofSource source).editedHeader f e)).faces = (ofSource source).editedUpTo f.body f.start [e] ∧
      (ofSource source).editedUpTo f.body f.start [e] =
        headerFaces ((ofSource source).facesIn f.start first) (c :: tail) content
          ((ofSource source).textRange (h.close + 1) f.body).toList := by
  obtain ⟨text, plain⟩ := formed.edited_text type read name identifier edits
  have whole := of_source_faces text plain
    (header_reads identifier (formed.front_reads type) (read.reads _ formed.trail_no_dot) formed.trail_blank)
  have chunk : (ofSource source).editedUpTo f.body f.start [e] =
      headerFaces ((ofSource source).facesIn f.start first) (c :: tail) content
        ((ofSource source).textRange (h.close + 1) f.body).toList := by
    rw [editedUpTo, editedUpTo, formed.edited_text_faces type read name identifier edits,
      joined_apart fun _ _ _ => by simp [headerFaces], edits]
    show _ ++ (ofSource source).facesIn (h.close + 1) f.body = _
    rw [formed.trail_faces]
    simp [headerFaces, ending]
  exact ⟨whole.trans chunk.symm, chunk⟩

end Edited

/-- The text that is put into a header starts with `int`. -/
theorem new_text_starts (copied : h.CopiesWhole (ofSource source) f.returnsVoid)
    (named : Settings.isIdentifier outParam = true) (hit : (ofSource source).reshape f outParam = .ok (shape, some e)) :
    (ofSource e.text).faces.head? = some (.identifier, "int".toList) := by
  obtain ⟨first, rest, content, type, edits, read⟩ := new_params_read formed copied named hit rfl
  obtain ⟨c, tail, name, identifier⟩ := identifier_spelled (has_kind_iff.2 formed.named.identifier)
  rw [formed.edited_text_faces type read name identifier edits]
  rfl

/-- A new header has a list of parameters, and wherever its tokens stand they show a function that returns `int`. -/
theorem new_header_shown (copied : h.CopiesWhole (ofSource source) f.returnsVoid)
    (named : Settings.isIdentifier outParam = true) (hit : (ofSource source).reshape f outParam = .ok (shape, some e))
    (counts : (ofSource source).kindIs f.start isPassedOver = false) {header : List TokenFace}
    (edited : header = (ofSource source).editedUpTo f.body f.start [e]) :
    IsHeader header ∧ ∀ (ts : TokenSeq) (i : Nat), ts.FacesAt i header → ∀ entryPoint start body stop,
      ∃ name isEntry, (ts.declarationView i (i + header.length)).function? entryPoint start body stop =
        some ⟨name, start, body, stop, false, false, "", isEntry⟩ := by
  obtain ⟨first, rest, content, type, edits, read⟩ := new_params_read formed copied named hit rfl
  obtain ⟨c, tail, name, identifier⟩ := identifier_spelled (has_kind_iff.2 formed.named.identifier)
  obtain ⟨alone, chunk⟩ := formed.edited_header_faces type read name identifier edits
  have free := formed.named.free
  rw [name] at free
  subst edited
  constructor
  · rw [chunk]
    refine header_faces_header (fun face head => ?_) (formed.front_storage type) ?_ free read.paired
    · obtain ⟨more, there⟩ := (ofSource source).faces_in_there f.start first
      have seen : (ofSource source).kind? f.start = some face.1 := by
        rw [kind_of_faces, ← List.head?_drop, ← there, List.head?_append, head]
        rfl
      rwa [kind_is_of_kind seen] at counts
    · rw [← List.append_nil (c :: tail), plain_quiet (identifier_plain identifier)]
      rfl
  · intro ts i there entryPoint start body stop
    rw [← alone] at there ⊢
    have whole (ts : TokenSeq) : ts.FacesAt 0 ts.faces := List.prefix_rfl
    rw [(whole _).function there entryPoint start body stop, Nat.zero_add, faces_length,
      (formed.edited_declares type read edits).function]
    exact ⟨_, _, rfl⟩

end InPlace

end HeaderTokens.WellFormed

end AllocGuard
