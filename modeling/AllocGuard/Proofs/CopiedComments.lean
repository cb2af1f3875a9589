import AllocGuard.Proofs.EditRanges
import AllocGuard.Proofs.ForwardedResults
import AllocGuard.Proofs.Retokenizing

/-! Comments in text that is copied. A new header copies the parameters and the return type, and a
changed `return` copies its value, each without the blanks around it. That takes away the line end
behind a line comment, and the comment then goes on over the text that is put behind the copy. It does
so exactly if the copy ends in an open comment. Otherwise none of the new text is part of one. -/
namespace AllocGuard

namespace TokenSeq

open Glyph

variable {front back : String} {text : List Char} {c : Char}

/-- The kind of the token that a byte of the text belongs to. -/
def kindAt? (ts : TokenSeq) (offset : Nat) : Option TokenKind :=
  kindIn? ts.tokens.toList offset

/-- Whether the text ends in a comment that goes on with what follows. -/
def endsInComment (lineStart : Bool) (text : String) : Bool :=
  endsOpen (scanGlyphs lineStart 0 [] (glyphs text.toList).1)

/-- A character that starts no comment and ends none, and that is read as it is written. -/
def isQuiet (c : Char) : Bool :=
  !(['/', '.', '\n', '\r', '?', '\\'].contains c)

theorem quiet_iff : isQuiet c = true ↔ c ∉ ['/', '.', '\n', '\r', '?', '\\'] := by
  rw [isQuiet, Bool.not_eq_true', List.contains_eq_mem, decide_eq_false_iff_not]

/-! ## Text behind text -/

/-- A quiet character can come behind a text: nothing goes across the seam, and it is not the star that
makes a comment of a slash. -/
structure Attaches (text : List Char) (c : Char) : Prop where
  quiet : isQuiet c = true
  seam : Seam text [c]
  star : c = '*' → ∀ last ∈ (glyphs text).1.getLast?, last.char ≠ '/'

namespace Attaches

variable {text : List Char} {c : Char} (attaches : Attaches text c)

include attaches

theorem reads_on (rest : List Char) :
    glyphs (text ++ c :: rest) =
      ((glyphs text).1 ++ ⟨c, (glyphs text).2 ++ [c]⟩ :: (glyphs rest).1, (glyphs rest).2) := by
  have plain := quiet_iff.1 attaches.quiet
  rw [@glyphs_append text (c :: rest) ⟨attaches.seam.line, attaches.seam.trigraph⟩,
    glyphs_behind (fun same => plain (by rw [same]; decide)) fun same => plain (by rw [same]; decide)]

theorem plain : c ∉ ['/', '\n', '.'] := by
  intro member
  refine quiet_iff.1 attaches.quiet ?_
  simp only [List.mem_cons, List.not_mem_nil, or_false] at member ⊢
  rcases member with rfl | rfl | rfl
  all_goals simp only [true_or, or_true]

/-- What is behind a text is part of a comment exactly if the text ends in an open one, unless a pragma
operator takes it. -/
theorem comment_iff (rest : List Char) {offset : Nat} (lower : Text.byteLength text ≤ offset)
    (upper : offset < Text.byteLength text + c.utf8Size) :
    (ofSource (String.ofList (text ++ c :: rest))).kindAt? offset = some .comment ↔
      endsInComment true (String.ofList text) = true ∧
        (ofSource (String.ofList (text ++ c :: rest))).kindAt? offset ≠ some .pragma := by
  have bytes : Text.byteLength ((glyphs text).1.flatMap raw) +
      Text.byteLength (glyphs text).2 = Text.byteLength text := by
    rw [← Text.byte_length_append, glyphs_raw]
  rw [kindAt?, of_source_scan, String.toList_ofList, attaches.reads_on, endsInComment, String.toList_ofList]
  refine comment_behind (reads_glyphs text) attaches.plain attaches.star _ _ ?_ ?_
  · omega
  · rw [Text.byte_length_append, Text.byte_length_cons, Text.byte_length_nil]
    omega

/-- A text ends in an open comment only if it does so without its last character. -/
theorem ends_in_comment (opens : endsInComment true (String.ofList (text ++ [c])) = true) :
    endsInComment true (String.ofList text) = true := by
  rw [endsInComment, String.toList_ofList] at opens ⊢
  rw [attaches.reads_on] at opens
  exact ends_open_snoc (reads_glyphs text) attaches.plain attaches.star opens

/-- Behind one quiet character there can be another. -/
theorem next {d : Char} (quiet : isQuiet d = true) : Attaches (text ++ [c]) d where
  quiet := quiet
  seam := by
    have plain := quiet_iff.1 quiet
    have plain' := quiet_iff.1 attaches.quiet
    refine ⟨?_, .inl ?_⟩
    · rintro _ ⟨⟩
      exact ⟨fun same => plain (by rw [same]; decide), fun same => plain (by rw [same]; decide)⟩
    · rw [List.getLast?_concat]
      exact fun same => plain' (by rw [Option.some.inj same]; decide)
  star := by
    intro _ last here
    rw [attaches.reads_on] at here
    have same : c = last.char := by
      rw [show (glyphs []).1 = [] from rfl, List.getLast?_concat] at here
      exact congrArg char (Option.some.inj here)
    rw [← same]
    exact fun slash => attaches.plain (by rw [slash]; decide)

end Attaches

/-- No quiet text behind a text is part of a comment that the text does not end in. The induction is on
the quiet text: each character of it leaves the text without an open comment at its end. -/
theorem quiet_behind {generated : List Char} (quiet : ∀ c ∈ generated, isQuiet c = true)
    (attaches : ∀ c ∈ generated.head?, Attaches text c) (closed : endsInComment true (String.ofList text) = false)
    (rest : List Char) {offset : Nat} (lower : Text.byteLength text ≤ offset)
    (upper : offset < Text.byteLength text + Text.byteLength generated) :
    (ofSource (String.ofList (text ++ (generated ++ rest)))).kindAt? offset ≠ some .comment := by
  induction generated generalizing text with
  | nil => exact absurd upper (Nat.not_lt_of_le lower)
  | cons c generated ih =>
    have first := attaches c rfl
    by_cases here : offset < Text.byteLength text + c.utf8Size
    · intro comment
      rw [List.cons_append, first.comment_iff _ lower here] at comment
      exact Bool.eq_false_iff.1 closed comment.1
    · have split : text ++ (c :: generated ++ rest) = (text ++ [c]) ++ (generated ++ rest) := by
        rw [List.append_assoc, List.singleton_append, List.cons_append]
      rw [split]
      refine ih (List.forall_mem_cons.1 quiet).2 (fun d head => ?_) ?_ ?_ ?_
      · exact first.next (quiet d (List.mem_cons_of_mem c (List.mem_of_mem_head? head)))
      · exact Bool.eq_false_iff.2 fun opens => Bool.eq_false_iff.1 closed (first.ends_in_comment opens)
      all_goals
        rw [Text.byte_length_append, Text.byte_length_cons, Text.byte_length_nil]
        rw [Text.byte_length_cons] at upper
        omega

/-- A text that comes behind a closed one ends in a comment exactly if it does so by itself. -/
theorem ends_in_comment_alone {copied : String} (ends : ∀ c ∈ front.toList.getLast?, ¬ IsLineEnd c ∧ c ≠ '?')
    (closed : isClosed (ofSource front).tokens.toList = true)
    (other : ∀ c ∈ (logicalChars copied.toList).head?, Lexeme.isSpace c = false) :
    endsInComment true (front ++ copied) = endsInComment (endsAtLineStart front) copied := by
  have whole : (glyphs front.toList).2 = [] := glyphs_whole fun c last => (ends c last).1
  have text : IsClosed front := ⟨whole, closed⟩
  have tokens := text.scan_append (.inl fun last => (ends '?' last).2 rfl) other []
  rw [endsInComment, tokens, endsInComment]
  rcases eq_or_ne (glyphs copied.toList).1 [] with none | some
  · rw [none, scan_glyphs_nil, scan_glyphs_nil, List.append_nil, closed_ends closed]
    rfl
  · rw [ends_open_append (mt scan_glyphs_empty.1 some)]
    exact ends_open_moved _ _ _ _

/-! ## Copies -/

/-- What becomes of the text `behind` that an edit has behind the text it copies, where `earlier` is
what the patched text has in front of the edit. -/
structure Joint (patched earlier : String) (e : Edit) (front copied behind : String) : Prop where
  written : e.text = front ++ copied ++ behind
  stands : ∃ later, patched = earlier ++ e.text ++ later
  /-- It starts inside a comment exactly if a comment is open behind the copy. -/
  swallowed :
    (ofSource patched).kindAt? (Text.byteLength (earlier ++ front ++ copied).toList) = some .comment ↔
    endsInComment true (earlier ++ front ++ copied) = true ∧
      (ofSource patched).kindAt? (Text.byteLength (earlier ++ front ++ copied).toList) ≠ some .pragma
  /-- Without one, no byte of it is part of a comment, as far as it is quiet. -/
  safe : endsInComment true (earlier ++ front ++ copied) = false → ∀ generated offset,
    generated <+: behind.toList → (∀ c ∈ generated, isQuiet c = true) →
      Text.byteLength (earlier ++ front ++ copied).toList ≤ offset →
        offset < Text.byteLength (earlier ++ front ++ copied).toList + Text.byteLength generated →
          (ofSource patched).kindAt? offset ≠ some .comment
  /-- Behind closed text a comment is open exactly if the copy by itself ends in one. -/
  alone : isClosed (ofSource (earlier ++ front)).tokens.toList = true →
    (∀ c ∈ (logicalChars copied.toList).head?, Lexeme.isSpace c = false) →
      endsInComment true (earlier ++ front ++ copied) =
        endsInComment (endsAtLineStart (earlier ++ front)) copied

/-- A quiet character that makes no comment and no trigraph with what is in front of it. -/
structure IsFirst (text : List Char) (c : Char) : Prop where
  quiet : isQuiet c = true
  star : c ≠ '*'
  trigraph : trigraph c = none ∨ ¬ ['?', '?'] <:+ text

theorem IsFirst.attaches (first : IsFirst text c) : Attaches text c where
  quiet := first.quiet
  seam := by
    have plain := quiet_iff.1 first.quiet
    refine ⟨?_, .inr ?_⟩
    · rintro _ ⟨⟩
      exact ⟨fun same => plain (by rw [same]; decide), fun same => plain (by rw [same]; decide)⟩
    · rintro _ ⟨⟩
      exact ⟨fun same => plain (by rw [same]; decide), first.trigraph⟩
  star same := absurd same first.star

theorem text_behind_copy {earlier front copied behind : String} {e : Edit}
    (written : e.text = front ++ copied ++ behind) (later : String) :
    earlier ++ e.text ++ later =
      String.ofList ((earlier ++ front ++ copied).toList ++ (behind.toList ++ later.toList)) := by
  apply String.toList_injective
  rw [written, String.toList_ofList]
  simp only [String.toList_append, List.append_assoc]

theorem joint {earlier later front copied behind : String} {e : Edit}
    (written : e.text = front ++ copied ++ behind) {c : Char} (starts : behind.toList.head? = some c)
    (first : IsFirst (earlier ++ front ++ copied).toList c)
    (last : front.toList.getLast? = some '(' ∨ front.toList.getLast? = some ' ') :
    Joint (earlier ++ e.text ++ later) earlier e front copied behind where
  written := written
  stands := ⟨later, rfl⟩
  swallowed := by
    have whole := @text_behind_copy earlier front copied behind e written later
    obtain ⟨rest, split⟩ := List.head?_eq_some_iff.1 starts
    rw [split, List.cons_append] at whole
    have size := c.utf8Size_pos
    have swallows := first.attaches.comment_iff (rest ++ later.toList) (Nat.le_refl _) (by omega)
    rwa [← whole, String.ofList_toList] at swallows
  safe := by
    rintro closed generated offset ⟨more, split⟩ quiet lower upper
    have whole := @text_behind_copy earlier front copied behind e written later
    rw [← split, List.append_assoc] at whole
    rw [whole]
    refine quiet_behind quiet (fun head here => ?_) ?_ _ lower upper
    · obtain ⟨tail, rfl⟩ := List.head?_eq_some_iff.1 here
      rw [← split, List.cons_append, List.head?_cons] at starts
      rw [Option.some.inj starts]
      exact first.attaches
    · rwa [String.ofList_toList]
  alone := by
    refine ends_in_comment_alone fun here found => ?_
    rw [String.toList_append] at found
    rcases last with last | last
    all_goals
      rw [Lexeme.last_append last] at found
      rw [← Option.some.inj found]
      exact ⟨fun line => line.elim (by decide) (by decide), by decide⟩

/-- What a new header has in front of the parameters. -/
def opening (h : Header) : String :=
  h.lead ++ "int " ++ h.name ++ "("

/-- What a new header has in front of the type of an added parameter. -/
def paramsFront (h : Header) : String :=
  if h.hasNoParams then opening h else opening h ++ h.params ++ ", "

theorem last_of_append (last : back.toList.getLast? = some c) : (front ++ back).toList.getLast? = some c := by
  rw [String.toList_append]
  exact Lexeme.last_append last

theorem first_of_append (first : front.toList.head? = some c) : (front ++ back).toList.head? = some c := by
  rw [String.toList_append, List.head?_append, first, Option.some_or]

/-- Behind a mark, text that does not end in two question marks has no trigraph at its end. -/
theorem no_trigraph {front text : List Char} (last : front.getLast? = some '(')
    (apart : ¬ ['?', '?'] <:+ text) : ¬ ['?', '?'] <:+ front ++ text := by
  intro marks
  have inside (x : List Char) : x ++ ['?'] ≠ front := by
    rintro rfl
    rw [List.getLast?_concat] at last
    cases last
  have short := (List.suffix_or_suffix_of_suffix marks (List.suffix_append front text)).resolve_left apart
  obtain ⟨x, split⟩ := marks
  rcases List.suffix_cons_iff.1 short with rfl | short
  · exact apart (List.suffix_refl _)
  rcases List.suffix_cons_iff.1 short with rfl | short
  · have cut : x ++ ['?'] ++ ['?'] = front ++ ['?'] := by
      rw [← split, List.append_assoc, List.singleton_append]
    exact inside x (List.append_cancel_right cut)
  · rw [List.suffix_nil.1 short, List.append_nil] at split
    exact inside (x ++ ['?']) (by rw [← split, List.append_assoc, List.singleton_append])

theorem identifier_first {name : String} (named : Settings.isIdentifier name = true) :
    ∃ c, name.toList.head? = some c ∧ isQuiet c = true ∧ c ≠ '*' ∧ trigraph c = none := by
  unfold Settings.isIdentifier at named
  split at named
  · cases named
  · rename_i first rest starts
    refine ⟨first, by rw [starts]; rfl, ?_⟩
    rcases (Bool.or_eq_true _ _).mp (Bool.and_eq_true_iff.1 named).1 with underscore | letter
    · obtain rfl := beq_iff_eq.1 underscore
      exact ⟨rfl, by decide, rfl⟩
    · have other {c : Char} (mark : c.isAlpha = false) : first ≠ c := by
        rintro rfl
        rw [mark] at letter
        cases letter
      refine ⟨quiet_iff.2 ?_, other rfl, ?_⟩
      · simp only [List.mem_cons, List.not_mem_nil, or_false, not_or]
        exact ⟨other rfl, other rfl, other rfl, other rfl, other rfl, other rfl⟩
      · unfold trigraph
        split
        all_goals first | rfl | exact absurd rfl (other rfl)

section Edited

variable {patched earlier : String} {e : Edit} (edited : ∃ later, patched = earlier ++ e.text ++ later)

include edited

/-- The joints of a new header. -/
theorem header_joints {ts : TokenSeq} {f : Function} {outParam : String} {shape : ReturnShape}
    (hit : ts.reshape f outParam = .ok (shape, some e)) :
    ∃ h, ts.header f.start f.body = .ok h ∧
      (shape = .voidToInt ∧
          (¬ ['?', '?'] <:+ h.params.toList → Joint patched earlier e (opening h) h.params ")") ∨
        ∃ name, shape = .outParam h.returnType name ∧
          (h.hasNoParams = false → Joint patched earlier e (opening h) h.params
            (", " ++ h.returnType ++ " *" ++ name ++ ")")) ∧
          Joint patched earlier e (paramsFront h) h.returnType (" *" ++ name ++ ")")) := by
  obtain ⟨later, rfl⟩ := edited
  have opens (h : Header) : (opening h).toList.getLast? = some '(' := last_of_append rfl
  obtain ⟨_, _, none⟩ | ⟨_, h, read, ⟨_, rfl, made⟩ | ⟨_, _, _, none⟩ | ⟨_, _, name, rfl, made⟩⟩ := reshape_cases hit
  · cases none
  · obtain rfl := Option.some.inj made
    refine ⟨h, read, .inl ⟨rfl, fun apart => joint rfl rfl ⟨rfl, by decide, .inr ?_⟩ (.inl (opens h))⟩⟩
    rw [String.toList_append]
    exact no_trigraph (last_of_append (opens h)) apart
  · cases none
  · obtain rfl := Option.some.inj made
    refine ⟨h, read, .inr ⟨name, rfl, fun given => ?_, ?_⟩⟩
    · have comma : (", " ++ h.returnType ++ " *" ++ name ++ ")").toList.head? = some ',' :=
        first_of_append (first_of_append (first_of_append (first_of_append rfl)))
      refine joint ?_ comma ⟨rfl, by decide, .inl rfl⟩ (.inl (opens h))
      rw [headerEdit, paramsWith, if_neg (Bool.eq_false_iff.1 given), opening]
      simp only [String.append_assoc]
    · have blank : (" *" ++ name ++ ")").toList.head? = some ' ' := first_of_append (first_of_append rfl)
      refine joint ?_ blank ⟨rfl, by decide, .inl rfl⟩ ?_
      all_goals
        unfold paramsFront
        split
      · rename_i none
        rw [headerEdit, paramsWith, if_pos none, opening]
        simp only [String.append_assoc]
      · rename_i some
        rw [headerEdit, paramsWith, if_neg some, opening]
        simp only [String.append_assoc]
      · exact .inl (opens h)
      · exact .inr (last_of_append rfl)

/-- The joints of a `return` that delivers a value. -/
theorem return_joints {t : BodyTask} {sites : List Site} {type out : String}
    (shape : t.shape = .outParam type out) (edit : e ∈ t.returns sites) :
    ∃ start semi, e.stop = semi + 1 ∧ t.ts.nextSignificant (e.start + 1) semi = some start ∧
      (e.text = t.failStatement ∨
        (∃ more, Joint patched earlier e ("\x7b *" ++ out ++ " = ") (t.ts.trimmedRange start semi)
          ("; " ++ more ++ " \x7d")) ∨
        ∃ opening close, t.HandsOn start opening close semi ∧ (Settings.isIdentifier out = true →
          ∃ comma, Joint patched earlier e "return " (t.ts.textRange start close)
            (comma ++ out ++ ");"))) := by
  obtain ⟨later, rfl⟩ := edited
  obtain ⟨start, semi, stop, next, delivery⟩ := BodyTask.return_edit_delivery shape edit
  refine ⟨start, semi, stop, next, ?_⟩
  have stores {more : String}
      (written : e.text = BodyTask.braced true
        ("*" ++ out ++ " = " ++ t.ts.trimmedRange start semi ++ "; " ++ more)) :
      Joint (earlier ++ e.text ++ later) earlier e ("\x7b *" ++ out ++ " = ") (t.ts.trimmedRange start semi)
        ("; " ++ more ++ " \x7d") := by
    refine joint ?_ (first_of_append (first_of_append rfl)) ⟨rfl, by decide, .inl rfl⟩
      (.inr (last_of_append rfl))
    rw [written, BodyTask.braced, if_pos rfl]
    simp only [String.append_assoc]
    rfl
  obtain ⟨made, text⟩ : ∃ made, e.text = made := ⟨_, rfl⟩
  rw [text] at delivery
  cases delivery with
  | failure null => exact .inl text
  | checked allocator =>
    refine .inr (.inl ⟨t.failIf (allocator.failure.condition ("*" ++ out)) ++ " return 0;", stores ?_⟩)
    rw [text, trimmedRange, ← String.append_assoc]
  | handedOn call =>
    refine .inr (.inr ⟨_, _, call, fun named => ?_⟩)
    unfold BodyTask.callWith at text
    dsimp only at text
    split at text
    · obtain ⟨c, starts, quiet, star, plain⟩ := identifier_first named
      refine ⟨"", joint ?_ (first_of_append ?_) ⟨quiet, star, .inl plain⟩ (.inr rfl)⟩
      · rw [text, String.empty_append]
        simp only [String.append_assoc]
        rfl
      · rwa [String.empty_append]
    · refine ⟨", ", joint ?_ (first_of_append (first_of_append rfl)) ⟨rfl, by decide, .inl rfl⟩ (.inr rfl)⟩
      rw [text]
      simp only [String.append_assoc]
      rfl
  | stored other => exact .inr (.inl ⟨"return 0;", stores text⟩)

end Edited

/-- What becomes of the text that is put behind a copy, for every source, every list of edits and every
edit of it that is taken. A new header has a joint behind the parameters and one behind the return type,
and a `return` that delivers a value has one behind the value, or behind the arguments if it hands its
parameter on. At each of them the new text starts inside a comment exactly if a comment is open behind
the copy, unless a pragma operator takes it. If none is, the new text stays clear of comments. Behind
closed text this is decided by the copy alone. -/
theorem copied_comments_swallow {source : String} {edits earlier later : List Edit} {e : Edit}
    (taken : Edit.select (ofSource source).size 0 (Edit.sorted edits) = earlier ++ e :: later) :
    let patched := ((ofSource source).edit edits).text
    let before := (ofSource source).spliceUpTo e.start 0 earlier
    (∀ f outParam shape, (ofSource source).reshape f outParam = .ok (shape, some e) →
      ∃ h, (ofSource source).header f.start f.body = .ok h ∧
        (shape = .voidToInt ∧
            (¬ ['?', '?'] <:+ h.params.toList → Joint patched before e (opening h) h.params ")") ∨
          ∃ name, shape = .outParam h.returnType name ∧
            (h.hasNoParams = false → Joint patched before e (opening h) h.params
              (", " ++ h.returnType ++ " *" ++ name ++ ")")) ∧
            Joint patched before e (paramsFront h) h.returnType (" *" ++ name ++ ")"))) ∧
    (∀ (t : BodyTask) sites type out, t.ts = ofSource source → t.shape = .outParam type out →
      e ∈ t.returns sites →
      ∃ start semi, e.stop = semi + 1 ∧ t.ts.nextSignificant (e.start + 1) semi = some start ∧
        (e.text = t.failStatement ∨
          (∃ more, Joint patched before e ("\x7b *" ++ out ++ " = ") (t.ts.trimmedRange start semi)
            ("; " ++ more ++ " \x7d")) ∨
          ∃ opening close, t.HandsOn start opening close semi ∧ (Settings.isIdentifier out = true →
            ∃ comma, Joint patched before e "return " (t.ts.textRange start close)
              (comma ++ out ++ ");")))) := by
  intro patched before
  have edited : ∃ behind, patched = before ++ e.text ++ behind := by
    refine ⟨(ofSource source).splice e.stop later, ?_⟩
    show (ofSource source).splice 0 (Edit.select _ 0 (Edit.sorted edits)) = _
    rw [taken, splice_at]
  exact ⟨fun f outParam shape hit => header_joints edited hit,
    fun t sites type out _ shape edit => return_joints edited shape edit⟩

/-- A line comment behind the parameters. -/
theorem copied_comments_swallow_parameters :
    let ts := ofSource "char *f(int n // count\n) \x7b return malloc(n); \x7d\n"
    let f : Function := ⟨"f", 0, 13, 24, false, true, "char *", false⟩
    let e : Edit := ⟨0, 12, "int f(int n // count, char * *out)"⟩
    let patched := (ts.edit [e]).text
    Edit.select ts.size 0 (Edit.sorted [e]) = [] ++ e :: [] ∧
      ts.reshape f "out" = .ok (.outParam "char *" "out", some e) ∧
      isClosed (ofSource "int f(").tokens.toList = true ∧
      ∃ h, ts.header f.start f.body = .ok h ∧
        (h.hasNoParams = false → Joint patched "" e (opening h) h.params ", char * *out)") ∧
        Joint patched "" e (paramsFront h) "char *" " *out)" := by
  intro ts f e patched
  obtain ⟨taken, hit, closed, front⟩ : Edit.select ts.size 0 (Edit.sorted [e]) = [] ++ e :: [] ∧
      (ts.reshape f "out").toOption = some (.outParam "char *" "out", some e) ∧
      isClosed (ofSource "int f(").tokens.toList = true ∧ ts.spliceUpTo e.start 0 [] = "" := by
    decide +kernel
  have reshaped := to_option_some.1 hit
  refine ⟨taken, reshaped, closed, ?_⟩
  obtain ⟨h, read, ⟨same, _⟩ | ⟨name, same, params, type⟩⟩ := (copied_comments_swallow taken).1 f "out" _ reshaped
  · cases same
  · rw [front] at params type
    obtain ⟨returns, rfl⟩ := ReturnShape.outParam.inj same
    rw [← returns] at params type
    exact ⟨h, read, params, type⟩

/-- The comment behind the parameters takes the rest of the new header with it. -/
theorem parameter_comment_swallows :
    let ts := ofSource "char *f(int n // count\n) \x7b return malloc(n); \x7d\n"
    let f : FunctionNode := ⟨⟨"f", 0, 13, 24, false, true, "char *", false⟩, true, []⟩
    let e : Edit := ⟨0, 12, "int f(int n // count, char * *out)"⟩
    (ts.analyse {}).graph.nodes = [f] ∧ (ts.analyse {}).marks = [true] ∧
      (ts.reshape f.toFunction "out").toOption = some (.outParam "char *" "out", some e) ∧
      ∀ offset ∈ List.range' 20 14, (ofSource (ts.edit [e]).text).kindAt? offset = some .comment := by
  decide +kernel

end TokenSeq

end AllocGuard
