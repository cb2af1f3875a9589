import AllocGuard.Proofs.DeclaratorReading

/-! Nothing is read that is not there. Whatever the tokens are, a declaration that is read
with a name consists of a base and of a declarator around that name, and the layers of the
type are those of the declarator, one by one. The reader works from the name outwards, so
the argument does: what has been read is a declarator at every step, and when the reader
stops no token is left. -/
namespace AllocGuard

namespace TokenSeq

/-- What belongs to the first declarator comes first. -/
theorem first_declarator_front (ts : TokenSeq) (depth : Int) (tokens : List Nat) :
    ∃ tail, tokens = ts.firstDeclarator depth tokens ++ tail := by
  fun_induction firstDeclarator ts depth tokens with
  | case1 depth => exact ⟨[], rfl⟩
  | case2 depth i rest opens ih =>
    obtain ⟨tail, split⟩ := ih
    exact ⟨tail, congrArg (i :: ·) split⟩
  | case3 depth i rest notOpener closes ih =>
    obtain ⟨tail, split⟩ := ih
    exact ⟨tail, congrArg (i :: ·) split⟩
  | case4 depth i rest notOpener notCloser ends => exact ⟨i :: rest, rfl⟩
  | case5 depth i rest notOpener notCloser goesOn ih =>
    obtain ⟨tail, split⟩ := ih
    exact ⟨tail, congrArg (i :: ·) split⟩

/-- The declarators around the name at `name`, with their tokens and the layers that they
give to it, from the name outwards. The flag tells whether a suffix may follow without a
group around. A star takes the qualifiers behind it, and a word that takes a group may
stand with it behind a declarator and adds nothing. The content of a group is of any kind,
up to the bracket of the same pair that closes it. -/
inductive Derives (ts : TokenSeq) (name : Nat) : Bool → List Nat → List Layer → Prop where
  | name (identifier : ts.kind? name = some .identifier) : Derives ts name true [name] []
  | group {opening close : Nat} {direct : Bool} {tokens : List Nat} {layers : List Layer}
      (opens : ts.kind? opening = some .openParen) (closes : ts.kind? close = some .closeParen)
      (inner : Derives ts name direct tokens layers) :
      Derives ts name true (opening :: (tokens ++ [close])) layers
  | suffix {form : Suffix} {opening close : Nat} {tokens content : List Nat} {layers : List Layer}
      (target : Derives ts name true tokens layers)
      (opens : ts.kind? opening = some form.bracket.opener)
      (level : ts.isLevel form.bracket 0 content = true)
      (closes : ts.kind? close = some form.bracket.closer) :
      Derives ts name true (tokens ++ opening :: (content ++ [close]))
        (layers ++ [form.layer (Text.trim (ts.textRange (opening + 1) close))])
  | attribute {word opening close : Nat} {tokens content : List Nat} {layers : List Layer}
      (target : Derives ts name true tokens layers) (identifier : ts.kind? word = some .identifier)
      (takesGroup : Word.isTypeof (ts.spelling word) = true ∨
        Word.isAttribute (ts.spelling word) = true)
      (opens : ts.kind? opening = some .openParen) (level : ts.isLevel .paren 0 content = true)
      (closes : ts.kind? close = some .closeParen) :
      Derives ts name true (tokens ++ word :: opening :: (content ++ [close])) layers
  | pointer {star : Nat} {direct : Bool} {qualifiers tokens : List Nat} {layers : List Layer}
      (stars : ts.kind? star = some .star)
      (qualifies : ∀ q ∈ qualifiers, ts.kindIs q TokenKind.isQualifier = true)
      (target : Derives ts name direct tokens layers) :
      Derives ts name false (star :: (qualifiers ++ tokens))
        (layers ++ [.pointer (ts.written qualifiers)])

end TokenSeq

namespace DeclarationView
open TokenSeq

variable {v : DeclarationView} {start name p i floor q stop left right : Nat} {b : Bracket} {kind : TokenKind}
  {layers : List Layer}

/-! ## Ranges of a view -/

/-- The tokens at the positions `[start, stop)` of the view. -/
def slice (v : DeclarationView) (start stop : Nat) : List Nat :=
  (v.sig.extract start stop).toList

theorem slice_append (v : DeclarationView) {middle : Nat} (below : start ≤ middle) (above : middle ≤ stop) :
    v.slice start middle ++ v.slice middle stop = v.slice start stop := by
  rw [slice, slice, slice, ← Array.toList_append, Array.extract_append_extract,
    Nat.min_eq_left below, Nat.max_eq_right above]

theorem slice_whole (v : DeclarationView) : v.slice 0 v.size = v.sig.toList := by
  rw [slice, size, Array.extract_size]

theorem slice_empty (v : DeclarationView) (p : Nat) : v.slice p p = [] := by
  rw [slice, Array.extract_empty_of_stop_le_start (Nat.le_refl p)]

theorem slice_length (inside : stop ≤ v.size) : (v.slice start stop).length = stop - start := by
  rw [size] at inside
  rw [slice, Array.length_toList, Array.size_extract, Nat.min_eq_left inside]

theorem slice_single (there : v.sig[p]? = some i) : v.slice p (p + 1) = [i] := by
  obtain ⟨inside, rfl⟩ := Array.getElem?_eq_some_iff.1 there
  rw [slice, Array.extract_succ_right (Nat.lt_succ_self p) inside, Array.toList_push, ← slice,
    slice_empty, List.nil_append]

theorem slice_cons (there : v.sig[p]? = some i) (below : p < stop) : v.slice p stop = i :: v.slice (p + 1) stop := by
  rw [← v.slice_append (Nat.le_succ p) below, slice_single there, List.singleton_append]

/-- The view in front of a range, the range, and the view behind it. -/
theorem slice_split (ordered : start ≤ stop) (inside : stop ≤ v.size) :
    v.sig.toList = v.slice 0 start ++ v.slice start stop ++ v.slice stop v.size ∧
      (v.slice 0 start).length = start := by
  refine ⟨?_, ?_⟩
  · rw [v.slice_append (Nat.zero_le _) ordered, v.slice_append (Nat.zero_le _) inside, slice_whole]
  · rw [slice_length (by omega), Nat.sub_zero]

/-- A position of some kind has a token of that kind. -/
theorem token_of_kind (seen : v.kind? p = some kind) : ∃ i, v.sig[p]? = some i ∧ v.ts.kind? i = some kind := by
  rw [kind?, Option.bind_eq_some_iff] at seen
  exact seen

theorem span_text_slice (ordered : start ≤ stop) (inside : stop ≤ v.size) :
    v.spanText start stop = v.ts.written (v.slice start stop) := by
  obtain ⟨split, front⟩ := slice_split ordered inside
  have text := span_text_eq split
  rwa [front, slice_length inside, Nat.add_sub_cancel' ordered] at text

/-- What carries meaning behind a token of the view is the rest of the view, and more. -/
theorem significant_behind (shows : v.Shows) (there : v.sig[p]? = some i) :
    ∃ tail, v.ts.significant (i + 1) v.limit = v.slice (p + 1) v.size ++ tail := by
  have inside : p < v.size := (Array.getElem?_eq_some_iff.1 there).1
  obtain ⟨start, tail, all⟩ := shows
  have split : v.ts.significant start v.limit =
      v.slice 0 p ++ i :: (v.slice (p + 1) v.size ++ tail) := by
    rw [all, ← v.slice_whole, ← v.slice_append (Nat.zero_le p) (Nat.le_of_lt inside), slice_cons there inside]
    simp
  exact ⟨tail, significant_after split⟩

/-- A group of the view: its brackets are partners, what stands between them is level for
their pair, and its text is what is written there. -/
structure Group (v : DeclarationView) (b : Bracket) (p q opening close : Nat) : Prop where
  tokens : v.slice p (q + 1) = opening :: (v.slice (p + 1) q ++ [close])
  opens : v.ts.kind? opening = some b.opener
  level : v.ts.isLevel b 0 (v.slice (p + 1) q) = true
  closes : v.ts.kind? close = some b.closer
  closing : v.kind? q = some b.closer
  text : v.innerText p q = Text.trim (v.ts.textRange (opening + 1) close)

/-- The search for a closing bracket ends at the partner of the opening one. -/
theorem close_of_found (hit : v.closeOf p = .ok q) :
    ∃ opening close, v.sig[p]? = some opening ∧ v.sig[q]? = some close ∧
      v.ts.matchingClose opening v.limit = some close := by
  rw [closeOf] at hit
  split at hit
  · cases hit
  · rename_i close matched
    obtain ⟨opening, there, partner⟩ := Option.bind_eq_some_iff.1 matched
    split at hit
    · cases hit
    · rename_i found
      cases hit
      exact ⟨opening, close, there, beq_iff_eq.1 (Position.first_in_bounds found).2.2, partner⟩

/-- What stands between partners is level for their pair. -/
theorem level_between (shows : v.Shows) {opening close : Nat} (opens : v.ts.kind? opening = some b.opener)
    (there : v.sig[p]? = some opening) (there' : v.sig[q]? = some close) (ordered : p < q)
    (partner : v.ts.matchingClose opening v.limit = some close) :
    v.ts.isLevel b 0 (v.slice (p + 1) q) = true ∧ v.ts.kind? close = some b.closer := by
  have inside : q < v.size := (Array.getElem?_eq_some_iff.1 there').1
  obtain ⟨tail, rest⟩ := significant_behind shows there
  have behind : v.ts.significant (opening + 1) v.limit =
      v.slice (p + 1) q ++ close :: (v.slice (q + 1) v.size ++ tail) := by
    rw [rest, ← v.slice_append ordered (Nat.le_of_lt inside), slice_cons there' inside]
    simp
  have distinct := v.ts.significant_nodup (opening + 1) v.limit
  rw [matching_close_eq opens, behind] at partner
  rw [behind] at distinct
  obtain ⟨content, more, split, level, closes⟩ := close_in_found partner
  have same : v.slice (p + 1) q = content := by
    refine (List.append_inj split ?_).1
    -- the tokens are distinct, so the partner stands at one place only
    have one : (content ++ close :: more)[(v.slice (p + 1) q).length]? = some close := by
      rw [← split]
      simp
    have two : (content ++ close :: more)[content.length]? = some close := by simp
    rw [split] at distinct
    exact (List.getElem?_inj (List.getElem?_eq_some_iff.1 one).1 distinct).1 (one.trans two.symm)
  rw [same]
  exact ⟨level, closes⟩

theorem close_of_content (shows : v.Shows) (opens : v.kind? p = some b.opener) (hit : v.closeOf p = .ok q) :
    ∃ opening close, v.Group b p q opening close := by
  have bounds := close_of_bounds hit
  obtain ⟨opening, close, there, there', partner⟩ := close_of_found hit
  have opens' : v.ts.kind? opening = some b.opener := by
    rw [kind?, there] at opens
    exact opens
  obtain ⟨level, closes⟩ := level_between shows opens' there there' bounds.1 partner
  refine ⟨opening, close, ?_, opens', level, closes, by rw [kind?, there']; exact closes, ?_⟩
  · rw [slice_cons there (by omega), ← v.slice_append (show p + 1 ≤ q by omega) (Nat.le_succ q), slice_single there']
  · simp [innerText, there, there']

/-- A word that takes a group is a word of that kind, and a group follows it. -/
theorem call_shaped_group (shows : v.Shows) (identifier : v.kind? p = some .identifier)
    (shaped : v.isCallShaped p = true) (hit : v.closeOf (p + 1) = .ok q) :
    ∃ word opening close, v.sig[p]? = some word ∧ v.ts.kind? word = some .identifier ∧
      (Word.isTypeof (v.ts.spelling word) = true ∨ Word.isAttribute (v.ts.spelling word) = true) ∧
      v.Group .paren (p + 1) q opening close := by
  obtain ⟨word, there, seen⟩ := token_of_kind identifier
  obtain ⟨next, _, there', _, _⟩ := close_of_found hit
  rw [isCallShaped, there, Option.any_some, TokenSeq.isCallShaped, seen] at shaped
  simp only [Bool.and_eq_true, Bool.or_eq_true, Option.any_eq_true] at shaped
  obtain ⟨takesGroup, after, follows, opens⟩ := shaped
  -- the next token that carries meaning is the next one of the view
  have same : after = next := by
    have inside : p + 1 < v.size := (Array.getElem?_eq_some_iff.1 there').1
    obtain ⟨tail, rest⟩ := significant_behind shows there
    rw [slice_cons there' inside] at rest
    exact next_significant_head follows rest
  rw [same] at opens
  have opener : v.kind? (p + 1) = some Bracket.paren.opener := by
    rw [kind?, there']
    exact has_kind_iff.1 opens
  obtain ⟨opening, close, group⟩ := close_of_content shows opener hit
  exact ⟨word, opening, close, there, seen, takesGroup, group⟩

/-! ## Suffixes and pointers -/

/-- Suffixes behind a declarator, and words with a group between them, make a longer
declarator with the layers of the suffixes. -/
theorem suffixes_from_derives (shows : v.Shows) {suffixes : List Layer} (ordered : left ≤ right)
    (inside : right ≤ v.size) (target : v.ts.Derives name true (v.slice left right) layers)
    (hit : v.suffixesFrom right = .ok (suffixes, stop)) :
    right ≤ stop ∧ stop ≤ v.size ∧
      v.ts.Derives name true (v.slice left stop) (layers ++ suffixes) := by
  fun_induction suffixesFrom v right generalizing layers suffixes with
  | case1 right missing =>
    cases hit
    rw [List.append_nil]
    exact ⟨Nat.le_refl _, inside, target⟩
  | case2 right kind seen opener reason closes => cases hit
  | case3 right kind seen opener close closes text =>
    rename_i ih
    have bounds := close_of_bounds closes
    have form : ∃ form : Suffix, kind = form.bracket.opener ∧
        ∀ text, (if kind == .openBracket then Layer.array text else .function text) = form.layer text := by
      rcases Bool.or_eq_true_iff.1 opener with square | paren
      · exact ⟨.array, beq_iff_eq.1 square, fun _ => by rw [if_pos square]; rfl⟩
      · rw [beq_iff_eq] at paren
        exact ⟨.function, paren, fun _ => by rw [paren]; rfl⟩
    obtain ⟨form, rfl, layer⟩ := form
    obtain ⟨opening, last, group⟩ := close_of_content shows seen closes
    have longer := TokenSeq.Derives.suffix target group.opens group.level group.closes
    rw [← group.tokens, v.slice_append ordered (by omega), ← group.text] at longer
    cases rest : v.suffixesFrom (close + 1) with
    | error reason =>
      rw [rest] at hit
      cases hit
    | ok result =>
      obtain ⟨more, stop'⟩ := result
      rw [rest] at hit
      cases hit
      obtain ⟨above, within, derives⟩ := ih (by omega) bounds.2 longer rest
      rw [layer, ← List.singleton_append, ← List.append_assoc]
      exact ⟨by omega, within, derives⟩
  | case4 right kind seen other shaped reason closes => cases hit
  | case5 right kind seen other shaped close closes ih =>
    have bounds := close_of_bounds closes
    obtain ⟨identifier, shape⟩ := Bool.and_eq_true_iff.1 shaped
    obtain rfl := beq_iff_eq.1 identifier
    obtain ⟨word, opening, last, there, isWord, takesGroup, group⟩ := call_shaped_group shows seen shape closes
    have longer := target.attribute isWord takesGroup group.opens group.level group.closes
    rw [← group.tokens, ← slice_cons there (by omega), v.slice_append ordered (by omega)] at longer
    obtain ⟨above, within, derives⟩ := ih (by omega) bounds.2 longer hit
    exact ⟨by omega, within, derives⟩
  | case6 right kind seen other plain =>
    cases hit
    rw [List.append_nil]
    exact ⟨Nat.le_refl _, inside, target⟩

/-- Whether a qualifier stands at the position. -/
def IsQualifierAt (v : DeclarationView) (p : Nat) : Prop :=
  ∃ kind, v.kind? p = some kind ∧ kind.isQualifier = true

theorem slice_qualifiers (qualifies : ∀ p, start ≤ p → p < stop → v.IsQualifierAt p) :
    ∀ q ∈ v.slice start stop, v.ts.kindIs q TokenKind.isQualifier = true := by
  intro q member
  rw [slice, Array.mem_toList_iff, Array.mem_extract_iff_getElem] at member
  obtain ⟨k, inside, rfl⟩ := member
  obtain ⟨kind, seen, qualifier⟩ := qualifies (start + k) (by omega) (by omega)
  obtain ⟨i, there, isKind⟩ := token_of_kind seen
  obtain ⟨_, rfl⟩ := Array.getElem?_eq_some_iff.1 there
  exact kind_is_iff.2 ⟨kind, isKind, qualifier⟩

/-- Stars in front of a declarator make a longer one. Each of them takes the qualifiers
behind it. Qualifiers in front of which no star stands are left over, from where the search
stops up to `middle`. -/
theorem pointers_before_derives (start : Nat) {qualifiersStop : Nat} {direct : Bool} (above : left ≤ qualifiersStop)
    (below : qualifiersStop ≤ right) (inside : right ≤ v.size)
    (qualifies : ∀ p, left ≤ p → p < qualifiersStop → v.IsQualifierAt p)
    (target : v.ts.Derives name direct (v.slice qualifiersStop right) layers) :
    ∃ direct' middle, (v.pointersBefore start qualifiersStop left).2 ≤ middle ∧ middle ≤ right ∧
      (∀ p, (v.pointersBefore start qualifiersStop left).2 ≤ p → p < middle → v.IsQualifierAt p) ∧
      v.ts.Derives name direct' (v.slice middle right)
        (layers ++ (v.pointersBefore start qualifiersStop left).1) := by
  have stays : ∃ direct' middle, left ≤ middle ∧ middle ≤ right ∧
      (∀ p, left ≤ p → p < middle → v.IsQualifierAt p) ∧
      v.ts.Derives name direct' (v.slice middle right) (layers ++ []) :=
    ⟨direct, qualifiersStop, above, below, qualifies, by rwa [List.append_nil]⟩
  fun_induction pointersBefore v start qualifiersStop left generalizing direct layers with
  | case1 qualifiersStop => exact stays
  | case2 qualifiersStop left low => exact stays
  | case3 qualifiersStop left high seen more stop found ih =>
    obtain ⟨star, there, stars⟩ := token_of_kind seen
    have behind : ∀ q ∈ v.slice (left + 1) qualifiersStop,
        v.ts.kindIs q TokenKind.isQualifier = true := slice_qualifiers qualifies
    have longer := target.pointer stars behind
    rw [v.slice_append above below, ← slice_cons there (by omega), ← span_text_slice above (by omega)] at longer
    have result := ih (Nat.le_refl left) (by omega) (by omega) longer
      ⟨false, left, Nat.le_refl left, by omega, by omega, by rwa [List.append_nil]⟩
    rw [found, List.append_assoc] at result
    exact result
  | case4 qualifiersStop left high kind other seen qualifier ih =>
    refine ih (by omega) below ?_ target
      ⟨direct, qualifiersStop, by omega, below, ?_, by rwa [List.append_nil]⟩
    all_goals
      intro p lower upper
      by_cases here : p = left
      · exact ⟨kind, here ▸ seen, qualifier⟩
      · exact qualifies p (by omega) upper
  | case5 qualifiersStop left high kind other seen plain => exact stays
  | case6 qualifiersStop left high missing => exact stays

/-! ## The place of the name -/

/-- What the search for the name goes past one by one: stars, qualifiers, and parentheses
that group a declarator. -/
def Passed (v : DeclarationView) (p : Nat) : Prop :=
  v.kind? p = some .star ∨ v.IsQualifierAt p ∨
    v.kind? p = some .openParen ∧ v.isGrouping p = true

/-- In front of the name, everything was passed one by one, from the start on or from
behind the last group that was passed as a whole. -/
theorem pivot_from_path (shows : v.Shows) {pivot : Nat} (hit : v.pivotFrom p = .ok (pivot, true)) :
    v.kind? pivot = some .identifier ∧ ∃ floor, p ≤ floor ∧ floor ≤ pivot ∧
      (floor = p ∨ v.kind? (floor - 1) = some .closeParen) ∧
      ∀ q, floor ≤ q → q < pivot → v.Passed q := by
  fun_induction pivotFrom v p with
  | case1 p missing => cases hit
  | case2 p kind seen identifier shaped reason closes => cases hit
  | case3 p kind seen identifier shaped close closes ih =>
    have bounds := close_of_bounds closes
    obtain rfl := beq_iff_eq.1 identifier
    obtain ⟨_, _, _, _, _, _, group⟩ := call_shaped_group shows seen shaped closes
    obtain ⟨named, floor, lower, upper, edge, path⟩ := ih hit
    refine ⟨named, floor, by omega, upper, .inr ?_, path⟩
    rcases edge with rfl | closed
    · exact group.closing
    · exact closed
  | case4 p kind seen identifier plain =>
    cases hit
    obtain rfl := beq_iff_eq.1 identifier
    exact ⟨seen, pivot, Nat.le_refl _, Nat.le_refl _, .inl rfl, by omega⟩
  | case5 p kind seen other passes ih =>
    obtain ⟨named, floor, lower, upper, edge, path⟩ := ih hit
    have passed : v.Passed p := by
      simp only [Bool.or_eq_true, Bool.and_eq_true, beq_iff_eq] at passes
      rcases passes with (rfl | qualifier) | ⟨rfl, groups⟩
      · exact .inl seen
      · exact .inr (.inl ⟨kind, seen, qualifier⟩)
      · exact .inr (.inr ⟨seen, groups⟩)
    rcases edge with start | closed
    · refine ⟨named, p, Nat.le_refl p, by omega, .inl rfl, ?_⟩
      intro q above below
      by_cases here : q = p
      · exact here ▸ passed
      · exact path q (by omega) below
    · exact ⟨named, floor, by omega, upper, .inr closed, path⟩
  | case6 p kind seen other stops => cases hit

/-- A token that closes no parenthesis does not stand in front of where the path starts. -/
theorem floor_le_position (edge : floor = start ∨ v.kind? (floor - 1) = some .closeParen) (above : floor ≤ p + 1)
    (high : start ≤ p) (seen : v.kind? p = some kind) (other : kind ≠ .closeParen) : floor ≤ p := by
  rcases edge with rfl | closed
  · exact high
  · by_cases here : floor - 1 = p
    · rw [here, seen] at closed
      exact absurd (Option.some.inj closed) other
    · omega

/-- The search for stars does not cross a closing parenthesis. -/
theorem pointers_before_floor (qualifiersStop : Nat) (above : floor ≤ left)
    (edge : floor = start ∨ v.kind? (floor - 1) = some .closeParen) :
    floor ≤ (v.pointersBefore start qualifiersStop left).2 := by
  fun_induction pointersBefore v start qualifiersStop left with
  | case1 => exact above
  | case2 => exact above
  | case3 qualifiersStop left high seen more stop found ih =>
    have result := ih (floor_le_position edge above (Nat.not_lt.1 high) seen TokenKind.noConfusion)
    rwa [found] at result
  | case4 qualifiersStop left high kind other seen qualifier ih =>
    refine ih (floor_le_position edge above (Nat.not_lt.1 high) seen ?_)
    rintro rfl
    cases qualifier
  | case5 => exact above
  | case6 => exact above

/-! ## From the inside out -/

/-- A parenthesis on the path to the name groups a declarator. -/
theorem passed_grouping (passed : v.Passed p) (opens : v.kind? p = some .openParen) : v.isGrouping p = true := by
  rcases passed with star | ⟨kind, seen, qualifier⟩ | ⟨_, groups⟩
  · rw [opens] at star
    cases star
  · rw [opens] at seen
    cases seen
    cases qualifier
  · exact groups

/-- No qualifier follows a parenthesis that groups a declarator. -/
theorem grouping_not_qualifier (groups : v.isGrouping p = true) (qualifies : v.IsQualifierAt (p + 1)) : False := by
  obtain ⟨kind, seen, qualifier⟩ := qualifies
  rw [isGrouping, seen] at groups
  cases kind <;> simp_all [TokenKind.isQualifier]

/-- When the reader stops without a fault, the tokens around the declarator that it had
read make a declarator of all tokens from `start` on. -/
theorem layers_around_derives (shows : v.Shows) {more : List Layer} (lower : start ≤ floor) (above : floor ≤ left)
    (ordered : left ≤ right) (inside : right ≤ v.size) (edge : floor = start ∨ v.kind? (floor - 1) = some .closeParen)
    (path : ∀ q, floor ≤ q → q < left → v.Passed q) (first : ¬ v.IsQualifierAt start)
    (target : v.ts.Derives name true (v.slice left right) layers) (hit : v.layersAround start left right = .ok more) :
    ∃ direct, v.ts.Derives name direct (v.slice start v.size) (layers ++ more) := by
  induction left using Nat.strongRecOn generalizing right layers more with
  | ind left ih =>
    obtain ⟨suffixes, stop, pointers, left', read, before, rest⟩ := layers_around_cases hit
    obtain ⟨beyond, within, direct⟩ := suffixes_from_derives shows ordered inside target read
    obtain ⟨direct', middle, reached, _, leftOver, derives⟩ := pointers_before_derives start
      (Nat.le_refl left) (Nat.le_trans ordered beyond) within (by omega) direct
    have aboveFloor := pointers_before_floor left above edge
    have below := v.pointers_before_le start left left
    rw [before] at reached leftOver derives aboveFloor below
    dsimp only at reached leftOver derives aboveFloor below
    rcases rest with ⟨rfl, rfl, rfl⟩ | ⟨opening, rest, rfl, behind, opens, closes, outer, rfl⟩
    · -- a qualifier that no star takes would be the first token of the declarator
      have none : left' = middle := by
        by_cases gap : left' < middle
        · exact absurd (leftOver left' (Nat.le_refl _) gap) first
        · omega
      rw [none, ← List.append_assoc]
      exact ⟨direct', derives⟩
    · have floorBelow : floor ≤ opening :=
        floor_le_position edge aboveFloor behind opens TokenKind.noConfusion
      have groups := passed_grouping (path opening floorBelow (by omega)) opens
      -- a qualifier that no star takes would follow the parenthesis of a group
      have none : opening + 1 = middle := by
        by_cases gap : opening + 1 < middle
        · exact (grouping_not_qualifier groups (leftOver _ (Nat.le_refl _) gap)).elim
        · omega
      obtain ⟨token, there, isOpener⟩ := token_of_kind opens
      obtain ⟨token', there', isCloser⟩ := token_of_kind closes
      have last : stop < v.size := lt_size_of_kind closes
      have longer := derives.group isOpener isCloser
      rw [← none, ← slice_single there', v.slice_append (by omega) (Nat.le_succ stop),
        ← slice_cons there (by omega)] at longer
      have result := ih opening (by omega) floorBelow (by omega) last
        (fun q above below => path q above (by omega)) longer outer
      rwa [← List.append_assoc, ← List.append_assoc]

/-! ## The base -/

/-- Specifiers end in front of a token that is no word, and what they remember as their
last plain word is a word. -/
theorem specifiers_from_ends {typed : Bool} {word word' : Option (Nat × Bool)}
    (plain : ∀ w ∈ word, v.kind? w.1 = some .identifier) (hit : v.specifiersFrom typed word p = .ok (stop, word')) :
    (∀ kind, v.kind? stop = some kind → kind.isKeyword = false) ∧
      ∀ w ∈ word', v.kind? w.1 = some .identifier := by
  fun_induction specifiersFrom v typed word p with
  | case1 typed word p missing =>
    cases hit
    refine ⟨fun kind seen => ?_, plain⟩
    rw [missing] at seen
    cases seen
  | case2 typed word p kind seen aggregate body reason closes => cases hit
  | case3 typed word p kind seen aggregate body close closes ih => exact ih (by simp) hit
  | case4 typed word p kind seen aggregate noBody ih => exact ih (by simp) hit
  | case5 typed word p kind seen other shaped reason closes => cases hit
  | case6 typed word p kind seen other shaped close closes namesType =>
    rename_i ih
    exact ih (by simp) hit
  | case7 typed word p kind seen other unshaped identifier ih =>
    refine ih ?_ hit
    obtain rfl := beq_iff_eq.1 identifier
    simpa using seen
  | case8 typed word p kind seen other unshaped notIdentifier complex ih => exact ih plain hit
  | case9 typed word p kind seen other unshaped notIdentifier notComplex keyword ih => exact ih plain hit
  | case10 typed word p kind seen other unshaped notIdentifier notComplex notKeyword =>
    cases hit
    refine ⟨fun kind' seen' => ?_, plain⟩
    rw [seen] at seen'
    cases seen'
    exact Bool.eq_false_iff.2 notKeyword

/-- The base ends where the specifiers do, or in front of their last word. -/
theorem base_stop_cases (hit : v.baseStop = .ok start) :
    ∃ stop word, v.specifiersFrom false none 0 = .ok (stop, word) ∧
      (stop = start ∨ stop = start + 1 ∧ v.kind? start = some .identifier) := by
  rw [baseStop] at hit
  cases run : v.specifiersFrom false none 0 with
  | error reason =>
    rw [run] at hit
    cases hit
  | ok result =>
    obtain ⟨stop, word⟩ := result
    rw [run] at hit
    refine ⟨stop, word, rfl, ?_⟩
    rcases word with _ | ⟨w, _ | _⟩
    · exact .inl (Except.ok.inj hit)
    · exact .inl (Except.ok.inj hit)
    · have choice : (if !Word.isBuiltinType (v.spelling w) && w + 1 == stop then w else stop) = start :=
        Except.ok.inj hit
      split at choice
      · rename_i last
        obtain ⟨_, plain⟩ := specifiers_from_ends (by simp) run
        subst choice
        exact .inr ⟨(eq_of_beq (Bool.and_eq_true_iff.1 last).2).symm, plain (w, true) rfl⟩
      · exact .inl choice

/-- A declarator starts with no qualifier: the base would have taken it. -/
theorem base_stop_first (hit : v.baseStop = .ok start) : ¬ v.IsQualifierAt start := by
  rintro ⟨kind, seen, qualifier⟩
  have keyword : kind.isKeyword = true := by simp [TokenKind.isKeyword, qualifier]
  obtain ⟨stop, word, run, rfl | ⟨_, identifier⟩⟩ := base_stop_cases hit
  · rw [(specifiers_from_ends (by simp) run).1 kind seen] at keyword
    cases keyword
  · rw [identifier] at seen
    cases seen
    cases qualifier

/-- A declaration that is read with a name is a base and a declarator around that name. -/
theorem read_derives (shows : v.Shows) {d : Declaration} {word : String} {token : Nat} (hit : v.read = .ok d)
    (named : d.name = some (word, token)) :
    ∃ base declarator direct, v.sig.toList = base ++ declarator ∧ base ≠ [] ∧
      d.type.specifiers = v.ts.written base ∧ word = v.ts.spelling token ∧
      v.ts.Derives token direct declarator d.type.layers := by
  rw [read] at hit
  cases base : v.baseStop with
  | error reason =>
    rw [base] at hit
    cases hit
  | ok start =>
    rw [base] at hit
    change (if _ then _ else _) = _ at hit
    split at hit
    · cases hit
    · rename_i nonempty
      cases place : v.pivotFrom start with
      | error reason =>
        rw [place] at hit
        cases hit
      | ok result =>
        obtain ⟨pivot, isNamed⟩ := result
        rw [place] at hit
        change (v.layersAround _ _ _ >>= _) = _ at hit
        cases around : v.layersAround start pivot (if isNamed then pivot + 1 else pivot) with
        | error reason =>
          rw [around] at hit
          cases hit
        | ok layers =>
          rw [around] at hit
          cases hit
          cases isNamed with
          | false => cases named
          | true =>
            obtain ⟨identifier, floor, lower, upper, edge, path⟩ := pivot_from_path shows place
            obtain ⟨token', there, seen⟩ := token_of_kind identifier
            have inside : pivot < v.size := lt_size_of_kind identifier
            have start_le : start ≤ v.size := by omega
            have alone : v.ts.Derives token' true (v.slice pivot (pivot + 1)) [] := by
              rw [slice_single there]
              exact .name seen
            obtain ⟨direct, derives⟩ := layers_around_derives shows lower upper (Nat.le_succ pivot)
              inside edge path (base_stop_first base) alone around
            have same : word = v.ts.spelling token' ∧ token = token' := by
              simpa [spelling, there] using named.symm
            obtain ⟨rfl, rfl⟩ := same
            refine ⟨v.slice 0 start, v.slice start v.size, direct, ?_, ?_, ?_, rfl, derives⟩
            · rw [v.slice_append (Nat.zero_le start) start_le, slice_whole]
            · intro empty
              have length := congrArg List.length empty
              rw [slice_length start_le] at length
              exact nonempty length
            · exact span_text_slice (Nat.zero_le start) start_le

end DeclarationView

namespace TokenSeq

/-- Nothing is misread or dropped. Whatever the tokens are, when a declaration is read with
a name, its tokens up to the end of the first declarator are a base, which is not empty and
is given as it is written, and a declarator around that name, and the layers of the type
are those that the derivation of the declarator gives, in its order. -/
theorem declaration_sound {ts : TokenSeq} {start stop : Nat} {d : Declaration} {word : String}
    {token : Nat} (read : ts.declaration start stop = .ok d) (named : d.name = some (word, token)) :
    ∃ base declarator direct, ts.firstDeclarator 0 (ts.significant start stop) = base ++ declarator ∧ base ≠ [] ∧
      d.type.specifiers = ts.written base ∧ word = ts.spelling token ∧
      ts.Derives token direct declarator d.type.layers := by
  have limited : ts.significant start (min stop ts.size) = ts.significant start stop := by
    rw [significant, significant, Nat.min_assoc, Nat.min_self]
  obtain ⟨tail, split⟩ := ts.first_declarator_front 0 (ts.significant start stop)
  rw [declaration, limited] at read
  split at read
  · cases read
  · split at read
    · cases read
    · have shows : DeclarationView.Shows
          ⟨ts, (ts.firstDeclarator 0 (ts.significant start stop)).toArray, min stop ts.size⟩ :=
        ⟨start, tail, limited.trans split⟩
      have result := DeclarationView.read_derives shows read named
      rwa [List.toList_toArray] at result

/-- An array of pointers to functions that return constant pointers, with an attribute
behind and an initializer that is not looked at. -/
theorem declaration_sound_table :
    let ts := ofSource "static char *const (*table[(4)])(int) __asm__(\"t\") = all;"
    let d : Declaration :=
      ⟨some ("table", 9), ⟨[.array "(4)", .pointer "", .function "int", .pointer "const"], "static char"⟩⟩
    ts.declaration 0 29 = .ok d ∧ d.name = some ("table", 9) ∧
      ∃ base declarator direct, ts.firstDeclarator 0 (ts.significant 0 29) = base ++ declarator ∧ base ≠ [] ∧
        d.type.specifiers = ts.written base ∧ "table" = ts.spelling 9 ∧
        ts.Derives 9 direct declarator d.type.layers := by
  intro ts d
  have found : (ts.declaration 0 29).toOption = some d := by decide +kernel
  have read : ts.declaration 0 29 = .ok d := by
    cases result : ts.declaration 0 29 with
    | error reason =>
      rw [result] at found
      cases found
    | ok declared =>
      rw [result] at found
      exact congrArg Except.ok (Option.some.inj found)
  exact ⟨read, rfl, declaration_sound read rfl⟩

end TokenSeq

end AllocGuard
