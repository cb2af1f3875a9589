import AllocGuard.Proofs.DeclaratorGrammar

/-! Every declaration of the grammar is read as the language says. -/
namespace AllocGuard

namespace TokenSeq

variable {ts : TokenSeq} {depth : Int} {kind : TokenKind} {tokens : List Nat}

/-! ## The end of the first declarator -/

/-- The search for the end of a declarator goes past these tokens. -/
def Passes (ts : TokenSeq) (depth : Int) (tokens : List Nat) : Prop :=
  ∀ more, ts.firstDeclarator depth (tokens ++ more) = tokens ++ ts.firstDeclarator depth more

theorem passes_nil (ts : TokenSeq) (depth : Int) : ts.Passes depth [] :=
  fun _ => rfl

theorem passes_append {front back : List Nat} (before : ts.Passes depth front) (behind : ts.Passes depth back) :
    ts.Passes depth (front ++ back) := by
  intro more
  rw [List.append_assoc, before, behind, List.append_assoc]

theorem passes_token {i : Nat} (seen : ts.kind? i = some kind) (opener : kind.isOpener = false)
    (closer : kind.isCloser = false) (inside : depth ≠ 0 ∨ firstDeclarator.endsDeclarator kind = false) :
    ts.Passes depth [i] := by
  intro more
  have stays : (depth == 0 && firstDeclarator.endsDeclarator kind) = false := by
    rcases inside with deep | other
    · simp [deep]
    · simp [other]
  simp only [List.singleton_append, firstDeclarator, kind_is_of_kind seen, opener, closer, stays,
    Bool.false_eq_true, if_false]

/-- A group is passed when what it holds is passed one level further in. -/
theorem passes_group {b : Bracket} {opening close : Nat} {inner : List Nat} (opens : ts.kind? opening = some b.opener)
    (closes : ts.kind? close = some b.closer) (within : ts.Passes (depth + 1) inner) :
    ts.Passes depth (opening :: (inner ++ [close])) := by
  intro more
  have closing : ts.firstDeclarator (depth + 1) (close :: more) =
      close :: ts.firstDeclarator depth more := by
    simp [firstDeclarator, kind_is_of_kind closes, b.closer_not_opener, b.closer_is_closer]
  rw [List.cons_append, firstDeclarator, kind_is_of_kind opens, b.opener_is_opener]
  simp only [if_true]
  rw [List.append_assoc, List.singleton_append, within, closing]
  simp

theorem passes_balanced (balanced : ts.Balanced tokens) (inside : 0 < depth) : ts.Passes depth tokens := by
  induction balanced generalizing depth with
  | nil => exact ts.passes_nil depth
  | @token i rest kind seen opener closer _ ih =>
    exact passes_append (passes_token seen opener closer (.inl (by omega))) (ih inside)
  | @group b opening close inner rest opens closes _ _ within behind =>
    have whole : opening :: (inner ++ close :: rest) = (opening :: (inner ++ [close])) ++ rest := by
      simp
    rw [whole]
    exact passes_append (passes_group opens closes (within (by omega))) (behind inside)

theorem word_plain (word : kind.isWord = true) :
    kind.isOpener = false ∧ kind.isCloser = false ∧ firstDeclarator.endsDeclarator kind = false := by
  cases kind <;> first | exact ⟨rfl, rfl, rfl⟩ | cases word

/-- Words are no brackets, and end no declarator. -/
theorem passes_words (words : ∀ i ∈ tokens, ∃ kind, ts.kind? i = some kind ∧ kind.isWord = true) :
    ts.Passes depth tokens := by
  induction tokens with
  | nil => exact ts.passes_nil depth
  | cons i rest ih =>
    obtain ⟨kind, seen, word⟩ := words i List.mem_cons_self
    obtain ⟨opener, closer, inner⟩ := word_plain word
    have behind := ih fun j member => words j (List.mem_cons_of_mem i member)
    exact passes_append (passes_token seen opener closer (.inr inner)) behind

theorem passes_declarator {d : Declarator} (formed : d.WellFormed ts) (inside : 0 ≤ depth) :
    ts.Passes depth d.tokens := by
  induction d generalizing depth with
  | name token => exact passes_token formed.identifier rfl rfl (.inr rfl)
  | group opening inner close ih =>
    obtain ⟨opens, closes, within⟩ := formed
    exact passes_group (b := .paren) opens closes (ih within (by omega))
  | suffix target form opening content close ih =>
    obtain ⟨_, opens, closes, balanced, within⟩ := formed
    exact passes_append (ih within inside)
      (passes_group opens closes (passes_balanced balanced (by omega)))
  | pointer star qualifiers target ih =>
    obtain ⟨stars, qualifies, within⟩ := formed
    have front : ts.Passes depth [star] := passes_token stars rfl rfl (.inr rfl)
    have middle : ts.Passes depth qualifiers := by
      refine passes_words fun q member => ?_
      rcases qualifies q member with seen | seen | seen
      · exact ⟨_, seen, rfl⟩
      · exact ⟨_, seen, rfl⟩
      · exact ⟨_, seen, rfl⟩
    exact passes_append front (passes_append middle (ih within inside))

/-- Of a declaration, the specifiers and the first declarator are looked at. -/
theorem first_declarator_eq {ts : TokenSeq} {base tail : List Nat} {d : Declarator}
    (specifies : ts.Specifiers base) (formed : d.WellFormed ts) (ends : ts.EndsDeclarator tail) :
    ts.firstDeclarator 0 (base ++ d.tokens ++ tail) = base ++ d.tokens := by
  have stop : ts.firstDeclarator 0 tail = [] := by
    cases tail with
    | nil => rfl
    | cons i rest =>
      rcases ends with seen | seen
      · simp [firstDeclarator, kind_is_of_kind seen, firstDeclarator.endsDeclarator,
          TokenKind.isOpener, TokenKind.isCloser, Bracket.ofOpener?, Bracket.ofCloser?]
      · simp [firstDeclarator, kind_is_of_kind seen, firstDeclarator.endsDeclarator,
          TokenKind.isOpener, TokenKind.isCloser, Bracket.ofOpener?, Bracket.ofCloser?]
  have passes := passes_append (passes_words (specifiers_words specifies))
    (passes_declarator formed (Int.le_refl 0))
  rw [passes, stop, List.append_nil]

end TokenSeq

/-! ## The tokens of a view -/

namespace DeclarationView

variable {v : DeclarationView} {p start left i right opening stop close : Nat}
  {front base tokens qualifiers back content : List Nat} {d : Declarator} {kind : TokenKind} {typed : Bool}
  {word : Option (Nat × Bool)} {layers rest more : List Layer}

theorem sig_at (split : v.sig.toList = front ++ i :: back) : v.sig[front.length]? = some i := by
  rw [← Array.getElem?_toList, split]
  simp

theorem kind_at (split : v.sig.toList = front ++ i :: back) : v.kind? front.length = v.ts.kind? i := by
  rw [kind?, sig_at split, Option.bind_some]

theorem spelling_at (split : v.sig.toList = front ++ i :: back) : v.spelling front.length = v.ts.spelling i := by
  rw [spelling, sig_at split]
  rfl

theorem size_eq (split : v.sig.toList = tokens) : v.size = tokens.length := by
  rw [size, ← split, Array.length_toList]

theorem kind_end (split : v.sig.toList = front) : v.kind? front.length = none := by
  rw [kind?, ← Array.getElem?_toList, split]
  simp

/-- A word that takes no group is not read with one. -/
theorem call_shaped_at (split : v.sig.toList = front ++ i :: back) (identifier : v.ts.kind? i = some .identifier)
    (plain : Word.isTypeof (v.ts.spelling i) = false ∧ Word.isAttribute (v.ts.spelling i) = false) :
    v.isCallShaped front.length = false := by
  rw [isCallShaped, sig_at split, Option.any_some, TokenSeq.isCallShaped, identifier]
  simp [plain.1, plain.2]

/-- The view shows the front of the tokens that carry meaning, from some place on. -/
def Shows (v : DeclarationView) : Prop :=
  ∃ start tail, v.ts.significant start v.limit = v.sig.toList ++ tail

theorem shows_nodup (shows : v.Shows) : v.sig.toList.Nodup := by
  obtain ⟨start, tail, all⟩ := shows
  have distinct := v.ts.significant_nodup start v.limit
  rw [all] at distinct
  exact distinct.sublist (List.sublist_append_left _ _)

/-- The partner of a bracket around balanced tokens is the one behind them. -/
theorem close_of_group (shows : v.Shows) {b : Bracket}
    (split : v.sig.toList = front ++ opening :: (content ++ close :: back))
    (opens : v.ts.kind? opening = some b.opener) (closes : v.ts.kind? close = some b.closer)
    (balanced : v.ts.Balanced content) : v.closeOf front.length = .ok (front.length + content.length + 1) := by
  have distinct := shows_nodup shows
  obtain ⟨start, tail, all⟩ := shows
  have matched : v.ts.matchingClose opening v.limit = some close := by
    have behind : v.ts.significant start v.limit =
        front ++ opening :: (content ++ close :: (back ++ tail)) := by
      simp [all, split]
    rw [TokenSeq.matching_close_eq opens, TokenSeq.significant_after behind, TokenSeq.close_in_group balanced closes]
  have place : v.sig.toList[front.length + content.length + 1]? = some close := by
    rw [split]
    simp [Nat.add_assoc]
  have inside := (List.getElem?_eq_some_iff.1 place).1
  have found : Position.firstIn? (fun q => v.sig[q]? == some close) (front.length + 1) v.size =
      some (front.length + content.length + 1) := by
    refine Position.first_iff.2 ⟨by omega, by simpa [size] using inside, by simpa using place, ?_⟩
    intro q lower upper
    refine beq_eq_false_iff_ne.2 fun here => ?_
    rw [← Array.getElem?_toList] at here
    have same := (List.getElem?_inj inside distinct).1 (place.trans here.symm)
    omega
  rw [closeOf, sig_at split, Option.bind_some, matched]
  simp only [found]

theorem sig_get_d (split : v.sig.toList = front ++ i :: back) : v.sig.getD front.length 0 = i := by
  rw [Array.getD_eq_getD_getElem?, sig_at split, Option.getD_some]

/-- The text of neighbouring tokens of a view is what is written there. -/
theorem span_text_eq (split : v.sig.toList = front ++ tokens ++ back) :
    v.spanText front.length (front.length + tokens.length) = v.ts.written tokens := by
  cases tokens with
  | nil => simp [spanText, TokenSeq.written]
  | cons first rest =>
    have last : v.sig.getD (front.length + rest.length) 0 = rest.getLastD first := by
      have place : (first :: rest)[rest.length]? = some (rest.getLastD first) := by
        rw [List.getLastD_eq_getLast?, ← List.getLast?_cons, List.getLast?_eq_getElem?]
        rfl
      rw [Array.getD_eq_getD_getElem?, ← Array.getElem?_toList, split, List.append_assoc,
        List.getElem?_append_right (by omega), Nat.add_sub_cancel_left,
        List.getElem?_append_left (by simp), place, Option.getD_some]
    have stop : front.length + (rest.length + 1) - 1 = front.length + rest.length := by omega
    rw [List.append_assoc, List.cons_append] at split
    rw [spanText, if_pos (by simp), sig_get_d split, List.length_cons, stop, last]
    rfl

/-! ## Suffixes and pointers -/

theorem inner_text_eq (split : v.sig.toList = front ++ opening :: (content ++ close :: back)) :
    v.innerText front.length (front.length + content.length + 1) =
      Text.trim (v.ts.textRange (opening + 1) close) := by
  have behind : v.sig.toList = (front ++ opening :: content) ++ close :: back := by
    rw [split]
    simp
  have place : (front ++ opening :: content).length = front.length + content.length + 1 := by
    simp [Nat.add_assoc]
  rw [innerText, sig_get_d split, ← place, sig_get_d behind]

/-- A suffix becomes the next layer. -/
theorem suffixes_from_suffix (shows : v.Shows) {form : Suffix}
    (split : v.sig.toList = front ++ opening :: (content ++ close :: back))
    (opens : v.ts.kind? opening = some form.bracket.opener) (closes : v.ts.kind? close = some form.bracket.closer)
    (balanced : v.ts.Balanced content) (rest : v.suffixesFrom (front.length + content.length + 2) = .ok (more, stop)) :
    v.suffixesFrom front.length =
      .ok (form.layer (Text.trim (v.ts.textRange (opening + 1) close)) :: more, stop) := by
  have here : v.kind? front.length = some form.bracket.opener := (kind_at split).trans opens
  have partner := close_of_group shows split opens closes balanced
  have text := inner_text_eq split
  rw [suffixesFrom]
  split
  · rename_i missing
    rw [here] at missing
    cases missing
  · rename_i kind seen
    rw [here] at seen
    cases seen
    have opener : (form.bracket.opener == .openBracket || form.bracket.opener == .openParen) = true := by
      cases form <;> rfl
    rw [if_pos opener]
    split
    · rename_i failed
      rw [partner] at failed
      cases failed
    · rename_i last found
      rw [partner] at found
      cases found
      rw [show front.length + content.length + 1 + 1 = front.length + content.length + 2 from rfl, rest, text]
      cases form <;> rfl

theorem suffixes_from_end (split : v.sig.toList = front) : v.suffixesFrom front.length = .ok ([], front.length) := by
  rw [suffixesFrom]
  split
  · rfl
  · rename_i kind seen
    rw [kind_end split] at seen
    cases seen

theorem suffixes_from_close (split : v.sig.toList = front ++ i :: back) (closes : v.ts.kind? i = some .closeParen) :
    v.suffixesFrom front.length = .ok ([], front.length) := by
  rw [suffixesFrom]
  split
  · rfl
  · rename_i kind seen
    rw [kind_at split, closes] at seen
    cases seen
    rfl

theorem pointers_before_qualifiers (qualifiersStop : Nat) (split : v.sig.toList = front ++ qualifiers ++ back)
    (above : start ≤ front.length)
    (qualifies : ∀ q ∈ qualifiers, v.ts.kind? q = some .const ∨ v.ts.kind? q = some .volatile ∨
      v.ts.kind? q = some .restrict) :
    v.pointersBefore start qualifiersStop (front.length + qualifiers.length) =
      v.pointersBefore start qualifiersStop front.length := by
  induction qualifiers generalizing front with
  | nil => rfl
  | cons q rest ih =>
    have behind : v.sig.toList = (front ++ [q]) ++ rest ++ back := by
      rw [split]
      simp
    have longer : (front ++ [q]).length = front.length + 1 := by simp
    have later := ih behind (by omega) fun q member => qualifies q (List.mem_cons_of_mem _ member)
    have here : v.kind? front.length = v.ts.kind? q := by
      rw [List.append_assoc, List.cons_append] at split
      exact kind_at split
    have count : front.length + (q :: rest).length = front.length + 1 + rest.length := by
      rw [List.length_cons]
      omega
    rw [longer] at later
    rw [count, later, pointersBefore, if_neg (by omega), here]
    rcases qualifies q List.mem_cons_self with seen | seen | seen
    · simp only [seen]
      rfl
    · simp only [seen]
      rfl
    · simp only [seen]
      rfl

/-- A star with the qualifiers behind it becomes the next layer. -/
theorem pointers_before_pointer {star : Nat} (split : v.sig.toList = front ++ star :: (qualifiers ++ back))
    (above : start ≤ front.length) (stars : v.ts.kind? star = some .star)
    (qualifies : ∀ q ∈ qualifiers, v.ts.kind? q = some .const ∨ v.ts.kind? q = some .volatile ∨
      v.ts.kind? q = some .restrict) (inner : left = front.length + 1 + qualifiers.length)
    (rest : v.pointersBefore start front.length front.length = (more, stop)) :
    v.pointersBefore start left left = (.pointer (v.ts.written qualifiers) :: more, stop) := by
  have behind : v.sig.toList = (front ++ [star]) ++ qualifiers ++ back := by
    rw [split]
    simp
  have longer : (front ++ [star]).length = front.length + 1 := by simp
  have reached : start ≤ (front ++ [star]).length := by omega
  have skipped := pointers_before_qualifiers left behind reached qualifies
  have text := span_text_eq behind
  rw [longer, ← inner] at skipped text
  rw [skipped, pointersBefore, if_neg (by omega), kind_at split, stars]
  dsimp only
  rw [rest, text]

/-! ## From the inside out -/

/-- What is left to do when `[left, right)` has been read with these layers, and neither
a suffix nor a pointer comes next. -/
def outside (v : DeclarationView) (start left : Nat) (layers : List Layer) (right : Nat) :
    Except DeclarationError (List Layer) := do
  if left == start && right == v.size then return layers
  else if start < left ∧ v.hasKind (left - 1) .openParen ∧ v.hasKind right .closeParen then
    return layers ++ (← v.layersAround start (left - 1) (right + 1))
  else throw (.unresolved (v.spanText start v.size))

/-- What is left to do when `[left, right)` has been read, and the last of it were these
suffixes. -/
def around (v : DeclarationView) (start left : Nat) (suffixes : List Layer) (right : Nat) :
    Except DeclarationError (List Layer) :=
  let (layers, left') := v.pointersBefore start left left
  v.outside start left' (suffixes ++ layers) right

theorem layers_around_eq {suffixes : List Layer} (read : v.suffixesFrom right = .ok (suffixes, stop)) :
    v.layersAround start left right = v.around start left suffixes stop := by
  rw [layersAround, around, read]
  rfl

/-- What has been read when the reader stops without a fault: suffixes, then pointers, and then all there
is, or the rest of it from outside of the group that closes there. -/
theorem layers_around_cases (hit : v.layersAround start left right = .ok layers) :
    ∃ suffixes stop pointers left', v.suffixesFrom right = .ok (suffixes, stop) ∧
      v.pointersBefore start left left = (pointers, left') ∧
      (left' = start ∧ stop = v.size ∧ layers = suffixes ++ pointers ∨
        ∃ opening rest, left' = opening + 1 ∧ start ≤ opening ∧ v.kind? opening = some .openParen ∧
          v.kind? stop = some .closeParen ∧ v.layersAround start opening (stop + 1) = .ok rest ∧
          layers = suffixes ++ pointers ++ rest) := by
  cases read : v.suffixesFrom right with
  | error reason =>
    rw [layersAround, read] at hit
    cases hit
  | ok result =>
    obtain ⟨suffixes, stop⟩ := result
    rw [layers_around_eq read, around] at hit
    generalize v.pointersBefore start left left = pointers at hit ⊢
    obtain ⟨pointers, left'⟩ := pointers
    refine ⟨suffixes, stop, pointers, left', rfl, rfl, ?_⟩
    dsimp only at hit
    rw [outside] at hit
    split at hit
    · rename_i whole
      obtain ⟨isStart, isStop⟩ := Bool.and_eq_true_iff.1 whole
      cases hit
      exact .inl ⟨eq_of_beq isStart, eq_of_beq isStop, rfl⟩
    · split at hit
      · rename_i grouped
        obtain ⟨behind, opens, closes⟩ := grouped
        rw [hasKind, beq_iff_eq] at opens closes
        obtain ⟨opening, rfl⟩ : ∃ opening, left' = opening + 1 := ⟨left' - 1, by omega⟩
        rw [Nat.add_sub_cancel] at hit opens
        cases outer : v.layersAround start opening (stop + 1) with
        | error reason =>
          rw [outer] at hit
          cases hit
        | ok rest =>
          rw [outer] at hit
          cases hit
          exact .inr ⟨opening, rest, rfl, Nat.le_of_lt_succ behind, opens, closes, outer, rfl⟩
      · cases hit

/-- A layer that has been read comes first in the result. -/
theorem outside_cons (layer : Layer) (result : v.outside start left layers right = .ok rest) :
    v.outside start left (layer :: layers) right = .ok (layer :: rest) := by
  rw [outside] at result ⊢
  split at result
  · rename_i whole
    cases result
    rw [if_pos whole]
    rfl
  · rename_i part
    split at result
    · rename_i grouped
      rw [if_neg part, if_pos grouped]
      cases outer : v.layersAround start (left - 1) (right + 1) with
      | error reason =>
        rw [outer] at result
        cases result
      | ok more =>
        rw [outer] at result
        cases result
        rfl
    · cases result

/-- A pointer is read before what stands in front of it. -/
theorem around_pointer {left' : Nat} {layer : Layer}
    (pointer : ∀ {more stop}, v.pointersBefore start left left = (more, stop) →
      v.pointersBefore start left' left' = (layer :: more, stop))
    (result : v.around start left [] right = .ok rest) : v.around start left' [] right = .ok (layer :: rest) := by
  cases found : v.pointersBefore start left left with
  | mk more stop =>
    rw [around, found] at result
    rw [around, pointer found]
    exact outside_cons layer result

/-- A group is opened when all of it has been read. -/
theorem around_group (above : start ≤ left) (opens : v.kind? left = some .openParen)
    (closes : v.kind? right = some .closeParen) (result : v.layersAround start left (right + 1) = .ok rest) :
    v.around start (left + 1) [] right = .ok rest := by
  have none : v.pointersBefore start (left + 1) (left + 1) = ([], left + 1) := by
    rw [pointersBefore, if_neg (by omega), opens]
    rfl
  have more : (left + 1 == start) = false := beq_eq_false_iff_ne.2 (by omega)
  have grouped : start < left + 1 ∧ v.hasKind (left + 1 - 1) .openParen ∧
      v.hasKind right .closeParen := by
    simp only [hasKind, Nat.add_sub_cancel, opens, closes]
    exact ⟨by omega, rfl, rfl⟩
  rw [around, none]
  dsimp only
  rw [outside, more, Bool.false_and, if_neg Bool.false_ne_true, if_pos grouped, Nat.add_sub_cancel, result]
  rfl

/-- Nothing is left when the whole declarator has been read. -/
theorem around_whole (v : DeclarationView) (start : Nat) : v.around start start [] v.size = .ok [] := by
  have none : v.pointersBefore start start start = ([], start) := by
    cases start with
    | zero => rfl
    | succ start => rw [pointersBefore, if_pos (by omega)]
  rw [around, none]
  dsimp only
  rw [outside, if_pos (by simp)]
  rfl

/-- Reading a declarator from its name outwards takes its layers in the order of its
derivation, and goes on with what stands around it. Pointers wait until the suffixes on
the right have been read, so in front of a declarator with a pointer no suffix may be
left. -/
theorem layers_around_declarator (shows : v.Shows) (formed : d.WellFormed v.ts)
    (split : v.sig.toList = front ++ d.tokens ++ back) (above : start ≤ front.length)
    (suffixes : v.suffixesFrom (front.length + d.tokens.length) = .ok (more, stop))
    (direct : d.isDirect = true ∨ more = []) (result : v.around start front.length more stop = .ok rest) :
    v.layersAround start (front.length + d.offset) (front.length + d.offset + 1) =
      .ok (d.layers v.ts ++ rest) := by
  induction d generalizing front back more rest stop with
  | name token => exact (layers_around_eq suffixes).trans result
  | group opening inner close ih =>
    obtain ⟨opens, closes, within⟩ := formed
    have openSplit : v.sig.toList = front ++ opening :: (inner.tokens ++ close :: back) := by
      simp [split, Declarator.tokens]
    have innerSplit : v.sig.toList = (front ++ [opening]) ++ inner.tokens ++ close :: back := by
      simp [split, Declarator.tokens]
    have closeSplit : v.sig.toList = (front ++ opening :: inner.tokens) ++ close :: back := by
      simp [split, Declarator.tokens]
    have left : (front ++ [opening]).length = front.length + 1 := by simp
    have right : (front ++ opening :: inner.tokens).length = front.length + 1 + inner.tokens.length := by
      simp
      omega
    have stop_eq : front.length + (Declarator.group opening inner close).tokens.length =
        front.length + 1 + inner.tokens.length + 1 := by
      simp [Declarator.tokens]
      omega
    have ends := suffixes_from_close closeSplit closes
    have closing := kind_at closeSplit
    rw [right] at ends closing
    rw [stop_eq] at suffixes
    have outer : v.around start (front.length + 1) [] (front.length + 1 + inner.tokens.length) =
        .ok rest :=
      around_group above ((kind_at openSplit).trans opens) (closing.trans closes)
        ((layers_around_eq suffixes).trans result)
    have inside := ih within innerSplit (by omega) (by rw [left]; exact ends) (.inr rfl)
      (by rw [left]; exact outer)
    rw [left] at inside
    rw [Declarator.offset, Nat.add_comm inner.offset 1, ← Nat.add_assoc]
    exact inside
  | suffix target form opening content close ih =>
    obtain ⟨isDirect, opens, closes, balanced, within⟩ := formed
    have suffixSplit : v.sig.toList =
        (front ++ target.tokens) ++ opening :: (content ++ close :: back) := by
      simp [split, Declarator.tokens]
    have stop_eq : front.length + (target.suffix form opening content close).tokens.length =
        (front ++ target.tokens).length + content.length + 2 := by
      simp [Declarator.tokens]
      omega
    rw [stop_eq] at suffixes
    have read := suffixes_from_suffix shows suffixSplit opens closes balanced suffixes
    rw [List.length_append] at read
    have inside := ih within suffixSplit above read (.inl isDirect)
      (outside_cons _ result)
    rw [Declarator.layers, List.append_assoc]
    exact inside
  | pointer star qualifiers target ih =>
    obtain ⟨stars, qualifies, within⟩ := formed
    have none : more = [] := direct.resolve_left Bool.false_ne_true
    have starSplit : v.sig.toList = front ++ star :: (qualifiers ++ (target.tokens ++ back)) := by
      simp [split, Declarator.tokens]
    have targetSplit : v.sig.toList = (front ++ star :: qualifiers) ++ target.tokens ++ back := by
      simp [split, Declarator.tokens]
    have left : (front ++ star :: qualifiers).length = front.length + 1 + qualifiers.length := by
      simp
      omega
    have stop_eq : front.length + (Declarator.pointer star qualifiers target).tokens.length =
        (front ++ star :: qualifiers).length + target.tokens.length := by
      simp [Declarator.tokens]
      omega
    rw [stop_eq] at suffixes
    subst none
    have pointer := around_pointer (pointers_before_pointer starSplit above stars qualifies left) result
    have inside := ih within targetSplit (by omega) suffixes (.inr rfl) pointer
    have place : front.length + (Declarator.pointer star qualifiers target).offset =
        (front ++ star :: qualifiers).length + target.offset := by
      rw [left, Declarator.offset]
      omega
    rw [place, Declarator.layers, List.append_assoc]
    exact inside

/-! ## The place of the name -/

theorem pivot_from_step (seen : v.kind? p = some kind) (other : (kind == .identifier) = false)
    (passed : (kind == .star || kind.isQualifier || (kind == .openParen && v.isGrouping p)) = true) :
    v.pivotFrom p = v.pivotFrom (p + 1) := by
  rw [pivotFrom]
  split
  · rename_i missing
    rw [seen] at missing
    cases missing
  · rename_i kind' seen'
    rw [seen] at seen'
    cases seen'
    rw [if_neg (by simp [other]), if_pos passed]

theorem pivot_from_name (split : v.sig.toList = front ++ i :: back) (named : v.ts.IsName i) :
    v.pivotFrom front.length = .ok (front.length, true) := by
  have here : v.kind? front.length = some .identifier := (kind_at split).trans named.identifier
  rw [pivotFrom]
  split
  · rename_i missing
    rw [here] at missing
    cases missing
  · rename_i kind seen
    rw [here] at seen
    cases seen
    rw [if_pos (beq_self_eq_true _), if_neg (by simp [call_shaped_at split named.identifier named.takes_no_group])]

theorem pivot_from_qualifiers (split : v.sig.toList = front ++ qualifiers ++ back)
    (qualifies : ∀ q ∈ qualifiers, v.ts.kind? q = some .const ∨ v.ts.kind? q = some .volatile ∨
      v.ts.kind? q = some .restrict) : v.pivotFrom front.length = v.pivotFrom (front ++ qualifiers).length := by
  induction qualifiers generalizing front with
  | nil => rw [List.append_nil]
  | cons q rest ih =>
    have here : v.kind? front.length = v.ts.kind? q := by
      rw [List.append_assoc, List.cons_append] at split
      exact kind_at split
    have behind : v.sig.toList = (front ++ [q]) ++ rest ++ back := by simp [split]
    have later := ih behind fun q member => qualifies q (List.mem_cons_of_mem _ member)
    rw [List.append_assoc, List.singleton_append, List.length_append, List.length_singleton] at later
    rw [← later]
    rcases qualifies q List.mem_cons_self with seen | seen | seen
    · exact pivot_from_step (here.trans seen) rfl rfl
    · exact pivot_from_step (here.trans seen) rfl rfl
    · exact pivot_from_step (here.trans seen) rfl rfl

/-- A parenthesis in front of a declarator groups it. -/
theorem grouping_declarator (split : v.sig.toList = front ++ opening :: (d.tokens ++ back))
    (formed : d.WellFormed v.ts) : v.isGrouping front.length = true := by
  obtain ⟨first, rest, tokens, start⟩ := d.tokens_head formed
  have inner : v.sig.toList = (front ++ [opening]) ++ first :: (rest ++ back) := by
    simp [split, tokens]
  have place : (front ++ [opening]).length = front.length + 1 := by simp
  have next := kind_at inner
  rw [place] at next
  rw [isGrouping, next]
  rcases start with seen | seen | named
  · rw [seen]
  · rw [seen]
  · have word := spelling_at inner
    have shaped := call_shaped_at inner named.identifier named.takes_no_group
    rw [place] at word shaped
    rw [named.identifier]
    simp [word, shaped, named.not_builtin]

/-- The place of the name is found through all pointers and groups in front of it. -/
theorem pivot_from_declarator (formed : d.WellFormed v.ts) (split : v.sig.toList = front ++ d.tokens ++ back) :
    v.pivotFrom front.length = .ok (front.length + d.offset, true) := by
  induction d generalizing front back with
  | name token => exact pivot_from_name (split.trans (List.append_assoc _ _ _)) formed
  | group opening inner close ih =>
    obtain ⟨opens, closes, within⟩ := formed
    have openSplit : v.sig.toList = front ++ opening :: (inner.tokens ++ close :: back) := by
      simp [split, Declarator.tokens]
    have innerSplit : v.sig.toList = (front ++ [opening]) ++ inner.tokens ++ close :: back := by
      simp [split, Declarator.tokens]
    have left : (front ++ [opening]).length = front.length + 1 := by simp
    have grouped := grouping_declarator openSplit within
    have inside := ih within innerSplit
    rw [left] at inside
    rw [pivot_from_step ((kind_at openSplit).trans opens) rfl (by simp [grouped]), inside,
      Declarator.offset, Nat.add_comm inner.offset 1, Nat.add_assoc]
  | suffix target form opening content close ih =>
    have targetSplit : v.sig.toList =
        front ++ target.tokens ++ opening :: (content ++ close :: back) := by
      simp [split, Declarator.tokens]
    exact ih formed.2.2.2.2 targetSplit
  | pointer star qualifiers target ih =>
    obtain ⟨stars, qualifies, within⟩ := formed
    have starSplit : v.sig.toList = front ++ star :: (qualifiers ++ (target.tokens ++ back)) := by
      simp [split, Declarator.tokens]
    have middleSplit : v.sig.toList = (front ++ [star]) ++ qualifiers ++ (target.tokens ++ back) := by
      simp [split, Declarator.tokens]
    have targetSplit : v.sig.toList = (front ++ [star] ++ qualifiers) ++ target.tokens ++ back := by
      simp [split, Declarator.tokens]
    have left : (front ++ [star]).length = front.length + 1 := by simp
    have place : (front ++ [star] ++ qualifiers).length + target.offset =
        front.length + (Declarator.pointer star qualifiers target).offset := by
      simp [Declarator.offset]
      omega
    rw [pivot_from_step ((kind_at starSplit).trans stars) rfl rfl, ← left,
      pivot_from_qualifiers middleSplit qualifies, ih within targetSplit, place]

/-! ## Specifiers -/

theorem specifiers_from_keyword (seen : v.kind? p = some kind)
    (allowed : kind.isStorage = true ∨ kind = .const ∨ kind = .volatile) :
    v.specifiersFrom typed word p = v.specifiersFrom typed word (p + 1) := by
  have plain : kind.isAggregate = false ∧ (kind == .atomic) = false ∧
      (kind == .identifier) = false ∧ (kind == .complex) = false ∧ kind.isKeyword = true := by
    rcases allowed with storage | rfl | rfl
    · cases kind <;> first | exact ⟨rfl, rfl, rfl, rfl, rfl⟩ | cases storage
    · exact ⟨rfl, rfl, rfl, rfl, rfl⟩
    · exact ⟨rfl, rfl, rfl, rfl, rfl⟩
  obtain ⟨aggregate, atomic, identifier, complex, keyword⟩ := plain
  rw [specifiersFrom]
  split
  · rename_i missing
    rw [seen] at missing
    cases missing
  · rename_i kind' seen'
    rw [seen] at seen'
    cases seen'
    simp only [aggregate, atomic, identifier, complex, keyword, Bool.or_self, Bool.false_and,
      Bool.false_eq_true, if_false, if_true]

theorem specifiers_from_word (seen : v.kind? p = some .identifier) (plain : v.isCallShaped p = false) :
    v.specifiersFrom typed word p = v.specifiersFrom true (some (p, typed)) (p + 1) := by
  rw [specifiersFrom]
  split
  · rename_i missing
    rw [seen] at missing
    cases missing
  · rename_i kind seen'
    rw [seen] at seen'
    cases seen'
    rw [if_neg (by decide), if_neg (by simp [plain]), if_pos (beq_self_eq_true _)]

/-- An aggregate with a tag and without a body. -/
theorem specifiers_from_aggregate (seen : v.kind? p = some kind) (aggregate : kind.isAggregate = true)
    (tagged : v.kind? (p + 1) = some .identifier) (plain : v.isCallShaped (p + 1) = false)
    (noBody : v.kind? (p + 2) ≠ some .openBrace) :
    v.specifiersFrom typed word p = v.specifiersFrom true none (p + 2) := by
  have body : v.aggregateBody p = p + 2 := by
    rw [aggregateBody, hasKind, tagged, plain]
    rfl
  have missing : v.hasKind (p + 2) .openBrace = false := beq_eq_false_iff_ne.2 noBody
  rw [specifiersFrom]
  split
  · rename_i missing
    rw [seen] at missing
    cases missing
  · rename_i kind' seen'
    rw [seen] at seen'
    cases seen'
    rw [if_pos aggregate, body, if_neg (by simp [missing])]

/-- Specifiers end where no word stands. -/
theorem specifiers_from_stop (stops : ∀ kind, v.kind? p = some kind → kind.isWord = false) :
    v.specifiersFrom typed word p = .ok (p, word) := by
  rw [specifiersFrom]
  split
  · rfl
  · rename_i kind seen
    have other := stops kind seen
    simp only [TokenKind.isWord, TokenKind.isKeyword, Bool.or_eq_false_iff] at other
    obtain ⟨identifier, ⟨⟨⟨aggregate, storage⟩, qualifier⟩, complex⟩, pragma⟩ := other
    have atomic : (kind == .atomic) = false := by
      cases kind <;> first | rfl | cases qualifier
    simp only [aggregate, atomic, identifier, complex, TokenKind.isKeyword, storage, qualifier, pragma,
      Bool.or_self, Bool.false_and, Bool.false_eq_true, if_false]

/-- The last word read is a builtin type word, or no type stood in front of it. Then it
is part of the type. -/
def Settled (v : DeclarationView) (word : Option (Nat × Bool)) : Prop :=
  ∀ p, word = some (p, true) → Word.isBuiltinType (v.spelling p) = true

theorem specifiers_from_builtin_word (split : v.sig.toList = front ++ i :: back)
    (builtin : v.ts.kind? i = some .identifier ∧ Word.isBuiltinType (v.ts.spelling i) = true) :
    v.Settled (some (front.length, typed)) ∧ v.specifiersFrom typed word front.length =
      v.specifiersFrom true (some (front.length, typed)) (front.length + 1) := by
  constructor
  · intro p same
    cases same
    rw [spelling_at split, builtin.2]
  · have plain := call_shaped_at split builtin.1 (Word.builtin_takes_no_group builtin.2)
    exact specifiers_from_word ((kind_at split).trans builtin.1) plain

theorem specifiers_from_builtin {rest : List Nat} {first : Nat}
    (split : v.sig.toList = front ++ first :: rest ++ back)
    (builtin : ∀ i ∈ first :: rest, v.ts.kind? i = some .identifier ∧ Word.isBuiltinType (v.ts.spelling i) = true) :
    ∃ word', v.Settled word' ∧ v.specifiersFrom typed word front.length =
      v.specifiersFrom true word' (front ++ first :: rest).length := by
  induction rest generalizing front first typed word with
  | nil =>
    rw [List.append_assoc, List.singleton_append] at split
    obtain ⟨settled, step⟩ := specifiers_from_builtin_word split (builtin first List.mem_cons_self)
    exact ⟨_, settled, by rw [step, List.length_append, List.length_singleton]⟩
  | cons next rest ih =>
    have here : v.sig.toList = front ++ first :: (next :: rest ++ back) := by simp [split]
    have behind : v.sig.toList = (front ++ [first]) ++ next :: rest ++ back := by simp [split]
    have place : (front ++ [first]).length = front.length + 1 := by simp
    have joined : front ++ [first] ++ next :: rest = front ++ first :: next :: rest := by simp
    obtain ⟨_, step⟩ := specifiers_from_builtin_word here (builtin first List.mem_cons_self)
    obtain ⟨word', settled, run⟩ := ih behind fun i member => builtin i (List.mem_cons_of_mem _ member)
    exact ⟨word', settled, by rw [step, ← place, run, joined]⟩

/-- The specifiers of the grammar are read to their end. -/
theorem specifiers_from_base (specifies : v.ts.Specifiers base) (split : v.sig.toList = front ++ base ++ back)
    (noBody : v.kind? (front ++ base).length ≠ some .openBrace) :
    ∃ word, v.Settled word ∧
      v.specifiersFrom false none front.length = v.specifiersFrom true word (front ++ base).length := by
  induction specifies generalizing front with
  | type named =>
    cases named with
    | builtin words => exact specifiers_from_builtin split words
    | @aggregate keyword tag kind seen opens named =>
      have keySplit : v.sig.toList = front ++ keyword :: (tag :: back) := by simp [split]
      have tagSplit : v.sig.toList = (front ++ [keyword]) ++ tag :: back := by simp [split]
      have place : (front ++ [keyword]).length = front.length + 1 := by simp
      have tagged := (kind_at tagSplit).trans named.identifier
      have plain := call_shaped_at tagSplit named.identifier named.takes_no_group
      rw [place] at tagged plain
      refine ⟨none, fun p same => ?_, ?_⟩
      · cases same
      · rw [List.length_append] at noBody ⊢
        exact specifiers_from_aggregate ((kind_at keySplit).trans seen) opens tagged plain noBody
    | @typedef i named =>
      have here : v.sig.toList = front ++ i :: back := by simp [split]
      have plain := call_shaped_at here named.identifier named.takes_no_group
      refine ⟨some (front.length, false), fun p same => ?_, ?_⟩
      · cases same
      · rw [List.length_append]
        exact specifiers_from_word ((kind_at here).trans named.identifier) plain
  | @keyword i rest kind seen allowed _ ih =>
    have here : v.sig.toList = front ++ i :: (rest ++ back) := by simp [split]
    have behind : v.sig.toList = (front ++ [i]) ++ rest ++ back := by simp [split]
    have joined : front ++ [i] ++ rest = front ++ i :: rest := by simp
    have place : (front ++ [i]).length = front.length + 1 := by simp
    obtain ⟨word, settled, run⟩ := ih behind (by rw [joined]; exact noBody)
    refine ⟨word, settled, ?_⟩
    rw [specifiers_from_keyword ((kind_at here).trans seen) allowed, ← place, run, joined]

theorem base_stop_settled (settled : v.Settled word) (run : v.specifiersFrom false none 0 = .ok (stop, word)) :
    v.baseStop = .ok stop := by
  rw [baseStop, run]
  match word with
  | none => rfl
  | some (p, false) => rfl
  | some (p, true) =>
    have builtin := settled p rfl
    change Except.ok (if _ then _ else _) = _
    rw [if_neg (by simp [builtin])]

theorem base_stop_name (declared : Word.isBuiltinType (v.spelling p) = false)
    (run : v.specifiersFrom false none 0 = .ok (p + 1, some (p, true))) : v.baseStop = .ok p := by
  rw [baseStop, run]
  change Except.ok (if _ then _ else _) = _
  rw [if_pos (by simp [declared])]

/-- The base type ends where the declarator starts, also when the declarator starts with
its name, which is a word like those of the base. -/
theorem base_stop_eq (specifies : v.ts.Specifiers base) (formed : d.WellFormed v.ts)
    (split : v.sig.toList = base ++ d.tokens) : v.baseStop = .ok base.length := by
  obtain ⟨first, rest, tokens, start⟩ := d.tokens_head formed
  have here : v.sig.toList = base ++ first :: rest := by rw [split, tokens]
  have noBody : v.kind? ([] ++ base).length ≠ some .openBrace := by
    rw [List.nil_append, kind_at here]
    rcases start with seen | seen | named
    · simp [seen]
    · simp [seen]
    · simp [named.identifier]
  obtain ⟨word, settled, run⟩ := specifiers_from_base specifies
    (show v.sig.toList = [] ++ base ++ d.tokens by rw [split, List.nil_append]) noBody
  rw [List.nil_append, List.length_nil] at run
  have atStart {kind : TokenKind} (seen : v.ts.kind? first = some kind) (other : kind.isWord = false) :
      v.baseStop = .ok base.length := by
    refine base_stop_settled settled (run.trans (specifiers_from_stop fun kind' seen' => ?_))
    rw [kind_at here, seen] at seen'
    cases seen'
    exact other
  rcases start with seen | seen | named
  · exact atStart seen rfl
  · exact atStart seen rfl
  · have behind : v.sig.toList = (base ++ [first]) ++ rest := by simp [here]
    have place : (base ++ [first]).length = base.length + 1 := by simp
    have plain := call_shaped_at here named.identifier named.takes_no_group
    have stops : ∀ kind, v.kind? (base.length + 1) = some kind → kind.isWord = false := by
      intro kind seen
      rw [← place] at seen
      rcases Declarator.tokens_after_name formed tokens named.identifier with rfl |
        ⟨opening, more, rfl, form, opens⟩
      · rw [kind_end (behind.trans (List.append_nil _))] at seen
        cases seen
      · rw [kind_at behind, opens] at seen
        cases seen
        cases form <;> rfl
    refine base_stop_name ?_ ?_
    · rw [spelling_at here, named.not_builtin]
    · rw [run, specifiers_from_word ((kind_at here).trans named.identifier) plain, specifiers_from_stop stops]

/-- A declaration of the grammar is read with the name and the type that the grammar
gives it. -/
theorem read_declaration (shows : v.Shows) (specifies : v.ts.Specifiers base) (formed : d.WellFormed v.ts)
    (split : v.sig.toList = base ++ d.tokens) :
    v.read = .ok ⟨some (v.ts.spelling d.nameToken, d.nameToken), d.typeOf v.ts ⟨[], v.ts.written base⟩⟩ := by
  have whole : v.sig.toList = base ++ d.tokens ++ [] := by rw [split, List.append_nil]
  have size : v.size = base.length + d.tokens.length := by rw [size_eq split, List.length_append]
  have pivot := pivot_from_declarator formed whole
  have ends := suffixes_from_end split
  rw [List.length_append, ← size] at ends
  have layers := layers_around_declarator shows formed whole (Nat.le_refl _) (size ▸ ends) (.inr rfl)
    (v.around_whole base.length)
  obtain ⟨front, back, tokens, place⟩ := d.tokens_at_name
  have named : v.sig.toList = (base ++ front) ++ d.nameToken :: back := by
    rw [split, tokens, List.append_assoc]
  have spelled := spelling_at named
  have token := sig_get_d named
  have text := span_text_eq (show v.sig.toList = [] ++ base ++ d.tokens from split)
  rw [List.length_append, place] at spelled token
  rw [List.length_nil, Nat.zero_add] at text
  have nonempty : base.length ≠ 0 := by
    cases specifies with
    | type words => cases words <;> simp
    | keyword => simp
  rw [read, base_stop_eq specifies formed split]
  change (if _ then _ else _) = _
  rw [if_neg nonempty, pivot]
  change (v.layersAround _ _ _ >>= _) = _
  rw [if_pos rfl, layers, Declarator.type_of_eq, List.append_nil]
  change Except.ok _ = _
  rw [if_pos rfl, spelled, token, text]

end DeclarationView

namespace TokenSeq

/-- Declarators of any depth are read as the language says: after the specifiers of the
grammar, and in front of a `;`, an initializer or nothing, every declarator gives its own
name, and the type that its derivation gives to that name. -/
theorem declaration_complete {ts : TokenSeq} {start stop : Nat} {base tail : List Nat} {d : Declarator}
    (tokens : ts.significant start stop = base ++ d.tokens ++ tail) (specifies : ts.Specifiers base)
    (formed : d.WellFormed ts) (ends : ts.EndsDeclarator tail) :
    ts.declaration start stop =
      .ok ⟨some (ts.spelling d.nameToken, d.nameToken), d.typeOf ts ⟨[], ts.written base⟩⟩ := by
  have limited : ts.significant start (min stop ts.size) = base ++ d.tokens ++ tail := by
    rw [← tokens, significant, significant, Nat.min_assoc, Nat.min_self]
  have cut := first_declarator_eq specifies formed ends
  have nonempty : base ++ d.tokens ≠ [] := by
    obtain ⟨first, rest, head, _⟩ := d.tokens_head formed
    simp [head]
  rw [declaration]
  rw [limited]
  split
  · rename_i empty
    exact absurd (List.append_eq_nil_iff.1 empty).1 nonempty
  · rw [cut]
    split
    · rename_i empty
      exact absurd empty nonempty
    · exact DeclarationView.read_declaration ⟨start, tail, limited⟩ specifies formed rfl

/-- An array of pointers to functions that return pointers. -/
theorem declaration_complete_handlers :
    let ts := ofSource "extern const struct node *(* restrict handlers[4])(char (*)[2]) = made;"
    let array : Declarator := .suffix (.name 14) .array 15 [16] 17
    let function : Declarator :=
      .suffix (.group 9 (.pointer 10 [12] array) 18) .function 19 [20, 22, 23, 24, 25, 26, 27] 28
    let d : Declarator := .pointer 8 [] function
    ts.significant 0 34 = [0, 2, 4, 6] ++ d.tokens ++ [30, 32, 33] ∧ ts.Specifiers [0, 2, 4, 6] ∧
      d.WellFormed ts ∧ ts.EndsDeclarator [30, 32, 33] ∧
      ts.declaration 0 34 = .ok ⟨some ("handlers", 14),
        ⟨[.array "4", .pointer "restrict", .function "char (*)[2]", .pointer ""], "extern const struct node"⟩⟩ := by
  intro ts array function d
  -- One evaluation of the text gives everything that is asked of its tokens.
  have facts : (ts.significant 0 34 = [0, 2, 4, 6] ++ d.tokens ++ [30, 32, 33] ∧
      (⟨some (ts.spelling d.nameToken, d.nameToken), d.typeOf ts ⟨[], ts.written [0, 2, 4, 6]⟩⟩ :
        Declaration) = ⟨some ("handlers", 14), ⟨[.array "4", .pointer "restrict",
          .function "char (*)[2]", .pointer ""], "extern const struct node"⟩⟩) ∧
      (ts.kind? 0 = some .external ∧ ts.kind? 2 = some .const ∧ ts.kind? 4 = some .struct ∧
        (ts.kind? 6 = some .identifier ∧ Word.isReserved (ts.spelling 6) = false)) ∧
      (ts.kind? 8 = some .star ∧ ts.kind? 9 = some .openParen ∧ ts.kind? 10 = some .star ∧
        ts.kind? 12 = some .restrict ∧
        (ts.kind? 14 = some .identifier ∧ Word.isReserved (ts.spelling 14) = false) ∧
        ts.kind? 18 = some .closeParen) ∧
      (ts.kind? 15 = some .openBracket ∧ ts.kind? 16 = some .number ∧
        ts.kind? 17 = some .closeBracket) ∧
      (ts.kind? 19 = some .openParen ∧ ts.kind? 20 = some .identifier ∧ ts.kind? 22 = some .openParen ∧
        ts.kind? 23 = some .star ∧ ts.kind? 24 = some .closeParen ∧ ts.kind? 25 = some .openBracket ∧
        ts.kind? 26 = some .number ∧ ts.kind? 27 = some .closeBracket ∧ ts.kind? 28 = some .closeParen) ∧
      ts.kind? 30 = some .assign := by
    decide +kernel
  obtain ⟨⟨tokens, type⟩, ⟨storage, qualifier, aggregate, tag⟩,
    ⟨star, opens, star', restrict, name, closes⟩, ⟨square, size, square'⟩,
    ⟨call, char, paren, pointer, paren', bound, number, bound', call'⟩, assign⟩ := facts
  have specifies : ts.Specifiers [0, 2, 4, 6] :=
    .keyword storage (.inl rfl) (.keyword qualifier (.inr (.inl rfl))
      (.type (.aggregate aggregate rfl ⟨tag.1, tag.2⟩)))
  have subscript : ts.Balanced (25 :: ([26] ++ 27 :: [])) :=
    .group (b := .square) bound bound' (.token number rfl rfl .nil) .nil
  have parameter : ts.Balanced (22 :: ([23] ++ 24 :: [25, 26, 27])) :=
    .group (b := .paren) paren paren' (.token pointer rfl rfl .nil) subscript
  have arrayFormed : array.WellFormed ts := ⟨rfl, square, square', .token size rfl rfl .nil, name.1, name.2⟩
  have restricted : (Declarator.pointer 10 [12] array).WellFormed ts := by
    refine ⟨star', fun q member => ?_, arrayFormed⟩
    cases List.mem_singleton.1 member
    exact .inr (.inr restrict)
  have formed : d.WellFormed ts :=
    ⟨star, by simp, rfl, call, call', .token char rfl rfl parameter, opens, closes, restricted⟩
  refine ⟨tokens, specifies, formed, .inr assign, ?_⟩
  rw [declaration_complete tokens specifies formed (.inr assign), type]

end TokenSeq

end AllocGuard
