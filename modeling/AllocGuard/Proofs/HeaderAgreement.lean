import AllocGuard.Proofs.LayoutBlindness

/-! Two readers of one header. The declaration is read from the inside out and gives the
function its name. The header is taken apart by a scan, which looks for the first
parenthesis behind a name. The scan passes the base of the declaration word by word and
group by group, as the other reader does, so what decides is the declarator: the two find
the same name exactly if that name stands in no group and a parenthesis follows it. -/
namespace AllocGuard

/-! ## The way to the name -/

namespace DeclarationView

variable {v : DeclarationView} {r : Reading} {pivot : Nat}

/-- When all layers are found, the way to the name leads past no group: the search for stars does
not cross a closing parenthesis, and it has come to the start. -/
theorem layers_around_floor {start floor left right : Nat} {layers : List Layer} (lower : start ≤ floor)
    (above : floor ≤ left) (edge : floor = start ∨ v.kind? (floor - 1) = some .closeParen)
    (hit : v.layersAround start left right = .ok layers) : floor = start := by
  induction left using Nat.strongRecOn generalizing right layers with
  | ind left ih =>
    obtain ⟨suffixes, stop, pointers, left', _, before, whole | grouped⟩ := layers_around_cases hit
    · have reached := pointers_before_floor left above edge
      rw [before] at reached
      dsimp only at reached
      omega
    · obtain ⟨opening, rest, rfl, behind, opens, _, outer, _⟩ := grouped
      have reached := pointers_before_floor left above edge
      have below := v.pointers_before_le start left left
      rw [before] at reached below
      dsimp only at reached below
      exact ih opening (by omega) (floor_le_position edge reached behind opens TokenKind.noConfusion) outer

/-- Between the base and the name there are stars, qualifiers and parentheses of groups. -/
theorem reading_path (shows : v.Shows) (reads : v.reading = some r) (named : r.pivot = some pivot) :
    ∀ p, r.base ≤ p → p < pivot → v.Passed p := by
  obtain ⟨_, _, found, layers, around⟩ := reading_parts reads named
  obtain ⟨_, floor, lower, upper, edge, path⟩ := pivot_from_path shows found
  obtain rfl := layers_around_floor lower upper edge around
  exact path

/-- The search for the name stops at no word that takes a group. -/
theorem pivot_from_plain {p : Nat} (hit : v.pivotFrom p = .ok (pivot, true)) : v.isCallShaped pivot = false := by
  fun_induction pivotFrom v p with
  | case1 p missing => cases hit
  | case2 p kind seen identifier shaped reason closes => cases hit
  | case3 p kind seen identifier shaped close closes ih => exact ih hit
  | case4 p kind seen identifier plain =>
    cases hit
    exact Bool.eq_false_iff.2 plain
  | case5 p kind seen other passes ih => exact ih hit
  | case6 p kind seen other stops => cases hit

/-- The name is a word, and no group belongs to it. -/
theorem reading_name (shows : v.Shows) (reads : v.reading = some r) (named : r.pivot = some pivot) :
    v.kind? pivot = some .identifier ∧ v.isCallShaped pivot = false := by
  obtain ⟨_, _, found, _⟩ := reading_parts reads named
  exact ⟨(pivot_from_path shows found).1, pivot_from_plain found⟩

/-- The specifiers end at the base, or behind the name when the name is the last word of them. -/
theorem specifiers_stop_cases (shows : v.Shows) (reads : v.reading = some r) (named : r.pivot = some pivot) :
    ∃ stop word, v.specifiersFrom false none 0 = .ok (stop, word) ∧
      (stop = r.base ∨ stop = pivot + 1 ∧ r.base = pivot) := by
  obtain ⟨based, _⟩ := reading_parts reads named
  have bounds := reading_bounds shows reads named
  obtain ⟨stop, word, run, same | ⟨behind, identifier⟩⟩ := base_stop_cases based
  · exact ⟨stop, word, run, .inl same⟩
  · -- a word is not passed on the way to the name
    have last : r.base = pivot := by
      rcases Nat.lt_or_eq_of_le bounds.2.1 with before | last
      · rcases reading_path shows reads named r.base (Nat.le_refl _) before with
          star | ⟨kind, seen, qualifier⟩ | ⟨opens, _⟩
        · rw [identifier] at star
          cases star
        · rw [identifier] at seen
          cases seen
          cases qualifier
        · rw [identifier] at opens
          cases opens
      · exact last
    exact ⟨stop, word, run, .inr ⟨last ▸ behind, last⟩⟩

end DeclarationView

namespace TokenSeq

/-! ## The scan along a view -/

/-- Where the scan of the header `[start, stop)` stands in front of position `p` of its view: right
behind the token before. -/
def resume (ts : TokenSeq) (start stop : Nat) : Nat → Nat
  | 0 => start
  | p + 1 => (ts.declarationView start stop).sig.getD p 0 + 1

/-- What the scan finds from position `p` of the view on. -/
def parameterListAt (ts : TokenSeq) (start stop : Nat) (aggregate : Bool) (p : Nat) : Option Nat :=
  ts.parameterListFrom start stop aggregate (ts.resume start stop p)

section Scan

variable {ts : TokenSeq} {start stop p i q j : Nat} {kind : TokenKind}

theorem view_token (seen : (ts.declarationView start stop).kind? p = some kind) :
    ∃ i, (ts.declarationView start stop).sig[p]? = some i ∧ ts.kind? i = some kind :=
  DeclarationView.token_of_kind seen

theorem view_close (inside : stop ≤ ts.size) (hit : (ts.declarationView start stop).closeOf p = .ok q) :
    ∃ opening close, (ts.declarationView start stop).sig[p]? = some opening ∧
      (ts.declarationView start stop).sig[q]? = some close ∧
      ts.matchingClose opening stop = some close := by
  obtain ⟨opening, close, there, there', partner⟩ := DeclarationView.close_of_found hit
  refine ⟨opening, close, there, there', ?_⟩
  rwa [declarationView, Nat.min_eq_left inside] at partner

section There

variable (there : (ts.declarationView start stop).sig[p]? = some i)

include there

theorem view_kind : (ts.declarationView start stop).kind? p = ts.kind? i := by
  rw [DeclarationView.kind?, there]
  rfl

theorem view_spelling : (ts.declarationView start stop).spelling p = ts.spelling i := by
  rw [DeclarationView.spelling, there]
  rfl

theorem view_call_shaped (inside : stop ≤ ts.size) :
    (ts.declarationView start stop).isCallShaped p = ts.isCallShaped i stop := by
  rw [DeclarationView.isCallShaped, there, Option.any_some, declarationView, Nat.min_eq_left inside]

theorem view_stands : ts.Stands start stop i :=
  declarator_stands (Nat.le_refl start) (Nat.le_refl stop) i
    (List.mem_of_getElem? (by simpa [declarationView] using there))

theorem resume_behind : ts.resume start stop (p + 1) = i + 1 := by
  rw [resume, Array.getD_eq_getD_getElem?, there, Option.getD_some]

theorem parameter_list_behind (aggregate : Bool) :
    ts.parameterListAt start stop aggregate (p + 1) = ts.parameterListFrom start stop aggregate (i + 1) := by
  rw [parameterListAt, resume_behind there]

/-- The next token of the view is the next one that carries meaning. -/
theorem resume_next : ts.nextSignificant (ts.resume start stop p) stop = some i := by
  have inside : p < (ts.declarationView start stop).size := (Array.getElem?_eq_some_iff.1 there).1
  cases p with
  | zero =>
    obtain ⟨tail, split⟩ := ts.first_declarator_front 0 (ts.significant start stop)
    rw [declarationView, List.getElem?_toArray] at there
    obtain ⟨first, rest, tokens⟩ : ∃ first rest, ts.firstDeclarator 0 (ts.significant start stop) = first :: rest :=
      List.exists_cons_of_ne_nil fun empty => by simp [empty] at there
    rw [tokens] at there split
    cases there
    exact next_significant_cons.2 ⟨rest ++ tail, split⟩
  | succ p =>
    obtain ⟨before, place⟩ : ∃ j, (ts.declarationView start stop).sig[p]? = some j :=
      ⟨_, Array.getElem?_eq_getElem (Nat.lt_of_succ_lt inside)⟩
    obtain ⟨tail, rest⟩ := DeclarationView.significant_behind (ts.declaration_view_shows start stop) place
    rw [DeclarationView.slice_cons there inside] at rest
    rw [resume_behind place]
    exact next_significant_cons.2 ⟨_, (ts.significant_limit _ stop).symm.trans rest⟩

/-- The token of the view in front is the previous one that carries meaning. -/
theorem view_prev (next : (ts.declarationView start stop).sig[p + 1]? = some j) :
    ts.prevSignificant j start = some i := by
  have stands := view_stands there
  have follows := resume_next next
  rw [resume_behind there] at follows
  exact prev_significant_of_next stands.carries stands.above follows

end There

/-- The scan goes past white space and comments. -/
theorem scan_blank {aggregate : Bool} (follows : ts.nextSignificant i stop = some j) :
    ts.parameterListFrom start stop aggregate i = ts.parameterListFrom start stop aggregate j := by
  obtain ⟨ordered, below, carries, blank⟩ := next_significant_iff.1 follows
  have inside := lt_size_of_significant carries
  refine Position.skip_range ordered fun q lower upper => ?_
  rw [parameter_list_eq, if_pos (by omega)]
  rcases trivia_kind (show q < ts.size by omega) (blank q lower upper) with seen | seen
  · rw [seen]
    rfl
  · rw [seen]
    rfl

/-- What the scan goes past one by one. -/
def scansPast (kind : TokenKind) : Bool :=
  kind != .openBrace && kind != .openParen && kind != .semicolon

theorem scan_past (inside : i < stop) (seen : ts.kind? i = some kind) (past : scansPast kind = true)
    (aggregate : Bool) :
    ts.parameterListFrom start stop aggregate i =
      ts.parameterListFrom start stop (aggregate || kind.isAggregate) (i + 1) := by
  simp only [scansPast, Bool.and_eq_true, bne_iff_ne, ne_eq] at past
  obtain ⟨⟨notBrace, notParen⟩, notSemicolon⟩ := past
  rw [parameter_list_eq, if_pos inside, seen, Option.bind_some]
  simp only [beq_iff_eq, notBrace, notParen, notSemicolon, if_false]
  split
  · rename_i aggregates
    rw [aggregates, Bool.or_true]
  · rename_i other
    rw [Bool.eq_false_iff.2 other, Bool.or_false]

/-- The scan at a token of the view. -/
theorem scan_at (aggregate : Bool) (there : (ts.declarationView start stop).sig[p]? = some i) :
    i < stop ∧ ts.parameterListAt start stop aggregate p = ts.parameterListFrom start stop aggregate i := by
  have follows := resume_next there
  rw [parameterListAt, scan_blank follows]
  exact ⟨(next_significant_bounds follows).2.1, rfl⟩

theorem scan_paren (aggregate : Bool) (there : (ts.declarationView start stop).sig[p]? = some i)
    (opens : ts.kind? i = some .openParen) :
    ts.parameterListAt start stop aggregate p =
      if (ts.prevSignificant i start).any (ts.isFunctionName · stop) then some i
      else (ts.matchingClose i stop).bind fun close =>
        ts.parameterListFrom start stop aggregate (close + 1) := by
  obtain ⟨inside, scans⟩ := scan_at aggregate there
  rw [scans, parameter_list_eq, if_pos inside, opens]
  rfl

theorem scan_word (aggregate : Bool) (seen : (ts.declarationView start stop).kind? p = some kind)
    (past : scansPast kind = true) :
    ts.parameterListAt start stop aggregate p =
      ts.parameterListAt start stop (aggregate || kind.isAggregate) (p + 1) := by
  obtain ⟨i, there, isKind⟩ := view_token seen
  obtain ⟨inside, scans⟩ := scan_at aggregate there
  rw [scans, scan_past inside isKind past, parameter_list_behind there _]

/-- A word that takes a group is passed with its group: no parameter list follows it. -/
theorem scan_call_shaped (inside : stop ≤ ts.size) (aggregate : Bool)
    (seen : (ts.declarationView start stop).kind? p = some kind) (word : kind = .atomic ∨ kind = .identifier)
    (shaped : (ts.declarationView start stop).isCallShaped p = true)
    (hit : (ts.declarationView start stop).closeOf (p + 1) = .ok q) :
    ts.parameterListAt start stop aggregate p = ts.parameterListAt start stop aggregate (q + 1) := by
  obtain ⟨i, there, _⟩ := view_token seen
  obtain ⟨opening, close, next, there', partner⟩ := view_close inside hit
  rw [view_call_shaped there inside] at shaped
  have unnamed : ts.isFunctionName i stop = false := by
    rw [isFunctionName, shaped, Bool.not_true, Bool.and_false]
  have opens : ts.kind? opening = some .openParen := by
    have follows := resume_next next
    rw [resume_behind there] at follows
    rw [isCallShaped, follows] at shaped
    exact has_kind_iff.1 (Bool.and_eq_true_iff.1 shaped).2
  have past : scansPast kind = true ∧ kind.isAggregate = false := by
    rcases word with rfl | rfl <;> decide
  rw [scan_word aggregate seen past.1, past.2, Bool.or_false, scan_paren aggregate next opens,
    view_prev there next, parameter_list_behind there' _, Option.any_some, unnamed, partner]
  rfl

/-- The body of an aggregate is passed as a whole behind the keyword. -/
theorem scan_body (inside : stop ≤ ts.size) (opens : (ts.declarationView start stop).kind? p = some .openBrace)
    (hit : (ts.declarationView start stop).closeOf p = .ok q) :
    ts.parameterListAt start stop true p = ts.parameterListAt start stop false (q + 1) := by
  obtain ⟨opening, close, there, there', partner⟩ := view_close inside hit
  rw [view_kind there] at opens
  obtain ⟨before, scans⟩ := scan_at true there
  rw [scans, parameter_list_eq, if_pos before, opens, parameter_list_behind there' _]
  simp [TokenKind.isAggregate, partner]

theorem scan_aggregate (aggregate : Bool) (seen : (ts.declarationView start stop).kind? p = some kind)
    (aggregates : kind.isAggregate = true) :
    ts.parameterListAt start stop aggregate p =
      ts.parameterListAt start stop true ((ts.declarationView start stop).aggregateBody p) := by
  have past : scansPast kind = true := by
    revert aggregates
    cases kind <;> decide
  rw [scan_word aggregate seen past, aggregates, Bool.or_true, DeclarationView.aggregateBody]
  split
  · rename_i tagged
    have tag : (ts.declarationView start stop).kind? (p + 1) = some .identifier :=
      eq_of_beq (Bool.and_eq_true_iff.1 tagged).1
    exact scan_word true tag rfl
  · rfl

/-- The scan comes to where the specifiers end. -/
theorem scan_specifiers (inside : stop ≤ ts.size) {typed : Bool} {word word' : Option (Nat × Bool)} (aggregate : Bool)
    (hit : (ts.declarationView start stop).specifiersFrom typed word p = .ok (q, word')) :
    ∃ aggregate', ts.parameterListAt start stop aggregate p = ts.parameterListAt start stop aggregate' q := by
  fun_induction DeclarationView.specifiersFrom (ts.declarationView start stop) typed word p
    generalizing aggregate with
  | case1 typed word p missing =>
    cases hit
    exact ⟨aggregate, rfl⟩
  | case2 typed word p kind seen aggregates body reason closes => cases hit
  | case3 typed word p kind seen aggregates body close closes ih =>
    rw [scan_aggregate aggregate seen aggregates, scan_body inside (eq_of_beq body) closes]
    exact ih false hit
  | case4 typed word p kind seen aggregates noBody ih =>
    rw [scan_aggregate aggregate seen aggregates]
    exact ih true hit
  | case5 typed word p kind seen other shaped reason closes => cases hit
  | case6 typed word p kind seen other shaped close closes namesType =>
    rename_i ih
    obtain ⟨takesGroup, shape⟩ := Bool.and_eq_true_iff.1 shaped
    simp only [Bool.or_eq_true, beq_iff_eq] at takesGroup
    rw [scan_call_shaped inside aggregate seen takesGroup shape closes]
    exact ih aggregate hit
  | case7 typed word p kind seen other unshaped identifier ih =>
    obtain rfl := beq_iff_eq.1 identifier
    rw [scan_word aggregate seen rfl]
    exact ih _ hit
  | case8 typed word p kind seen other unshaped notIdentifier complex ih =>
    obtain rfl := beq_iff_eq.1 complex
    rw [scan_word aggregate seen rfl]
    exact ih _ hit
  | case9 typed word p kind seen other unshaped notIdentifier notComplex keyword ih =>
    have past : scansPast kind = true := by
      revert keyword
      cases kind <;> decide
    rw [scan_word aggregate seen past]
    exact ih _ hit
  | case10 typed word p kind seen other unshaped notIdentifier notComplex notKeyword =>
    cases hit
    exact ⟨aggregate, rfl⟩

/-! ## The declarator -/

/-- A bracket that opens right behind a token of the first declarator belongs to it. -/
theorem first_declarator_opener {depth : Int} {tokens front rest : List Nat} {i : Nat}
    (split : tokens = front ++ i :: rest) (opens : ts.kindIs i TokenKind.isOpener = true)
    (reaches : front.length ≤ (ts.firstDeclarator depth tokens).length) :
    (ts.firstDeclarator depth tokens)[front.length]? = some i := by
  fun_induction firstDeclarator ts depth tokens generalizing front with
  | case1 depth => simp at split
  | case2 depth j behind opener ih =>
    rcases front with _ | ⟨first, front⟩
    · cases split
      rfl
    · cases split
      exact ih rfl (Nat.le_of_succ_le_succ reaches)
  | case3 depth j behind notOpener closes ih =>
    rcases front with _ | ⟨first, front⟩
    · cases split
      exact absurd opens notOpener
    · cases split
      exact ih rfl (Nat.le_of_succ_le_succ reaches)
  | case4 depth j behind notOpener notCloser ends =>
    rcases front with _ | ⟨first, front⟩
    · cases split
      exact absurd opens notOpener
    · exact absurd reaches (Nat.not_succ_le_zero _)
  | case5 depth j behind notOpener notCloser goesOn ih =>
    rcases front with _ | ⟨first, front⟩
    · cases split
      exact absurd opens notOpener
    · cases split
      exact ih rfl (Nat.le_of_succ_le_succ reaches)

/-- A parenthesis right behind a token of the view is the next token of the view. -/
theorem view_opener {opening : Nat} (there : (ts.declarationView start stop).sig[p]? = some i)
    (follows : ts.nextSignificant (i + 1) stop = some opening) (opens : ts.kind? opening = some .openParen) :
    (ts.declarationView start stop).sig[p + 1]? = some opening := by
  obtain ⟨tail, whole⟩ := ts.first_declarator_front 0 (ts.significant start stop)
  rw [declarationView, List.getElem?_toArray] at there ⊢
  obtain ⟨inside, at_p⟩ := List.getElem?_eq_some_iff.1 there
  have place : (ts.significant start stop)[p]? = some i := by
    rw [whole, List.getElem?_append_left inside, there]
  obtain ⟨within, here⟩ := List.getElem?_eq_some_iff.1 place
  have split := List.take_append_drop p (ts.significant start stop)
  rw [List.drop_eq_getElem_cons within, here] at split
  have behind := significant_after split.symm
  obtain ⟨rest, shown⟩ := next_significant_cons.1 follows
  rw [← behind, shown, ← List.singleton_append, ← List.append_assoc] at split
  have length : ((ts.significant start stop).take p ++ [i]).length = p + 1 := by
    simp [Nat.min_eq_left (Nat.le_of_lt within)]
  have result := @first_declarator_opener ts 0 _ _ rest opening split.symm
    (kind_is_iff.2 ⟨_, opens, rfl⟩) (by rw [length]; exact inside)
  rwa [length] at result

/-- Stars and qualifiers are passed. -/
theorem scan_pointers (aggregate : Bool) (ordered : p ≤ q)
    (path : ∀ k, p ≤ k → k < q → (ts.declarationView start stop).kind? k = some .star ∨
      (ts.declarationView start stop).IsQualifierAt k) :
    ts.parameterListAt start stop aggregate p = ts.parameterListAt start stop aggregate q := by
  obtain ⟨count, rfl⟩ := Nat.exists_eq_add_of_le ordered
  induction count generalizing p with
  | zero => rfl
  | succ count ih =>
    obtain ⟨kind, seen, past, other⟩ : ∃ kind, (ts.declarationView start stop).kind? p = some kind ∧
        scansPast kind = true ∧ kind.isAggregate = false := by
      rcases path p (Nat.le_refl p) (by omega) with star | ⟨kind, seen, qualifier⟩
      · exact ⟨_, star, rfl, rfl⟩
      · refine ⟨kind, seen, ?_⟩
        revert qualifier
        cases kind <;> decide
    have next : p + (count + 1) = p + 1 + count := by omega
    rw [scan_word aggregate seen past, other, Bool.or_false, next]
    exact ih (by omega) fun k lower upper => path k (by omega) (by omega)

/-- What carries meaning up to a token of the view is in the view. -/
theorem view_member (there : (ts.declarationView start stop).sig[p]? = some j) (above : start ≤ i) (upto : i ≤ j)
    (carries : ts.isSignificant i = true) : ∃ k, k ≤ p ∧ (ts.declarationView start stop).sig[k]? = some i := by
  have sorted : (ts.significant start stop).Pairwise (· < ·) := List.Pairwise.filter _ List.pairwise_lt_range'
  have listed : j ∈ ts.firstDeclarator 0 (ts.significant start stop) :=
    List.mem_of_getElem? (by simpa [declarationView] using there)
  have bound := lt_size_of_significant carries
  have below := (view_stands there).below
  have member : i ∈ ts.significant start stop := List.mem_filter.2 ⟨Position.mem_range.2 ⟨above, by omega⟩, carries⟩
  obtain ⟨tail, split⟩ := ts.first_declarator_front 0 (ts.significant start stop)
  rw [split] at member sorted
  rcases Nat.lt_or_eq_of_le upto with before | rfl
  · rcases List.mem_append.1 member with shown | behind
    · obtain ⟨k, at_k⟩ := List.mem_iff_getElem?.1 shown
      have at_k : (ts.declarationView start stop).sig[k]? = some i := by
        rw [declarationView, List.getElem?_toArray]
        exact at_k
      rcases Nat.lt_or_ge k p with inFront | behind
      · exact ⟨k, Nat.le_of_lt inFront, at_k⟩
      · exact absurd (view_ordered behind there at_k) (by omega)
    · exact absurd ((List.pairwise_append.1 sorted).2.2 j listed i behind) (by omega)
  · exact ⟨p, Nat.le_refl p, there⟩

end Scan

/-- Whether the name that the header `[start, stop)` declares stands in no group, with a parenthesis
behind it that can open its parameters. -/
def declaresPlainly (ts : TokenSeq) (start stop : Nat) : Bool :=
  let v := ts.declarationView start stop
  v.reading.any fun r => r.pivot.any fun pivot =>
    (Position.range r.base pivot).all (!v.hasKind · .openParen) && v.hasKind (pivot + 1) .openParen &&
      !Word.isBuiltinType (v.spelling pivot)

section Readers

variable {ts : TokenSeq} {start stop : Nat} {r : DeclarationView.Reading} {pivot name : Nat}
  (inside : stop ≤ ts.size) (reads : (ts.declarationView start stop).reading = some r)
  (named : r.pivot = some pivot) (there : (ts.declarationView start stop).sig[pivot]? = some name)

include reads named in
theorem declares_plainly_iff :
    ts.declaresPlainly start stop = true ↔
      (∀ p, r.base ≤ p → p < pivot → (ts.declarationView start stop).kind? p ≠ some .openParen) ∧
        (ts.declarationView start stop).kind? (pivot + 1) = some .openParen ∧
        Word.isBuiltinType ((ts.declarationView start stop).spelling pivot) = false := by
  simp only [declaresPlainly, reads, named, Option.any_some, Bool.and_eq_true, List.all_eq_true,
    Position.mem_range, Bool.not_eq_true', DeclarationView.hasKind, beq_eq_false_iff_ne, beq_iff_eq,
    and_imp, and_assoc]

include reads named in
/-- On the way to the name, only a parenthesis is no part of a pointer. -/
theorem path_pointers {q : Nat} (upper : q ≤ pivot)
    (ungrouped : ∀ p, r.base ≤ p → p < q → (ts.declarationView start stop).kind? p ≠ some .openParen) :
    ∀ p, r.base ≤ p → p < q → (ts.declarationView start stop).kind? p = some .star ∨
      (ts.declarationView start stop).IsQualifierAt p := by
  intro p lower before
  rcases DeclarationView.reading_path (ts.declaration_view_shows start stop) reads named p lower (by omega)
    with star | qualifier | ⟨opens, _⟩
  · exact .inl star
  · exact .inr qualifier
  · exact absurd opens (ungrouped p lower before)

include inside reads named in
/-- The scan passes a name that stands in no group. -/
theorem scan_past_name (ungrouped : ∀ p, r.base ≤ p → p < pivot →
      (ts.declarationView start stop).kind? p ≠ some .openParen) :
    ∃ aggregate, ts.parameterList? start stop =
      ts.parameterListAt start stop aggregate (pivot + 1) := by
  have shows := ts.declaration_view_shows start stop
  have bounds := DeclarationView.reading_bounds shows reads named
  obtain ⟨identifier, _⟩ := DeclarationView.reading_name shows reads named
  obtain ⟨_, _, run, rfl | ⟨rfl, _⟩⟩ := DeclarationView.specifiers_stop_cases shows reads named
  · obtain ⟨aggregate, scans⟩ := scan_specifiers inside false run
    have pointers := path_pointers reads named (Nat.le_refl pivot) ungrouped
    rw [scan_pointers aggregate bounds.2.1 pointers, scan_word aggregate identifier rfl] at scans
    exact ⟨_, scans⟩
  · exact scan_specifiers inside false run

include inside reads named in
/-- The scan comes to the first group on the way to the name. -/
theorem scan_to_group {q : Nat} (lower : r.base ≤ q) (upper : q < pivot)
    (first : ∀ p, r.base ≤ p → p < q → (ts.declarationView start stop).kind? p ≠ some .openParen) :
    ∃ aggregate, ts.parameterList? start stop =
      ts.parameterListAt start stop aggregate q := by
  obtain ⟨_, _, run, rfl | ⟨_, last⟩⟩ :=
    DeclarationView.specifiers_stop_cases (ts.declaration_view_shows start stop) reads named
  · obtain ⟨aggregate, scans⟩ := scan_specifiers inside false run
    refine ⟨aggregate, scans.trans ?_⟩
    exact scan_pointers aggregate lower (path_pointers reads named (Nat.le_of_lt upper) first)
  · omega

include reads named there in
/-- A group on the way to the name closes behind it. -/
theorem group_encloses {q opening close : Nat} (lower : r.base ≤ q)
    (at_q : (ts.declarationView start stop).sig[q]? = some opening) (opens : ts.kind? opening = some .openParen)
    (closes : ts.matchingClose opening stop = some close) : name < close := by
  have shows := ts.declaration_view_shows start stop
  obtain ⟨identifier, _⟩ := DeclarationView.reading_name shows reads named
  have closer : ts.kind? close = some .closeParen := by
    rw [@matching_close_eq ts .paren opening opens] at closes
    obtain ⟨_, _, _, _, closer⟩ := close_in_found closes
    exact closer
  have bounds := matching_close_bounds closes
  have starts := (view_stands at_q).above
  rcases Nat.lt_or_ge name close with behind | before
  · exact behind
  · -- the closing parenthesis would stand on the way to the name, or be the name
    obtain ⟨k, upto, at_k⟩ := view_member there (by omega) before (matching_close_significant closes)
    have seen := (view_kind at_k).trans closer
    have above : q < k := by
      rcases Nat.lt_or_ge q k with above | below
      · exact above
      · exact absurd (view_ordered below at_k at_q) (by omega)
    rcases Nat.lt_or_eq_of_le upto with onPath | rfl
    · rcases DeclarationView.reading_path shows reads named k (by omega) onPath with
        star | ⟨kind, isKind, qualifier⟩ | ⟨opener, _⟩
      · rw [seen] at star
        cases star
      · rw [seen] at isKind
        cases isKind
        cases qualifier
      · rw [seen] at opener
        cases opener
    · rw [seen] at identifier
      cases identifier

include inside reads named there in
/-- The name is taken from a header that declares it plainly. -/
theorem header_name_plain {h : Header} (plain : ts.declaresPlainly start stop = true)
    (taken : ts.header start stop = .ok h) : h.nameToken = name := by
  obtain ⟨ungrouped, opens, free⟩ := (declares_plainly_iff reads named).1 plain
  obtain ⟨identifier, unshaped⟩ := DeclarationView.reading_name (ts.declaration_view_shows start stop) reads named
  obtain ⟨opening, next, isOpener⟩ := view_token opens
  obtain ⟨aggregate, scans⟩ := scan_past_name inside reads named ungrouped
  have prev := view_prev there next
  have isName : ts.isFunctionName name stop = true := by
    rw [view_kind there] at identifier
    rw [view_call_shaped there inside] at unshaped
    rw [view_spelling there] at free
    rw [isFunctionName, has_kind_iff.2 identifier, free, unshaped]
    rfl
  have list : ts.parameterList? start stop = some opening := by
    rw [scans, scan_paren aggregate next isOpener, prev, Option.any_some, if_pos isName]
  obtain ⟨opening', name', _, _, _, _, list', prev', _, _, _, rfl⟩ := header_ok_iff.1 taken
  obtain rfl : opening = opening' := Option.some.inj (list.symm.trans list')
  exact (Option.some.inj (prev.symm.trans (Option.filter_eq_some_iff.1 prev').1)).symm

include inside reads named there in
/-- A header that does not declare its name plainly gives another one: a name behind, or one in front,
and then the group around the declared name is taken for the parameters. -/
theorem header_name_other {h : Header} (grouped : ts.declaresPlainly start stop = false)
    (taken : ts.header start stop = .ok h) :
    name < h.nameToken ∨ h.nameToken < name ∧ h.paramsOpen < name ∧ name < h.paramsClose := by
  have shows := ts.declaration_view_shows start stop
  obtain ⟨identifier, _⟩ := DeclarationView.reading_name shows reads named
  rw [view_kind there] at identifier
  obtain ⟨opening, name', close, _, _, _, list, prev', _, closes, _, rfl⟩ := header_ok_iff.1 taken
  obtain ⟨prev, _⟩ := Option.filter_eq_some_iff.1 prev'
  have before := prev_significant_bounds prev
  dsimp only
  cases group : Position.firstIn? ((ts.declarationView start stop).hasKind · .openParen) r.base pivot with
  | none =>
    have ungrouped : ∀ p, r.base ≤ p → p < pivot →
        (ts.declarationView start stop).kind? p ≠ some .openParen := fun p lower upper =>
      beq_eq_false_iff_ne.1 (Position.first_none group lower upper)
    obtain ⟨aggregate, scans⟩ := scan_past_name inside reads named ungrouped
    rw [list, parameter_list_behind there aggregate] at scans
    have behind := parameter_list_bounds scans.symm
    have upto := le_prev_significant prev (significant_of_kind identifier rfl) behind.1
    rcases Nat.lt_or_eq_of_le upto with later | rfl
    · exact .inl later
    · -- right behind the declared name, the parenthesis makes the header a plain one
      obtain ⟨opens, isName⟩ := parameter_list_named list
      have follows : ts.nextSignificant (name + 1) stop = some opening :=
        next_significant_iff.2 ⟨behind.1, behind.2, significant_of_kind opens rfl,
          (prev_significant_iff.1 prev).2.2.2⟩
      rw [prev, Option.any_some, isFunctionName] at isName
      have plain := (declares_plainly_iff reads named).2 ⟨ungrouped,
        (view_kind (view_opener there follows opens)).trans opens, by
          rw [view_spelling there]
          simp at isName
          exact isName.1.2⟩
      rw [plain] at grouped
      cases grouped
  | some q =>
    obtain ⟨lower, upper, opens, first⟩ := Position.first_iff.1 group
    obtain ⟨token, at_q, isOpener⟩ := view_token (eq_of_beq opens)
    obtain ⟨aggregate, scans⟩ := scan_to_group inside reads named lower upper fun p low high =>
      beq_eq_false_iff_ne.1 (first p low high)
    rw [list, scan_paren aggregate at_q isOpener] at scans
    split at scans
    · cases scans
      have ordered := view_ordered (Nat.le_of_lt upper) at_q there
      have apart : opening ≠ name := by
        rintro rfl
        rw [identifier] at isOpener
        cases isOpener
      exact .inr ⟨by omega, by omega, group_encloses reads named there lower at_q isOpener closes⟩
    · obtain ⟨last, closing, behind⟩ := Option.bind_eq_some_iff.1 scans.symm
      have encloses := group_encloses reads named there lower at_q isOpener closing
      have bounds := parameter_list_bounds behind
      have upto := le_prev_significant prev (matching_close_significant closing) bounds.1
      exact .inl (by omega)

end Readers

/-! ## Functions -/

/-- A name that is declared has its place in the reading of the view. -/
theorem declared_reading {ts : TokenSeq} {start stop : Nat} {d : Declaration} {word : String} {name : Nat}
    (read : ts.declaration start stop = .ok d) (declares : d.name = some (word, name)) :
    ∃ r pivot, (ts.declarationView start stop).reading = some r ∧ r.pivot = some pivot ∧
      (ts.declarationView start stop).sig[pivot]? = some name ∧ word = ts.spelling name := by
  have found := ts.declaration_view start stop
  rw [read] at found
  have result := (ts.declarationView start stop).read_reading
  rw [← found] at result
  obtain ⟨r, reads, parts⟩ := Option.map_eq_some_iff.1 result.symm
  obtain ⟨pivot, named, texts⟩ := Option.map_eq_some_iff.1 ((Prod.mk.inj parts).1.trans declares)
  have bounds := DeclarationView.reading_bounds (ts.declaration_view_shows start stop) reads named
  have there : (ts.declarationView start stop).sig[pivot]? = some name := by
    rw [← (Prod.mk.inj texts).2, Array.getD_eq_getD_getElem?,
      Array.getElem?_eq_getElem (show pivot < (ts.declarationView start stop).sig.size from bounds.2.2)]
    rfl
  exact ⟨r, pivot, reads, named, there, (Prod.mk.inj texts).1.symm.trans (view_spelling there)⟩

/-- A function has the name that its header declares. -/
theorem function_declared {ts : TokenSeq} {entryPoint : String} {items : List Item} {f : Function}
    (member : f ∈ ts.functionsOf entryPoint items) :
    ∃ d name, ts.declaration f.start f.body = .ok d ∧ d.name = some (f.name, name) := by
  obtain ⟨item, _, reads⟩ := functions_of_item member
  simp only [function?, Option.bind_eq_bind, Option.bind_eq_some_iff] at reads
  obtain ⟨body, _, d, declared, ⟨word, name⟩, named, _, _, made⟩ := reads
  cases made
  exact ⟨d, name, to_option_some.1 declared, named⟩

/-- The header of a function, taken apart, gives the token of the name that it declares, and so the
name of the function, exactly if that name stands in no group and a parenthesis follows it that can
open its parameters. Otherwise it gives a name that stands behind, or one in front, and then the group
around the declared name is taken for the parameters. -/
theorem header_names_declared {ts : TokenSeq} {settings : Settings} {f : FunctionNode} {h : Header}
    (member : f ∈ (ts.analyse settings).graph.nodes) (taken : ts.header f.start f.body = .ok h) :
    ∃ d name, ts.declaration f.start f.body = .ok d ∧ d.name = some (f.name, name) ∧
      (h.nameToken = name ↔ ts.declaresPlainly f.start f.body = true) ∧
      (h.nameToken = name → h.name = f.name) ∧
      (h.nameToken < name → h.paramsOpen < name ∧ name < h.paramsClose) := by
  obtain ⟨d, name, read, declares⟩ := function_declared (node_function member)
  have placed := functions_of_placed (node_function member)
  have inside : f.body ≤ ts.size := Nat.le_trans (Nat.le_of_lt placed.body_lt) placed.stop_le
  obtain ⟨r, pivot, reads, named, there, spelled⟩ := declared_reading read declares
  refine ⟨d, name, read, declares, ?_⟩
  cases plain : ts.declaresPlainly f.start f.body with
  | true =>
    have same := header_name_plain inside reads named there plain taken
    refine ⟨by simp [same], fun _ => ?_, fun before => by omega⟩
    obtain ⟨_, _, _, _, _, _, _, _, _, _, _, rfl⟩ := header_ok_iff.1 taken
    rw [spelled]
    exact congrArg ts.spelling same
  | false =>
    have other := header_name_other inside reads named there plain taken
    exact ⟨⟨fun same => by omega, Bool.noConfusion⟩, fun same => by omega, fun before => by omega⟩

/-- A return type that defines an aggregate, with stars and a qualifier in front of the name. -/
theorem header_names_declared_aggregate :
    let ts := ofSource
      "static struct point \x7b int x; \x7d *const *origin(void) \x7b return malloc(1); \x7d\n"
    let f : FunctionNode :=
      ⟨⟨"origin", 0, 24, 35, false, true, "struct point \x7b int x; \x7d *const *", false⟩, true, []⟩
    let h : Header := ⟨0, "struct point \x7b int x; \x7d; static ", 19, "origin",
      "struct point *const *", 20, 22, "void"⟩
    f ∈ (ts.analyse {}).graph.nodes ∧ ts.header f.start f.body = .ok h ∧
      ts.declaresPlainly f.start f.body = true ∧
      ∃ d name, ts.declaration f.start f.body = .ok d ∧ d.name = some (f.name, name) ∧
        (h.nameToken = name ↔ ts.declaresPlainly f.start f.body = true) ∧
        (h.nameToken = name → h.name = f.name) ∧
        (h.nameToken < name → h.paramsOpen < name ∧ name < h.paramsClose) := by
  intro ts f h
  obtain ⟨member, found, plain⟩ : f ∈ (ts.analyse {}).graph.nodes ∧
      (ts.header f.start f.body).toOption = some h ∧ ts.declaresPlainly f.start f.body = true := by
    decide +kernel
  have taken := to_option_some.1 found
  exact ⟨member, taken, plain, header_names_declared member taken⟩

/-- A function that returns a pointer to a function. Its name stands in a group behind the tag of a
structure, so the tag is taken for the name, and the new header declares another function. -/
theorem tag_taken_for_name :
    let ts := ofSource "struct s (*f(void))(int) \x7b malloc(1); return 0; \x7d\n"
    let f : FunctionNode := ⟨⟨"f", 0, 15, 29, false, true, "struct s (*", false⟩, true, []⟩
    (ts.analyse {}).graph.nodes = [f] ∧
      (ts.declaration f.start f.body).toOption.bind (·.name) = some ("f", 6) ∧
      (ts.header f.start f.body).toOption.map (fun h => (h.name, h.nameToken)) = some ("s", 2) ∧
      (ts.reshape f.toFunction "out").toOption.map (·.2) =
        some (some ⟨0, 11, "int s(*f(void), struct *out)"⟩) := by
  decide +kernel

-- a builtin word does not name a function, so the scan passes the group and finds nothing
example :
    let ts := ofSource "int (*f(void))(int) \x7b malloc(1); return 0; \x7d\n"
    (ts.declaration 0 13).toOption.bind (·.name) = some ("f", 4) ∧
      (ts.header 0 13).toOption = none := by
  decide +kernel

end TokenSeq

end AllocGuard
