import AllocGuard.Proofs.CallEdits
import AllocGuard.Proofs.GuardSubjects

/-! What the form of a site says about its place. A region of the text is cut into
statements at its edges: every `;` and every `:` outside parentheses, `else` and `do`, and
the parenthesis that closes the head of a control statement. A call that stands right
behind an edge, with a `;` right behind it, is one whose result is dropped; an lvalue that
does not stand right behind an edge is taken for one that is declared there. The rule knows
neither the `?` that a `:` may belong to nor the word `return`, so an operand of a
conditional expression passes for a statement, and a returned assignment for a
declaration. -/
namespace AllocGuard

namespace TokenSeq

variable {ts : TokenSeq} {i floor close start count left stop semi : Nat}

/-! ## Edges -/

/-- Something ends with the token at `i`, outside all parentheses of the region, so that a
statement may start behind it. It is marked whether that is the body of a control
statement. -/
inductive Edge (ts : TokenSeq) (region i : Nat) : Bool → Prop where
  | semicolon (seen : ts.kind? i = some .semicolon) (outside : ts.parensAt region i = []) :
      Edge ts region i false
  | colon (seen : ts.kind? i = some .colon) (outside : ts.parensAt region i = []) :
      Edge ts region i false
  | word (seen : ts.isIdent i "else" = true ∨ ts.isIdent i "do" = true)
      (outside : ts.parensAt region i = []) : Edge ts region i true
  | head {opening : Nat} (seen : ts.kind? i = some .closeParen)
      (closes : ts.parensAt region i = [opening])
      (control : ts.opensControlHead opening region = true) : Edge ts region i true

/-- A statement of the region starts with the token at `start` and goes on up to `stop`:
there is an edge, or nothing at all, right in front of it, and none inside it. -/
structure StartsStatement (ts : TokenSeq) (region start stop : Nat) : Prop where
  front : ∀ p, ts.prevSignificant start region = some p → ∃ controlled, ts.Edge region p controlled
  inside : ∀ e, start ≤ e → e < stop → ∀ controlled, ¬ ts.Edge region e controlled

theorem ident_kind {name : String} (seen : ts.isIdent i name = true) :
    ts.kind? i = some .identifier ∧ ts.spelling i = name := by
  simpa [isIdent, has_kind_iff] using seen

section Scan

variable {ts : TokenSeq} {region : Nat} {scan : RegionScan} {controlled : Bool}

theorem edge_significant (edge : ts.Edge region i controlled) : ts.isSignificant i = true := by
  cases edge with
  | semicolon seen _ => exact significant_of_kind seen rfl
  | colon seen _ => exact significant_of_kind seen rfl
  | word seen _ =>
    rcases seen with seen | seen
    · exact significant_of_kind (ident_kind seen).1 rfl
    · exact significant_of_kind (ident_kind seen).1 rfl
  | head seen _ _ => exact significant_of_kind seen rfl

/-- An edge is what the scan remembers from there on. -/
theorem region_next_at_edge (parens : scan.parens = ts.parensAt region i) (edge : ts.Edge region i controlled) :
    (RegionScan.next ts region scan i).edge = some (i, controlled) := by
  cases edge with
  | semicolon seen outside => simp [RegionScan.next, seen, parens, outside]
  | colon seen outside => simp [RegionScan.next, seen, parens, outside]
  | word seen outside =>
    have identifier : ts.kind? i = some .identifier := by
      rcases seen with seen | seen
      · exact (ident_kind seen).1
      · exact (ident_kind seen).1
    have either : (ts.isIdent i "else" || ts.isIdent i "do") = true := by simpa using seen
    simp [RegionScan.next, identifier, parens, outside, either]
  | head seen closes control => simp [RegionScan.next, seen, parens, closes, control]

/-- Every other token leaves what the scan remembers as it is. -/
theorem region_next_inside (parens : scan.parens = ts.parensAt region i)
    (none : ∀ controlled, ¬ ts.Edge region i controlled) : (RegionScan.next ts region scan i).edge = scan.edge := by
  rw [RegionScan.next]
  split
  · rfl
  · rfl
  · rename_i opening seen single
    have control : ts.opensControlHead opening region ≠ true := fun control =>
      none true (.head seen (parens.symm.trans single) control)
    simp [control]
  · rfl
  · rename_i seen empty
    exact absurd (.semicolon seen (parens.symm.trans empty)) (none false)
  · rename_i seen empty
    exact absurd (.colon seen (parens.symm.trans empty)) (none false)
  · rename_i seen empty
    split
    · rename_i either
      have isWord : ts.isIdent i "else" = true ∨ ts.isIdent i "do" = true := by simpa using either
      exact absurd (.word isWord (parens.symm.trans empty)) (none true)
    · rfl
  · rfl

/-- What a scan of the tokens in front of `i` has seen. -/
def scanTo (ts : TokenSeq) (region i : Nat) : RegionScan :=
  (Position.range region i).foldl (RegionScan.next ts region) ⟨[], none⟩

theorem call_context_eq (ts : TokenSeq) (call floor : Nat) :
    ts.callContext call floor =
      let region := (ts.callContext call floor).region
      let edge := (ts.scanTo region call).edge
      { region
        parens := (ts.scanTo region call).parens
        statement := (ts.nextSignificant ((edge.map (·.1 + 1)).getD region) (call + 1)).getD call
        controlled := (edge.map (·.2)).getD false } := rfl

theorem scan_to_parens (ts : TokenSeq) (region i : Nat) : (ts.scanTo region i).parens = ts.parensAt region i :=
  ts.scan_parens region _ _

theorem scan_to_succ (above : region ≤ i) :
    ts.scanTo region (i + 1) = RegionScan.next ts region (ts.scanTo region i) i := by
  rw [scanTo, Position.range_append above (Nat.le_succ i), Position.range_single, List.foldl_append]
  rfl

/-- The scan ends with the last edge that it passed, if it passed any. -/
theorem scan_to_edge (ts : TokenSeq) (above : region ≤ i) :
    (∃ e controlled, (ts.scanTo region i).edge = some (e, controlled) ∧ region ≤ e ∧ e < i ∧
        ts.Edge region e controlled ∧
        ∀ q, e < q → q < i → ∀ controlled, ¬ ts.Edge region q controlled) ∨
      (ts.scanTo region i).edge = none ∧
        ∀ q, region ≤ q → q < i → ∀ controlled, ¬ ts.Edge region q controlled := by
  induction above with
  | refl =>
    right
    refine ⟨?_, by omega⟩
    rw [scanTo, Position.range, Nat.sub_self]
    rfl
  | @step i above ih =>
    rw [scan_to_succ above]
    have parens := ts.scan_to_parens region i
    by_cases here : ∃ controlled, ts.Edge region i controlled
    · obtain ⟨controlled, edge⟩ := here
      exact .inl ⟨i, controlled, region_next_at_edge parens edge, above, Nat.lt_succ_self i, edge, by omega⟩
    · have none : ∀ controlled, ¬ ts.Edge region i controlled := fun controlled edge =>
        here ⟨controlled, edge⟩
      rw [region_next_inside parens none]
      have last {q : Nat} (below : q < i + 1) (earlier : q < i → ∀ controlled, ¬ ts.Edge region q controlled) :
          ∀ controlled, ¬ ts.Edge region q controlled := by
        by_cases same : q = i
        · subst same
          exact none
        · exact earlier (by omega)
      rcases ih with ⟨e, controlled, seen, lower, upper, edge, rest⟩ | ⟨seen, rest⟩
      · exact .inl ⟨e, controlled, seen, lower, by omega, edge, fun q behind below => last below (rest q behind)⟩
      · exact .inr ⟨seen, fun q behind below => last below (rest q behind)⟩

end Scan

/-! ## Statements -/

section Statement

variable {ts : TokenSeq} {call floor : Nat}

/-- The statement that the context of a call tells is the one that the edges tell. -/
theorem call_context_starts (above : floor ≤ call) (carries : ts.isSignificant call = true) :
    (ts.callContext call floor).region ≤ (ts.callContext call floor).statement ∧
      (ts.callContext call floor).statement ≤ call ∧
      ts.isSignificant (ts.callContext call floor).statement = true ∧
      ts.StartsStatement (ts.callContext call floor).region (ts.callContext call floor).statement
        call := by
  have within : (ts.callContext call floor).region ≤ call := call_context_region above
  have statement : (ts.callContext call floor).statement =
      (ts.nextSignificant (((ts.scanTo (ts.callContext call floor).region call).edge.map (·.1 + 1)).getD
        (ts.callContext call floor).region) (call + 1)).getD call := rfl
  generalize (ts.callContext call floor).statement = start at statement ⊢
  generalize (ts.callContext call floor).region = region at statement within ⊢
  -- the call itself carries meaning, so the search for the first token finds one
  have search {from' : Nat} (before : from' ≤ call) :
      ∃ s, ts.nextSignificant from' (call + 1) = some s ∧ from' ≤ s ∧ s ≤ call ∧
        ts.isSignificant s = true ∧ ∀ q, from' ≤ q → q < s → ts.isSignificant q = false := by
    cases next : ts.nextSignificant from' (call + 1) with
    | none =>
      have blank := next_significant_none next before (Nat.lt_succ_self call)
      rw [carries] at blank
      cases blank
    | some s =>
      obtain ⟨lower, upper, meaning, trivia⟩ := next_significant_iff.1 next
      exact ⟨s, rfl, lower, by omega, meaning, trivia⟩
  rcases ts.scan_to_edge within with ⟨e, controlled, seen, lower, upper, edge, rest⟩ | ⟨seen, rest⟩
  · obtain ⟨s, next, after, before, meaning, trivia⟩ := search (show e + 1 ≤ call by omega)
    obtain rfl : start = s := by simpa [seen, next] using statement
    refine ⟨by omega, before, meaning, ⟨fun p precedes => ?_, fun q behind below => ?_⟩⟩
    · have isEdge : ts.prevSignificant start region = some e :=
        prev_significant_iff.2 ⟨lower, by omega, edge_significant edge, trivia⟩
      rw [isEdge] at precedes
      cases precedes
      exact ⟨controlled, edge⟩
    · exact rest q (by omega) below
  · obtain ⟨s, next, after, before, meaning, trivia⟩ := search within
    obtain rfl : start = s := by simpa [seen, next] using statement
    refine ⟨after, before, meaning, ⟨fun p precedes => ?_, fun q behind below => ?_⟩⟩
    · obtain ⟨above, below, isToken, _⟩ := prev_significant_iff.1 precedes
      rw [trivia p above below] at isToken
      cases isToken
    · exact rest q (by omega) below

/-- Only one statement of a region holds a token. -/
theorem starts_statement_unique {region one two stop : Nat} (lower : region ≤ one) (lower' : region ≤ two)
    (upper : one ≤ stop) (upper' : two ≤ stop) (carries : ts.isSignificant one = true)
    (carries' : ts.isSignificant two = true) (starts : ts.StartsStatement region one stop)
    (starts' : ts.StartsStatement region two stop) : one = two := by
  have not_before {one two : Nat} (lower : region ≤ one) (upper : two ≤ stop)
      (carries : ts.isSignificant one = true) (starts : ts.StartsStatement region one stop)
      (starts' : ts.StartsStatement region two stop) : ¬ one < two := by
    intro before
    cases precedes : ts.prevSignificant two region with
    | none =>
      have blank := prev_significant_none precedes lower before
      rw [carries] at blank
      cases blank
    | some p =>
      obtain ⟨controlled, edge⟩ := starts'.front p precedes
      obtain ⟨_, below, _, trivia⟩ := prev_significant_iff.1 precedes
      have behind : one ≤ p := by
        by_cases later : p < one
        · have blank := trivia one later before
          rw [carries] at blank
          cases blank
        · omega
      exact starts.inside p behind (by omega) controlled edge
  have first := not_before lower upper' carries starts starts'
  have second := not_before lower' upper carries' starts' starts
  omega

theorem call_context_statement_iff {start : Nat} (above : floor ≤ call)
    (carries : ts.isSignificant call = true) (lower : (ts.callContext call floor).region ≤ start)
    (upper : start ≤ call) (meaning : ts.isSignificant start = true) :
    (ts.callContext call floor).statement = start ↔
      ts.StartsStatement (ts.callContext call floor).region start call := by
  obtain ⟨within, before, isToken, starts⟩ := call_context_starts above carries
  constructor
  · rintro rfl
    exact starts
  · exact fun starts' =>
      starts_statement_unique within lower before upper isToken meaning starts starts'

end Statement

/-! ## What stands in front of a call -/

/-- The search backwards for an opening parenthesis finds the one that is open there. -/
theorem open_from_parens (ts : TokenSeq) (depth floor count : Nat) :
    ts.openFrom .paren (depth + 1) floor count = (ts.parensAt floor (floor + count))[depth]? := by
  induction count generalizing depth with
  | zero => simp [openFrom, parensAt, Position.range]
  | succ count ih =>
    have last : ts.parensAt floor (floor + (count + 1)) =
        ts.parenStep (ts.parensAt floor (floor + count)) (floor + count) := by
      rw [parensAt, ← Nat.add_assoc, Position.range_append (Nat.le_add_right floor count) (Nat.le_succ _),
        Position.range_single, List.foldl_append]
      rfl
    rw [last, openFrom]
    split
    · rename_i closes
      rw [ih, paren_step_close _ closes, List.getElem?_tail]
    · rename_i notClose
      split
      · rename_i opens
        rw [paren_step_open _ opens]
        cases depth with
        | zero => simp
        | succ depth => simpa using ih depth
      · rename_i notOpen
        rw [ih, paren_step_other _ (Bool.eq_false_iff.2 notOpen) (Bool.eq_false_iff.2 notClose)]

theorem matching_open_parens {opening : Nat} {rest : List Nat} (above : floor ≤ close)
    (closes : ts.kind? close = some .closeParen) (stack : ts.parensAt floor close = opening :: rest) :
    ts.matchingOpen close floor = some opening := by
  have reach : floor + (close - floor) = close := by omega
  simp [matchingOpen, closes, Bracket.ofCloser?, open_from_parens ts 0, reach, stack]

/-- Behind an edge a call is neither assigned nor returned. -/
theorem before_casts_edge {call region : Nat}
    (front : ∀ p, ts.prevSignificant call region = some p → ∃ controlled, ts.Edge region p controlled)
    (hit : ts.beforeCasts? call region = some left) :
    ts.hasKind left .assign = false ∧ ts.isIdent left "return" = false := by
  have other {i : Nat} {kind : TokenKind} (seen : ts.kind? i = some kind) (assign : kind ≠ .assign)
      (identifier : kind ≠ .identifier) :
      ts.hasKind i .assign = false ∧ ts.isIdent i "return" = false := by
    simp [hasKind, isIdent, seen, assign, identifier]
  have word {i : Nat} {name : String} (seen : ts.isIdent i name = true) (differs : name ≠ "return") :
      ts.hasKind i .assign = false ∧ ts.isIdent i "return" = false := by
    obtain ⟨identifier, spelled⟩ := ident_kind seen
    simp [hasKind, isIdent, identifier, spelled, differs]
  rw [beforeCasts?] at hit
  split at hit
  · cases hit
  · rename_i p before
    obtain ⟨controlled, edge⟩ := front p before
    cases edge with
    | semicolon seen _ =>
      simp only [has_kind_of_kind seen] at hit
      cases hit
      exact other seen (by simp) (by simp)
    | colon seen _ =>
      simp only [has_kind_of_kind seen] at hit
      cases hit
      exact other seen (by simp) (by simp)
    | word seen _ =>
      rcases seen with seen | seen
      · simp only [has_kind_of_kind (ident_kind seen).1] at hit
        cases hit
        exact word seen (by simp)
      · simp only [has_kind_of_kind (ident_kind seen).1] at hit
        cases hit
        exact word seen (by simp)
    | @head opening seen closes control =>
      -- the head is passed over as a cast would be, and a control word stands in front of it
      have bounds := prev_significant_bounds before
      have opens := matching_open_parens bounds.1 seen closes
      rw [if_pos (has_kind_iff.2 seen)] at hit
      split at hit
      · cases hit
      · rename_i opening' found
        cases Option.some.inj (opens.symm.trans found)
        simp only [opensControlHead, followsWord, Option.any_eq_true, List.any_eq_true] at control
        obtain ⟨w, precedes, name, member, isWord⟩ := control
        rw [beforeCasts?] at hit
        split at hit
        · cases hit
        · rename_i w' precedes'
          cases Option.some.inj (precedes.symm.trans precedes')
          simp only [has_kind_of_kind (ident_kind isWord).1] at hit
          cases hit
          refine word isWord ?_
          rintro rfl
          simp at member

theorem before_casts_bounds (hit : ts.beforeCasts? i floor = some left) : floor ≤ left ∧ left < i := by
  fun_induction beforeCasts? ts i floor with
  | case1 | case2 => cases hit
  | case3 i prev before isClose opening opens ih =>
    have bounds := prev_significant_bounds before
    have opened := matching_open_bounds opens
    have earlier := ih hit
    omega
  | case4 i prev before notClose =>
    cases hit
    have bounds := prev_significant_bounds before
    exact ⟨bounds.1, bounds.2.1⟩

theorem postfix_first {inner : List (Nat × Nat)} (expression : ts.Postfix floor start stop inner) :
    ts.isSignificant start = true := by
  induction expression with
  | name seen => exact significant_of_kind seen rfl
  | group closes opens => exact significant_of_kind (matching_open_kind (b := .paren) closes opens) rfl
  | member object gap joins behind seen ih => exact ih
  | subscript object gap closes opens ih => exact ih

/-- An lvalue starts with a token in front of its `=`. -/
theorem lvalue_first {assign : Nat} (hit : ts.lvalueBefore assign floor = some (start, stop)) :
    floor ≤ start ∧ start < assign ∧ ts.isSignificant start = true := by
  obtain ⟨last, first, before, found, _, begins⟩ := lvalue_before_cases hit
  obtain ⟨inner, expression⟩ := postfix_of_start found
  have lastBounds := prev_significant_bounds before
  have width := postfix_nonempty expression
  rcases begins with rfl | ⟨starred, isStar⟩
  · exact ⟨(postfix_start_found lastBounds.1 found).1, by omega, postfix_first expression⟩
  · have bounds := prev_significant_bounds starred
    exact ⟨bounds.1, by omega, significant_of_kind isStar rfl⟩

/-! ## The end of a statement -/

theorem statement_stop_kind {depth : Int} (hit : ts.statementStopFrom depth i count = some semi) :
    ts.kind? semi = some .semicolon := by
  induction count generalizing depth i with
  | zero => simp [statementStopFrom] at hit
  | succ count ih =>
    rw [statementStopFrom] at hit
    split at hit
    · exact ih hit
    · exact ih hit
    · exact ih hit
    · exact ih hit
    · rename_i seen
      split at hit
      · cases hit
        exact seen
      · exact ih hit
    · split at hit
      · cases hit
      · exact ih hit
    · split at hit
      · cases hit
      · exact ih hit
    · exact ih hit
    · cases hit

/-- A `;` that comes next ends the statement. -/
theorem statement_stop_next (isSemicolon : ts.kind? semi = some .semicolon) (lower : i ≤ semi)
    (upper : semi < i + count) (trivia : ∀ q, i ≤ q → q < semi → ts.isSignificant q = false) :
    ts.statementStopFrom 0 i count = some semi := by
  induction count generalizing i with
  | zero => omega
  | succ count ih =>
    rw [statementStopFrom]
    by_cases here : i = semi
    · subst here
      simp [isSemicolon]
    · have inside := lt_size_of_kind isSemicolon
      have rest : ts.statementStopFrom 0 (i + 1) count = some semi :=
        ih (by omega) (by omega) fun q behind before => trivia q (by omega) before
      rcases trivia_kind (by omega) (trivia i (Nat.le_refl i) (by omega)) with seen | seen
      · simpa only [seen] using rest
      · simpa only [seen] using rest

theorem statement_stop_next_iff {limit : Nat} (below : limit ≤ ts.size) :
    (∃ semi, ts.statementStop? close 0 limit = some semi ∧
        ts.nextSignificant (close + 1) limit = some semi) ↔
      ∃ semi, ts.nextSignificant (close + 1) limit = some semi ∧ ts.kind? semi = some .semicolon := by
  constructor
  · rintro ⟨semi, stops, next⟩
    exact ⟨semi, next, statement_stop_kind stops⟩
  · rintro ⟨semi, next, isSemicolon⟩
    obtain ⟨lower, upper, _, trivia⟩ := next_significant_iff.1 next
    exact ⟨semi, statement_stop_next isSemicolon lower (by omega) trivia, next⟩

/-! ## Forms -/

section Form

variable {ts : TokenSeq} {allocator : Allocator} {call close floor limit : Nat}
  {arguments : List (Nat × Nat)}

theorem classify_discarded_iff :
    (ts.classify allocator call close arguments floor limit).form = .discarded ↔
      (ts.classify allocator call close arguments floor limit).subject = none ∧
        (ts.beforeCasts? call (ts.callContext call floor).region).any (ts.isIdent · "return") = false ∧
        (ts.callContext call floor).parens = [] ∧ (ts.callContext call floor).statement = call ∧
        ∃ semi, ts.statementStop? close 0 limit = some semi ∧
          ts.nextSignificant (close + 1) limit = some semi := by
  simp only [classify]
  generalize ts.callContext call floor = context
  generalize ts.beforeCasts? call context.region = left
  generalize (left.filter (ts.hasKind · .assign)).bind (ts.lvalueBefore · context.region) = subject
  cases subject with
  | some subject =>
    simp only [reduceCtorEq, false_and, iff_false]
    split <;> simp
  | none =>
    cases returned : left.any (ts.isIdent · "return") with
    | true => simp
    | false =>
      cases parens : context.parens with
      | cons opening rest => simp
      | nil => cases stops : ts.statementStop? close 0 limit <;> simp

theorem classify_declaration_iff :
    (ts.classify allocator call close arguments floor limit).form = .declaration ↔
      (ts.callContext call floor).parens = [] ∧
        ∃ start stop, (ts.classify allocator call close arguments floor limit).subject = some (start, stop) ∧
          (ts.callContext call floor).statement ≠ start := by
  simp only [classify]
  generalize ts.callContext call floor = context
  generalize ts.beforeCasts? call context.region = left
  generalize (left.filter (ts.hasKind · .assign)).bind (ts.lvalueBefore · context.region) = subject
  cases subject with
  | none =>
    simp only [reduceCtorEq, false_and, exists_false, and_false, iff_false]
    split
    · simp
    · split <;> simp
  | some subject =>
    obtain ⟨start, stop⟩ := subject
    cases parens : context.parens with
    | cons opening rest => simp
    | nil =>
      by_cases same : start = context.statement
      · simp [same]
      · simp [same, Ne.symm same]

theorem classify_subject_first {start stop : Nat}
    (takes : (ts.classify allocator call close arguments floor limit).subject = some (start, stop)) :
    (ts.callContext call floor).region ≤ start ∧ start ≤ call ∧ ts.isSignificant start = true := by
  simp only [classify] at takes
  obtain ⟨assign, left, lvalue⟩ := Option.bind_eq_some_iff.1 takes
  have bounds := before_casts_bounds (Option.filter_eq_some_iff.1 left).1
  obtain ⟨lower, upper, carries⟩ := lvalue_first lvalue
  exact ⟨lower, by omega, carries⟩

/-- A call right behind an edge has no lvalue. -/
theorem classify_subject_edge (starts : ts.StartsStatement (ts.callContext call floor).region call call) :
    (ts.classify allocator call close arguments floor limit).subject = none ∧
      (ts.beforeCasts? call (ts.callContext call floor).region).any (ts.isIdent · "return") = false := by
  simp only [classify]
  cases left : ts.beforeCasts? call (ts.callContext call floor).region with
  | none => simp
  | some p =>
    obtain ⟨assign, returned⟩ := before_casts_edge starts.front left
    simp [assign, returned]

end Form

/-- The forms that a guard goes by, told by the edges of the region around the call. The
result is dropped exactly if the call stands outside all parentheses, right behind an edge
and right in front of a `;`. An lvalue is declared exactly if it stands outside all
parentheses and no statement starts with it. Whatever the form, the statement of a site
starts behind an edge and ends with a `;`. -/
theorem site_form_edges (ts : TokenSeq) (registry : Registry) (floor stop : Nat) (site : Site)
    (found : site ∈ ts.sites registry floor stop) :
    let region := (ts.callContext site.call floor).region
    (site.form = .discarded ↔
      ts.parensAt region site.call = [] ∧ ts.StartsStatement region site.call site.call ∧
        ∃ semi, ts.nextSignificant (site.close + 1) (min stop ts.size) = some semi ∧
          ts.kind? semi = some .semicolon) ∧
      (site.form = .declaration ↔
        ts.parensAt region site.call = [] ∧
          ∃ start stop, site.subject = some (start, stop) ∧
            ¬ ts.StartsStatement region start site.call) ∧
      ∀ statement, site.statement = some statement →
        ts.StartsStatement region statement.start site.call ∧
          ts.kind? statement.semi = some .semicolon := by
  intro region
  obtain ⟨allocator, call, opening, close, arguments, lower, upper, isName, _, _, rfl⟩ := site_call found
  have carries : ts.isSignificant call = true := significant_of_kind isName rfl
  have within : region ≤ call := call_context_region lower
  have parens : (ts.callContext call floor).parens = ts.parensAt region call := ts.call_context_parens call floor
  refine ⟨?_, ?_, ?_⟩
  · rw [classify_discarded_iff, parens, call_context_statement_iff lower carries within (Nat.le_refl call)
      carries, statement_stop_next_iff (Nat.min_le_right _ _)]
    constructor
    · rintro ⟨_, _, outside, starts, ends⟩
      exact ⟨outside, starts, ends⟩
    · rintro ⟨outside, starts, ends⟩
      obtain ⟨subject, returned⟩ := classify_subject_edge starts
      exact ⟨subject, returned, outside, starts, ends⟩
  · rw [classify_declaration_iff, parens]
    refine and_congr_right fun _ => exists_congr fun start => exists_congr fun stop' =>
      and_congr_right fun takes => ?_
    obtain ⟨first, before, meaning⟩ := classify_subject_first takes
    exact not_congr (call_context_statement_iff lower carries first before meaning)
  · intro statement stands
    simp only [classify] at stands
    split at stands
    · cases stands
    · obtain ⟨semi, stops, rfl⟩ := Option.map_eq_some_iff.1 stands
      exact ⟨(call_context_starts lower carries).2.2.2, statement_stop_kind stops⟩

theorem site_form_edges_control_body :
    let ts := TokenSeq.ofSource "\x7bif(c)malloc(1);\x7d"
    let site : Site :=
      { allocator := ⟨"malloc", 1, .returned, .null⟩, call := 5, close := 8, form := .discarded
        subject := none, resource := none, statement := some ⟨5, 9, true⟩, checked := false
        usedBeforeCheck := false }
    let region := (ts.callContext 5 0).region
    site ∈ ts.sites (.withExtra []) 0 ts.size ∧ ts.parensAt region 5 = [] ∧
      ts.StartsStatement region 5 5 ∧
      ∃ semi, ts.nextSignificant 9 (min ts.size ts.size) = some semi ∧
        ts.kind? semi = some .semicolon := by
  intro ts site region
  have found : site ∈ ts.sites (.withExtra []) 0 ts.size := by decide +kernel
  exact ⟨found, (ts.site_form_edges (.withExtra []) 0 ts.size site found).1.1 rfl⟩

/-- The last operand of a conditional expression stands behind a `:` and in front of a `;`, so
it passes for a statement of its own. An lvalue that is assigned in a `return` does not start
the statement, so it passes for one that is declared there, and a guard would stand behind
the `return`. -/
theorem operand_and_return_misread :
    let ternary := TokenSeq.ofSource "\x7bc?g():malloc(1);\x7d"
    let returned := TokenSeq.ofSource "\x7breturn p=malloc(1);\x7d"
    ((ternary.sites (.withExtra []) 0 ternary.size).map fun site => (site.form, site.statement)) =
        [(.discarded, some ⟨7, 11, false⟩)] ∧
      ternary.textRange 1 7 = "c?g():" ∧ ternary.hasKind 2 .question = true ∧
      ternary.parensAt 1 2 = [] ∧
      ((returned.sites (.withExtra []) 0 returned.size).map fun site => (site.form, site.statement)) =
        [(.declaration, some ⟨1, 9, false⟩)] ∧
      returned.isIdent 1 "return" = true := by
  decide +kernel

end TokenSeq

end AllocGuard
