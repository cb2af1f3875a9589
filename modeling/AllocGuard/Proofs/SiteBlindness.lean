import AllocGuard.Proofs.ArgumentRanges
import AllocGuard.Proofs.SignificantCore
import AllocGuard.Proofs.SiteForms

/-! Allocation sites go by the tokens that carry meaning. The sites of a range are found, with
their form, their statement and the fate of their result, by searches that pass over white
space and comments. So they are the sites of the core of the range, each token being named by
its rank. -/
namespace AllocGuard

/-- The surroundings of a call whose tokens are named in another way. -/
def CallContext.relocate (place : Nat → Nat) (c : CallContext) : CallContext :=
  { region := place c.region
    parens := c.parens.map place
    statement := place c.statement
    controlled := c.controlled }

/-- A site whose tokens are named in another way. -/
def Site.relocate (place : Nat → Nat) (s : Site) : Site :=
  { s with
    call := place s.call
    close := place s.close
    subject := s.subject.map fun range => (place range.1, place range.2)
    statement := s.statement.map fun t => ⟨place t.start, place t.semi, t.controlled⟩ }

namespace TokenSeq

/-! ## The surroundings of a call -/

section Surroundings

variable {ts : TokenSeq} {a b region i floor limit : Nat} {scan : RegionScan}

theorem prev_any_core {i floor : Nat} {p q : Nat → Bool} (above : a ≤ floor) (below : i ≤ b)
    (agree : ∀ i, ts.Stands a b i → q (ts.rank a i) = p i) :
    ((ts.core a b).prevSignificant (ts.rank a i) (ts.rank a floor)).any q =
      (ts.prevSignificant i floor).any p := by
  rw [← prev_core above below]
  cases found : ts.prevSignificant i floor with
  | none => rfl
  | some prev => exact agree prev (prev_stands above below found)

theorem next_any_core {i limit : Nat} {p q : Nat → Bool} (above : a ≤ i) (below : limit ≤ b)
    (agree : ∀ i, ts.Stands a b i → q (ts.rank a i) = p i) :
    ((ts.core a b).nextSignificant (ts.rank a i) (ts.rank a limit)).any q =
      (ts.nextSignificant i limit).any p := by
  rw [← next_core above below]
  cases found : ts.nextSignificant i limit with
  | none => rfl
  | some next => exact agree next (next_stands above below found)

theorem is_member_core (above : a ≤ floor) (below : i ≤ b) :
    (ts.core a b).isMember (ts.rank a i) (ts.rank a floor) = ts.isMember i floor :=
  prev_any_core above below fun _ stands => core_kind_is stands _

theorem follows_word_core {words : List String} {i floor : Nat} (above : a ≤ floor) (below : i ≤ b) :
    (ts.core a b).followsWord words (ts.rank a i) (ts.rank a floor) = ts.followsWord words i floor := by
  refine prev_any_core above below fun p stands => ?_
  simp only [core_is_ident stands]

/-- A scan whose tokens are named in another way. -/
def RegionScan.relocate (place : Nat → Nat) (scan : RegionScan) : RegionScan :=
  ⟨scan.parens.map place, scan.edge.map fun edge => (place edge.1, edge.2)⟩

theorem region_next_blank (trivia : ts.isSignificant i = false) (scan : RegionScan) :
    RegionScan.next ts region scan i = scan := by
  have other {kind : TokenKind} (meaning : kind.isTrivia = false) : ts.kind? i ≠ some kind := by
    intro seen
    rw [significant_of_kind seen meaning] at trivia
    cases trivia
  rw [RegionScan.next]
  split
  · exact absurd ‹_› (other rfl)
  · rfl
  · exact absurd ‹_› (other rfl)
  · exact absurd ‹_› (other rfl)
  · exact absurd ‹_› (other rfl)
  · exact absurd ‹_› (other rfl)
  · exact absurd ‹_› (other rfl)
  · rfl

/-- What a scan has seen lies in the range. -/
structure RegionScan.Inside (ts : TokenSeq) (a b : Nat) (scan : RegionScan) : Prop where
  opened : ∀ p ∈ scan.parens, p ≤ b
  edge : ∀ edge ∈ scan.edge, ts.Stands a b edge.1

theorem region_next_within (inside : scan.Inside ts a b) (stands : ts.Stands a b i) :
    (RegionScan.next ts region scan i).Inside ts a b := by
  constructor
  · intro p member
    rw [RegionScan.next] at member
    split at member
    · rcases List.mem_cons.1 member with rfl | member
      · exact Nat.le_of_lt stands.below
      · exact inside.opened p member
    · exact inside.opened p member
    · cases member
    · rename_i several
      exact inside.opened p (by rw [several]; exact List.mem_cons_of_mem _ member)
    · exact inside.opened p member
    · exact inside.opened p member
    · split at member
      · exact inside.opened p member
      · exact inside.opened p member
    · exact inside.opened p member
  · intro edge seen
    rcases region_next_edge ts region scan i with same | ⟨controlled, here⟩
    · rw [same] at seen
      exact inside.edge edge seen
    · rw [here] at seen
      cases seen
      exact stands

theorem region_next_core (above : a ≤ region) (inside : scan.Inside ts a b) (stands : ts.Stands a b i) :
    RegionScan.next (ts.core a b) (ts.rank a region) (scan.relocate (ts.rank a)) (ts.rank a i) =
      (RegionScan.next ts region scan i).relocate (ts.rank a) := by
  obtain ⟨parens, edge⟩ := scan
  simp only [RegionScan.next, RegionScan.relocate, core_kind stands, core_is_ident stands]
  cases ts.kind? i with
  | none => rfl
  | some kind =>
    cases parens with
    | nil =>
      cases kind with
      | identifier =>
        simp only [List.map_nil]
        split <;> rfl
      | _ => rfl
    | cons opening rest =>
      cases rest with
      | nil =>
        have head := @follows_word_core ts a b ["if", "while", "for", "switch"] opening region above
          (inside.opened opening List.mem_cons_self)
        cases kind with
        | closeParen =>
          simp only [List.map_cons, List.map_nil, opensControlHead, head]
          by_cases controls : ts.followsWord ["if", "while", "for", "switch"] opening region = true
          · simp [controls]
          · simp [controls]
        | _ => rfl
      | cons outer rest => cases kind <;> rfl

/-- The scan of a region sees the same in the core. -/
theorem region_scan_core {region start count : Nat} {scan : RegionScan} (above : a ≤ region)
    (lower : a ≤ start) (upper : start + count ≤ b) (inside : scan.Inside ts a b) :
    ((List.range' start count).foldl (RegionScan.next ts region) scan).Inside ts a b ∧
      (List.range' (ts.rank a start) (ts.weight start count)).foldl
          (RegionScan.next (ts.core a b) (ts.rank a region)) (scan.relocate (ts.rank a)) =
        ((List.range' start count).foldl (RegionScan.next ts region) scan).relocate (ts.rank a) := by
  induction count generalizing start scan with
  | zero => exact ⟨inside, rfl⟩
  | succ count ih =>
    rw [List.range'_succ, List.foldl_cons]
    by_cases carries : ts.isSignificant start = true
    · have stands : ts.Stands a b start := ⟨lower, by omega, carries⟩
      obtain ⟨kept, rest⟩ := @ih (start + 1) _ (by omega) (by omega) (region_next_within inside stands)
      rw [rank_meaning lower carries] at rest
      rw [weight_meaning carries, List.range'_succ, List.foldl_cons, region_next_core above inside stands]
      exact ⟨kept, rest⟩
    · have trivia := Bool.eq_false_iff.2 carries
      obtain ⟨kept, rest⟩ := @ih (start + 1) scan (by omega) (by omega) inside
      rw [rank_blank lower trivia] at rest
      rw [weight_blank trivia, region_next_blank trivia]
      exact ⟨kept, rest⟩

/-- The block around a call is the same in the core. -/
theorem context_region_core {call floor : Nat} (above : a ≤ floor) (ordered : floor ≤ call) (below : call ≤ b) :
    floor ≤ (ts.callContext call floor).region ∧ (ts.callContext call floor).region ≤ call ∧
      ((ts.core a b).callContext (ts.rank a call) (ts.rank a floor)).region =
        ts.rank a (ts.callContext call floor).region := by
  have brace := @last_in_rank ts a b (fun i => ts.hasKind i .openBrace || ts.hasKind i .closeBrace)
    (fun i => (ts.core a b).hasKind i .openBrace || (ts.core a b).hasKind i .closeBrace)
    (fun i trivia => by
      rw [has_kind_blank trivia rfl, has_kind_blank trivia rfl]
      rfl)
    (fun i stands => by rw [core_has_kind stands, core_has_kind stands])
    floor call above below
  simp only [callContext, ← brace]
  cases found : Position.lastIn? (fun i => ts.hasKind i .openBrace || ts.hasKind i .closeBrace)
      floor call with
  | none => exact ⟨Nat.le_refl floor, ordered, rfl⟩
  | some last =>
    obtain ⟨lower, upper, isBrace⟩ := Position.last_in_bounds found
    have carries : ts.isSignificant last = true := by
      rw [← Bool.not_eq_false]
      intro trivia
      rw [has_kind_blank trivia rfl, has_kind_blank trivia rfl] at isBrace
      cases isBrace
    exact ⟨Nat.le_succ_of_le lower, upper, (rank_meaning (by omega) carries).symm⟩

theorem next_get_core (above : a ≤ i) (below : limit ≤ b) (other : Nat) :
    ((ts.core a b).nextSignificant (ts.rank a i) (ts.rank a limit)).getD (ts.rank a other) =
      ts.rank a ((ts.nextSignificant i limit).getD other) := by
  rw [← next_core above below]
  cases ts.nextSignificant i limit <;> rfl

theorem scan_to_core {region i : Nat} (above : a ≤ region) (ordered : region ≤ i) (below : i ≤ b) :
    (ts.scanTo region i).Inside ts a b ∧
      (ts.core a b).scanTo (ts.rank a region) (ts.rank a i) =
        (ts.scanTo region i).relocate (ts.rank a) := by
  have scanned := @region_scan_core ts a b region region (i - region) ⟨[], none⟩ above above (by omega)
    ⟨by simp, by simp⟩
  rw [← ts.rank_sub above] at scanned
  exact scanned

/-- The surroundings of a call are the same in the core. -/
theorem call_context_core {call : Nat} (above : a ≤ floor) (ordered : floor ≤ call) (stands : ts.Stands a b call) :
    (ts.core a b).callContext (ts.rank a call) (ts.rank a floor) =
      (ts.callContext call floor).relocate (ts.rank a) := by
  have below := stands.below
  obtain ⟨lower, upper, region⟩ := @context_region_core ts a b call floor above ordered (Nat.le_of_lt below)
  rw [call_context_eq, region, call_context_eq ts]
  generalize (ts.callContext call floor).region = r at lower upper
  obtain ⟨inside, scanned⟩ := @scan_to_core ts a b r call (by omega) upper (Nat.le_of_lt below)
  have behind : a ≤ ((ts.scanTo r call).edge.map (·.1 + 1)).getD r ∧
      (((ts.scanTo r call).relocate (ts.rank a)).edge.map (·.1 + 1)).getD (ts.rank a r) =
        ts.rank a (((ts.scanTo r call).edge.map (·.1 + 1)).getD r) := by
    cases seen : (ts.scanTo r call).edge with
    | none => simp [RegionScan.relocate, seen]; omega
    | some edge =>
      have place := inside.edge edge seen
      have first := place.above
      simp [RegionScan.relocate, seen, rank_meaning first place.carries]
      omega
  have controlled : (((ts.scanTo r call).relocate (ts.rank a)).edge.map (·.2)).getD false =
      ((ts.scanTo r call).edge.map (·.2)).getD false := by
    cases seen : (ts.scanTo r call).edge with
    | none => simp [RegionScan.relocate, seen]
    | some edge => simp [RegionScan.relocate, seen]
  dsimp only
  rw [scanned, behind.2, controlled, ← rank_meaning stands.above stands.carries, next_get_core behind.1 (by omega)]
  rfl

theorem statement_stop_from_core {depth : Int} {i count : Nat} (above : a ≤ i) (below : i + count ≤ b)
    (inside : i + count ≤ ts.size) :
    (ts.statementStopFrom depth i count).map (ts.rank a) =
      (ts.core a b).statementStopFrom depth (ts.rank a i) (ts.weight i count) := by
  induction count generalizing depth i with
  | zero => rfl
  | succ count ih =>
    have rest (depth : Int) := @ih depth (i + 1) (by omega) (by omega) (by omega)
    rw [statementStopFrom]
    by_cases carries : ts.isSignificant i = true
    · have stands : ts.Stands a b i := ⟨above, by omega, carries⟩
      simp only [rank_meaning above carries] at rest
      rw [weight_meaning carries, statementStopFrom, core_kind stands]
      split
      · exact rest _
      · exact rest _
      · exact rest _
      · exact rest _
      · split
        · rfl
        · exact rest _
      · split
        · rfl
        · exact rest _
      · split
        · rfl
        · exact rest _
      · exact rest _
      · rfl
    · have trivia := Bool.eq_false_iff.2 carries
      simp only [rank_blank above trivia] at rest
      rw [weight_blank trivia]
      rcases trivia_kind (by omega) trivia with seen | seen
      · simp only [seen]
        exact rest depth
      · simp only [seen]
        exact rest depth

theorem statement_stop_core {close depth : Nat} (stands : ts.Stands a b close) (below : limit ≤ b) :
    (ts.statementStop? close depth limit).map (ts.rank a) =
      (ts.core a b).statementStop? (ts.rank a close) depth (ts.rank a limit) := by
  have above := stands.above
  rw [statementStop?, statementStop?, min_core_size below, ← rank_meaning above stands.carries,
    ← ts.rank_min_size a limit, ts.rank_sub (by omega)]
  by_cases room : close + 1 ≤ min limit ts.size
  · exact statement_stop_from_core (by omega) (by omega) (by omega)
  · have none : min limit ts.size - (close + 1) = 0 := by omega
    rw [none]
    rfl

theorem before_casts_eq (ts : TokenSeq) (i floor : Nat) :
    ts.beforeCasts? i floor = (ts.prevSignificant i floor).bind fun prev =>
      if ts.hasKind prev .closeParen then (ts.matchingOpen prev floor).bind (ts.beforeCasts? · floor)
      else some prev := by
  rw [beforeCasts?]
  split
  · rename_i none
    rw [none]
    rfl
  · rename_i prev found
    rw [found, Option.bind_some]
    split
    · split
      · rename_i none
        rw [none]
        rfl
      · rename_i opening found
        rw [found, Option.bind_some]
    · rfl

theorem before_casts_core (above : a ≤ floor) (below : i ≤ b) :
    (ts.beforeCasts? i floor).map (ts.rank a) =
      (ts.core a b).beforeCasts? (ts.rank a i) (ts.rank a floor) := by
  induction i using Nat.strongRecOn with
  | ind i ih =>
    rw [before_casts_eq, before_casts_eq (ts.core a b), ← prev_core above below]
    cases before : ts.prevSignificant i floor with
    | none => rfl
    | some prev =>
      have stands := prev_stands above below before
      simp only [Option.map_some, Option.bind_some, core_has_kind stands]
      split
      · rw [← matching_open_core stands above]
        cases opens : ts.matchingOpen prev floor with
        | none => rfl
        | some opening =>
          have first := prev_significant_bounds before
          have second := matching_open_bounds opens
          exact ih opening (by omega) (by omega)
      · rfl

theorem before_casts_stands {left : Nat} (above : a ≤ floor) (below : i ≤ b)
    (hit : ts.beforeCasts? i floor = some left) : ts.Stands a b left := by
  induction i using Nat.strongRecOn with
  | ind i ih =>
    rw [before_casts_eq] at hit
    obtain ⟨prev, before, found⟩ := Option.bind_eq_some_iff.1 hit
    split at found
    · obtain ⟨opening, opens, further⟩ := Option.bind_eq_some_iff.1 found
      have first := prev_significant_bounds before
      have second := matching_open_bounds opens
      exact ih opening (by omega) (by omega) further
    · cases found
      exact prev_stands above below before

end Surroundings

/-! ## Expressions around a call -/

section Expressions

variable {ts : TokenSeq} {a b : Nat}

theorem postfix_start_eq (ts : TokenSeq) (floor j : Nat) :
    ts.postfixStart floor j =
      match ts.kind? j with
      | some .closeBracket => ((ts.matchingOpen j floor).bind (ts.prevSignificant · floor)).bind (ts.postfixStart floor)
      | some .identifier =>
        match ts.prevSignificant j floor with
        | none => some j
        | some p =>
          if ts.kindIs p TokenKind.isMemberAccess then (ts.prevSignificant p floor).bind (ts.postfixStart floor)
          else some j
      | some .closeParen => ts.matchingOpen j floor
      | _ => none := by
  rw [postfixStart]
  rcases ts.kind? j with _ | kind
  · rfl
  · cases kind with
    | closeBracket =>
      dsimp only
      split
      · rename_i none
        rw [none]
        rfl
      · rename_i opening opens
        rw [opens, Option.bind_some]
        split
        · rename_i none
          rw [none]
          rfl
        · rename_i prev before
          rw [before, Option.bind_some]
    | identifier =>
      dsimp only
      split
      · rename_i none
        rw [none]
      · rename_i p access
        rw [access]
        dsimp only
        split
        · split
          · rename_i none
            rw [none]
            rfl
          · rename_i prev before
            rw [before, Option.bind_some]
        · rfl
    | _ => rfl

theorem postfix_start_core {floor j : Nat} (above : a ≤ floor) (stands : ts.Stands a b j) :
    (ts.postfixStart floor j).map (ts.rank a) =
      (ts.core a b).postfixStart (ts.rank a floor) (ts.rank a j) := by
  induction j using Nat.strongRecOn with
  | ind j ih =>
    have below := Nat.le_of_lt stands.below
    rw [postfix_start_eq, postfix_start_eq (ts.core a b), core_kind stands]
    split
    · rw [← matching_open_core stands above]
      cases opens : ts.matchingOpen j floor with
      | none => rfl
      | some opening =>
        have place := open_stands above below opens
        have first := matching_open_bounds opens
        rw [Option.map_some, Option.bind_some, Option.bind_some, ← prev_core above (Nat.le_of_lt place.below)]
        cases before : ts.prevSignificant opening floor with
        | none => rfl
        | some prev =>
          have second := prev_significant_bounds before
          exact ih prev (by omega) (prev_stands above (Nat.le_of_lt place.below) before)
    · rw [← prev_core above below]
      cases access : ts.prevSignificant j floor with
      | none => rfl
      | some p =>
        have place := prev_stands above below access
        have first := prev_significant_bounds access
        simp only [Option.map_some, core_kind_is place]
        split
        · rw [← prev_core above (Nat.le_of_lt place.below)]
          cases before : ts.prevSignificant p floor with
          | none => rfl
          | some prev =>
            have second := prev_significant_bounds before
            exact ih prev (by omega) (prev_stands above (Nat.le_of_lt place.below) before)
        · rfl
    · exact matching_open_core stands above
    · rfl

theorem statement_start_core {depth floor count : Nat} (above : a ≤ floor) (below : floor + count ≤ b) :
    (ts.statementStartBefore depth floor count).map (ts.rank a) =
      (ts.core a b).statementStartBefore depth (ts.rank a floor) (ts.weight floor count) := by
  induction count generalizing depth with
  | zero => rfl
  | succ count ih =>
    have rest (depth : Nat) := @ih depth (by omega)
    have place : ts.rank a (floor + count) = ts.rank a floor + ts.weight floor count := ts.rank_add above count
    rw [statementStartBefore]
    by_cases carries : ts.isSignificant (floor + count) = true
    · have stands : ts.Stands a b (floor + count) := ⟨by omega, by omega, carries⟩
      rw [weight_last_meaning carries, statementStartBefore, ← place]
      simp only [core_has_kind stands, core_kind_is stands]
      split
      · exact rest _
      · split
        · split
          · rfl
          · exact rest _
        · split
          · rw [Option.map_some, rank_meaning (by omega) carries]
          · exact rest _
    · have trivia := Bool.eq_false_iff.2 carries
      have edge : ts.kindIs (floor + count) TokenKind.isStatementEdge = false :=
        kind_is_blank trivia fun kind edge => by cases kind <;> first | rfl | cases edge
      rw [weight_last_blank trivia]
      simp (disch := decide) only [has_kind_blank trivia, edge, Bool.or_self, Bool.and_false,
        Bool.false_eq_true, if_false]
      exact rest depth

theorem statement_start_lower {depth floor count start : Nat}
    (hit : ts.statementStartBefore depth floor count = some start) : floor ≤ start := by
  induction count generalizing depth with
  | zero =>
    cases hit
    exact Nat.le_refl floor
  | succ count ih =>
    rw [statementStartBefore] at hit
    split at hit
    · exact ih hit
    · split at hit
      · split at hit
        · cases hit
        · exact ih hit
      · split at hit
        · cases hit
          omega
        · exact ih hit

theorem in_declaration_core {i floor : Nat} (above : a ≤ floor) (below : i ≤ b) :
    (ts.core a b).inDeclaration (ts.rank a i) (ts.rank a floor) = ts.inDeclaration i floor := by
  have starts : (ts.statementStartBefore 0 floor (i - floor)).map (ts.rank a) =
      (ts.core a b).statementStartBefore 0 (ts.rank a floor) (ts.rank a i - ts.rank a floor) := by
    rw [ts.rank_sub above]
    by_cases ordered : floor ≤ i
    · exact statement_start_core above (by omega)
    · have none : i - floor = 0 := by omega
      rw [none]
      rfl
  rw [inDeclaration, inDeclaration, ← starts]
  cases found : ts.statementStartBefore 0 floor (i - floor) with
  | none => rfl
  | some start =>
    have lower := statement_start_lower found
    simp only [Option.map_some, Option.bind_some]
    refine next_any_core (by omega) below fun first stands => ?_
    have behind : ts.rank a first + 1 = ts.rank a (first + 1) := (rank_meaning stands.above stands.carries).symm
    have more := @next_any_core ts a b (first + 1) i
      (fun next => ts.hasKind next .identifier || ts.hasKind next .star)
      (fun next => (ts.core a b).hasKind next .identifier || (ts.core a b).hasKind next .star)
      (Nat.le_succ_of_le stands.above) below
      (fun next stands => by rw [core_has_kind stands, core_has_kind stands])
    rw [core_kind_is stands, core_has_kind stands, core_spelling stands, behind, more]

theorem is_unary_star_core {star floor : Nat} (above : a ≤ floor) (below : star ≤ b) :
    (ts.core a b).isUnaryStar (ts.rank a star) (ts.rank a floor) = ts.isUnaryStar star floor := by
  rw [isUnaryStar, isUnaryStar, ← prev_core above below]
  cases found : ts.prevSignificant star floor with
  | none => rfl
  | some before =>
    have stands := prev_stands above below found
    simp only [Option.map_some, core_kind stands,
      @in_declaration_core ts a b before floor above (Nat.le_of_lt stands.below)]

/-- The lvalue in front of an assignment is the same in the core. -/
theorem lvalue_core {assign floor : Nat} (above : a ≤ floor) (below : assign ≤ b) :
    (ts.lvalueBefore assign floor).map (fun range => (ts.rank a range.1, ts.rank a range.2)) =
      (ts.core a b).lvalueBefore (ts.rank a assign) (ts.rank a floor) := by
  simp only [lvalueBefore, Option.bind_eq_bind]
  rw [← prev_core above below]
  cases before : ts.prevSignificant assign floor with
  | none => rfl
  | some last =>
    have stands := prev_stands above below before
    have stop : ts.rank a (last + 1) = ts.rank a last + 1 := rank_meaning stands.above stands.carries
    rw [Option.map_some, Option.bind_some, Option.bind_some, ← postfix_start_core above stands]
    cases expression : ts.postfixStart floor last with
    | none => rfl
    | some first =>
      obtain ⟨inner, chain⟩ := postfix_of_start expression
      have width := postfix_nonempty chain
      have upper := stands.below
      rw [Option.map_some, Option.bind_some, Option.bind_some, ← prev_core above (by omega)]
      cases starred : ts.prevSignificant first floor with
      | none => simp [stop]
      | some star =>
        have place : ts.Stands a b star := prev_stands above (by omega) starred
        have unary := @is_unary_star_core ts a b star floor above (Nat.le_of_lt place.below)
        simp only [Option.map_some, core_has_kind place, unary]
        split
        · simp [stop]
        · simp [stop]

/-! Arguments -/

theorem arguments_from_core {stop start i count : Nat} {depth : Int} (above : a ≤ i) (below : i + count ≤ b) :
    (ts.argumentsFrom stop depth start i count).map (fun range => (ts.rank a range.1, ts.rank a range.2)) =
      (ts.core a b).argumentsFrom (ts.rank a stop) depth (ts.rank a start) (ts.rank a i)
        (ts.weight i count) := by
  induction count generalizing depth start i with
  | zero => rfl
  | succ count ih =>
    have rest (depth : Int) (start : Nat) := @ih start (i + 1) depth (by omega) (by omega)
    rw [argumentsFrom]
    by_cases carries : ts.isSignificant i = true
    · have stands : ts.Stands a b i := ⟨above, by omega, carries⟩
      have step : ts.rank a (i + 1) = ts.rank a i + 1 := rank_meaning above carries
      rw [weight_meaning carries, argumentsFrom]
      simp only [core_has_kind stands, core_kind_is stands, ← step]
      split
      · exact rest _ _
      · split
        · exact rest _ _
        · split
          · rw [List.map_cons, rest]
          · exact rest _ _
    · have trivia := Bool.eq_false_iff.2 carries
      have opener : ts.kindIs i TokenKind.isOpener = false :=
        kind_is_blank trivia fun kind opener => by cases kind <;> first | rfl | cases opener
      have closer : ts.kindIs i TokenKind.isCloser = false :=
        kind_is_blank trivia fun kind closer => by cases kind <;> first | rfl | cases closer
      simp only [rank_blank above trivia] at rest
      rw [weight_blank trivia]
      simp (disch := decide) only [opener, closer, has_kind_blank trivia, Bool.and_false,
        Bool.false_eq_true, if_false]
      exact rest depth start

theorem split_arguments_core {opening close : Nat} (stands : ts.Stands a b opening) (below : close ≤ b) :
    (ts.splitArguments opening close).map (fun range => (ts.rank a range.1, ts.rank a range.2)) =
      (ts.core a b).splitArguments (ts.rank a opening) (ts.rank a close) := by
  have above := stands.above
  rw [splitArguments, splitArguments, ← rank_meaning above stands.carries,
    ← next_core (by omega) below, Option.isNone_map]
  split
  · rfl
  · rw [min_core_size below, ← ts.rank_min_size a close, ts.rank_sub (by omega), ts.rank_min_size a close]
    by_cases room : opening + 1 ≤ min close ts.size
    · exact arguments_from_core (by omega) (by omega)
    · have none : min close ts.size - (opening + 1) = 0 := by omega
      rw [none]
      rfl

theorem spell_positions_core {afterWord : Bool} {positions : List Nat} (stand : ∀ i ∈ positions, ts.Stands a b i) :
    (ts.core a b).spellPositions afterWord (positions.map (ts.rank a)) =
      ts.spellPositions afterWord positions := by
  induction positions generalizing afterWord with
  | nil => rfl
  | cons i rest ih =>
    have stands := stand i List.mem_cons_self
    rw [List.map_cons, spellPositions, spellPositions, core_kind_is stands, core_spelling stands,
      ih fun j member => stand j (List.mem_cons_of_mem i member)]

theorem significant_stands {start stop : Nat} (above : a ≤ start) (below : stop ≤ b) :
    ∀ i ∈ ts.significant start stop, ts.Stands a b i := by
  intro i member
  obtain ⟨place, carries⟩ := List.mem_filter.1 member
  have bounds := Position.mem_range.1 place
  exact ⟨by omega, by omega, carries⟩

theorem spell_range_core {start stop : Nat} (above : a ≤ start) (below : stop ≤ b) :
    (ts.core a b).spellRange (ts.rank a start) (ts.rank a stop) = ts.spellRange start stop := by
  rw [spellRange, spellRange, ← significant_core above below, spell_positions_core (significant_stands above below)]

end Expressions

/-! ## The fate of a result -/

section Fate

variable {ts : TokenSeq} {a b i limit floor : Nat} {subject words : List String}

theorem match_words_core (above : a ≤ i) (below : limit ≤ b) :
    (ts.matchWords limit words i).map (ts.rank a) =
      (ts.core a b).matchWords (ts.rank a limit) words (ts.rank a i) := by
  induction words generalizing i with
  | nil => rfl
  | cons word rest ih =>
    simp only [matchWords, Option.bind_eq_bind]
    rw [← next_core above below]
    cases found : ts.nextSignificant i limit with
    | none => rfl
    | some next =>
      have stands := next_stands above below found
      simp only [Option.map_some, Option.bind_some, core_spelling stands, ← rank_meaning stands.above stands.carries]
      split
      · exact ih (Nat.le_succ_of_le stands.above)
      · rfl

theorem match_words_lower {stop : Nat} (hit : ts.matchWords limit words i = some stop) : i ≤ stop := by
  induction words generalizing i with
  | nil =>
    cases hit
    exact Nat.le_refl _
  | cons word rest ih =>
    simp only [matchWords, Option.bind_eq_bind, Option.bind_eq_some_iff] at hit
    obtain ⟨next, found, further⟩ := hit
    have bounds := next_significant_bounds found
    split at further
    · have later := ih further
      omega
    · cases further

theorem match_subject_core (stands : ts.Stands a b i) (below : limit ≤ b) :
    (ts.matchSubject limit subject i).map (ts.rank a) =
      (ts.core a b).matchSubject (ts.rank a limit) subject (ts.rank a i) := by
  rw [matchSubject, matchSubject, core_significant stands, stands.carries]
  exact match_words_core stands.above below

theorem inside_condition_from_core {depth floor count : Nat} (above : a ≤ floor) (below : floor + count ≤ b) :
    (ts.core a b).insideConditionFrom depth (ts.rank a floor) (ts.weight floor count) =
      ts.insideConditionFrom depth floor count := by
  induction count generalizing depth with
  | zero => rfl
  | succ count ih =>
    have rest (depth : Nat) := @ih depth (by omega)
    have place : ts.rank a (floor + count) = ts.rank a floor + ts.weight floor count := ts.rank_add above count
    conv => rhs; rw [insideConditionFrom]
    by_cases carries : ts.isSignificant (floor + count) = true
    · have stands : ts.Stands a b (floor + count) := ⟨by omega, by omega, carries⟩
      have condition : (ts.core a b).opensCondition (ts.rank a (floor + count)) (ts.rank a floor) =
          ts.opensCondition (floor + count) floor := follows_word_core above (by omega)
      rw [weight_last_meaning carries, insideConditionFrom, ← place]
      simp only [core_has_kind stands, core_kind_is stands, condition, rest]
    · have trivia := Bool.eq_false_iff.2 carries
      have edge : ts.kindIs (floor + count) TokenKind.isStatementEdge = false :=
        kind_is_blank trivia fun kind edge => by cases kind <;> first | rfl | cases edge
      rw [weight_last_blank trivia]
      simp (disch := decide) only [has_kind_blank trivia, edge, Bool.and_false, Bool.false_eq_true, if_false]
      exact rest depth

theorem inside_condition_core (above : a ≤ floor) (below : i ≤ b) :
    (ts.core a b).insideCondition (ts.rank a i) (ts.rank a floor) = ts.insideCondition i floor := by
  rw [insideCondition, insideCondition, ts.rank_sub above]
  by_cases ordered : floor ≤ i
  · exact inside_condition_from_core above (by omega)
  · have none : i - floor = 0 := by omega
    rw [none]
    rfl

theorem starts_statement_core (above : a ≤ floor) (below : i ≤ b) :
    (ts.core a b).startsStatement (ts.rank a i) (ts.rank a floor) = ts.startsStatement i floor := by
  rw [startsStatement, startsStatement, ← prev_core above below]
  cases found : ts.prevSignificant i floor with
  | none => rfl
  | some prev => exact core_kind_is (prev_stands above below found) _

/-- What becomes of a result is the same in the core. -/
theorem fate_core {start : Nat} (lower : a ≤ start) (above : a ≤ floor) (below : limit ≤ b) :
    (ts.core a b).fate subject (ts.rank a start) (ts.rank a floor) (ts.rank a limit) =
      ts.fate subject start floor limit := by
  have bound : min limit ts.size ≤ b := by omega
  have named := @first_in_rank ts a b
    (fun i => (ts.matchSubject limit subject i).isSome && !ts.isMember i floor)
    (fun i => ((ts.core a b).matchSubject (ts.rank a limit) subject i).isSome &&
      !(ts.core a b).isMember i (ts.rank a floor))
    (fun i trivia => by simp [matchSubject, trivia])
    (fun i stands => by
      rw [← match_subject_core stands below, Option.isSome_map, is_member_core above (Nat.le_of_lt stands.below)])
    start (min limit ts.size) lower bound
  rw [rank_min_size] at named
  rw [fate, fate, min_core_size below]
  split
  · rfl
  · simp only [← named]
    cases found : Position.firstIn? (fun i => (ts.matchSubject limit subject i).isSome &&
        !ts.isMember i floor) start (min limit ts.size) with
    | none => rfl
    | some i =>
      obtain ⟨behind, ahead, passes⟩ := Position.first_in_bounds found
      have carries : ts.isSignificant i = true := by
        rw [← Bool.not_eq_false]
        intro trivia
        simp [matchSubject, trivia] at passes
      have stands : ts.Stands a b i := ⟨by omega, by omega, carries⟩
      have upper := Nat.le_of_lt stands.below
      have follows : (((ts.core a b).matchSubject (ts.rank a limit) subject (ts.rank a i)).bind
          ((ts.core a b).nextSignificant · (ts.rank a limit))).any ((ts.core a b).hasKind · .assign) =
          ((ts.matchSubject limit subject i).bind (ts.nextSignificant · limit)).any
            (ts.hasKind · .assign) := by
        rw [← match_subject_core stands below]
        cases matched : ts.matchSubject limit subject i with
        | none => rfl
        | some stop =>
          rw [matchSubject, if_pos carries] at matched
          have later := match_words_lower matched
          exact next_any_core (by omega) below fun _ stands => core_has_kind stands _
      simp only [Option.map_some, follows, starts_statement_core above upper, inside_condition_core above upper]

end Fate

/-! ## Sites -/

section Sites

variable {ts : TokenSeq} {a b call start region close stop floor limit : Nat} {argument : Nat × Nat}
  {arguments : List (Nat × Nat)}

theorem spell_range_none (missing : ts.nextSignificant start stop = none) : ts.spellRange start stop = "" := by
  have none : ts.significant start stop = [] := by
    refine List.filter_eq_nil_iff.2 fun i member carries => ?_
    have bounds := Position.mem_range.1 member
    rw [next_significant_none missing bounds.1 (by omega)] at carries
    cases carries
  rw [spellRange, none]
  rfl

/-- An argument without a token that carries meaning receives nothing that could be spelled. -/
theorem argument_resource_none (missing : ts.nextSignificant argument.1 argument.2 = none) :
    ts.argumentResource argument = "" := by
  have later : ts.nextSignificant (argument.1 + 1) argument.2 = none := by
    cases found : ts.nextSignificant (argument.1 + 1) argument.2 with
    | none => rfl
    | some next =>
      obtain ⟨lower, upper, carries, _⟩ := next_significant_iff.1 found
      rw [next_significant_none missing (by omega) upper] at carries
      cases carries
  simp only [argumentResource, missing, later, Option.getD_none, ite_self]
  exact spell_range_none missing

theorem argument_resource_core (above : a ≤ argument.1) (below : argument.2 ≤ b) :
    (ts.core a b).argumentResource (ts.rank a argument.1, ts.rank a argument.2) =
      ts.argumentResource argument := by
  have core := @next_core ts a b argument.1 argument.2 above below
  cases found : ts.nextSignificant argument.1 argument.2 with
  | none =>
    rw [found] at core
    rw [argument_resource_none found, argument_resource_none core.symm]
  | some first =>
    rw [found] at core
    have stands := next_stands above below found
    have behind : a ≤ first + 1 := Nat.le_succ_of_le stands.above
    simp only [argumentResource, ← core, found, Option.map_some, Option.getD_some, core_has_kind stands,
      ← rank_meaning stands.above stands.carries, next_get_core behind below]
    split
    · refine spell_range_core ?_ below
      cases next : ts.nextSignificant (first + 1) argument.2 with
      | none => exact stands.above
      | some start => exact (next_stands behind below next).above
    · exact spell_range_core stands.above below

theorem rank_beq {i j : Nat} (stands : ts.Stands a b i) (other : ts.Stands a b j) :
    (ts.rank a i == ts.rank a j) = (i == j) := by
  rw [Bool.eq_iff_iff, beq_iff_eq, beq_iff_eq]
  constructor
  · exact rank_injective stands.above other.above stands.carries other.carries
  · rintro rfl
    rfl

theorem left_any_core {p q : Nat → Bool} (above : a ≤ region) (below : call ≤ b)
    (agree : ∀ i, ts.Stands a b i → q (ts.rank a i) = p i) :
    ((ts.core a b).beforeCasts? (ts.rank a call) (ts.rank a region)).any q =
      (ts.beforeCasts? call region).any p := by
  rw [← before_casts_core above below]
  cases found : ts.beforeCasts? call region with
  | none => rfl
  | some left => exact agree left (before_casts_stands above below found)

/-- The lvalue that takes the result of a call is the same in the core. -/
theorem subject_core (above : a ≤ region) (below : call ≤ b) :
    (((ts.core a b).beforeCasts? (ts.rank a call) (ts.rank a region)).filter
        ((ts.core a b).hasKind · .assign)).bind ((ts.core a b).lvalueBefore · (ts.rank a region)) =
      (((ts.beforeCasts? call region).filter (ts.hasKind · .assign)).bind
        (ts.lvalueBefore · region)).map fun range => (ts.rank a range.1, ts.rank a range.2) := by
  rw [← before_casts_core above below]
  cases found : ts.beforeCasts? call region with
  | none => rfl
  | some left =>
    have stands := before_casts_stands above below found
    simp only [Option.map_some, Option.filter_some, core_has_kind stands]
    split
    · rw [Option.bind_some, Option.bind_some, lvalue_core above (Nat.le_of_lt stands.below)]
    · rfl

theorem statement_ends_core {depth : Nat} (stands : ts.Stands a b close) (below : limit ≤ b) :
    ((ts.core a b).nextSignificant (ts.rank a close + 1) (ts.rank a limit) ==
        (ts.core a b).statementStop? (ts.rank a close) depth (ts.rank a limit)) =
      (ts.nextSignificant (close + 1) limit == ts.statementStop? close depth limit) := by
  have above := Nat.le_succ_of_le stands.above
  rw [← statement_stop_core stands below, ← rank_meaning stands.above stands.carries, ← next_core above below]
  cases next : ts.nextSignificant (close + 1) limit with
  | none => cases ts.statementStop? close depth limit <;> rfl
  | some i =>
    cases stops : ts.statementStop? close depth limit with
    | none => rfl
    | some semi =>
      have bounds := statement_stop_bounds stops
      have place : ts.Stands a b semi := ⟨by omega, by omega, significant_of_kind (statement_stop_kind stops) rfl⟩
      exact rank_beq (next_stands above below next) place

theorem spellings_core (above : a ≤ start) (below : stop ≤ b) :
    ((ts.core a b).significant (ts.rank a start) (ts.rank a stop)).map (ts.core a b).spelling =
      (ts.significant start stop).map ts.spelling := by
  rw [← significant_core above below, List.map_map]
  exact List.map_congr_left fun i member => core_spelling (significant_stands above below i member)

theorem condition_core (above : a ≤ floor) (ordered : floor ≤ call) (below : call ≤ b) :
    (((ts.callContext call floor).parens.map (ts.rank a)).getLast?.any fun opening =>
        (ts.core a b).opensCondition opening (ts.rank a (ts.callContext call floor).region)) =
      (ts.callContext call floor).parens.getLast?.any fun opening =>
        ts.opensCondition opening (ts.callContext call floor).region := by
  obtain ⟨lower, upper, _⟩ := @context_region_core ts a b call floor above ordered below
  have inside := (@scan_to_core ts a b (ts.callContext call floor).region call (by omega) upper below).1
  rw [List.getLast?_map]
  cases last : (ts.callContext call floor).parens.getLast? with
  | none => rfl
  | some opening =>
    have bound : opening ≤ b := inside.opened opening (List.mem_of_getLast? last)
    exact follows_word_core (by omega) bound

theorem argument_core (given : ∀ argument ∈ arguments, a ≤ argument.1 ∧ argument.2 ≤ b) (n : Nat) :
    (arguments.map fun range => (ts.rank a range.1, ts.rank a range.2))[n]?.map
        (ts.core a b).argumentResource = arguments[n]?.map ts.argumentResource := by
  rw [List.getElem?_map]
  cases taken : arguments[n]? with
  | none => rfl
  | some argument =>
    obtain ⟨above, below⟩ := given argument (List.mem_of_getElem? taken)
    exact congrArg some (argument_resource_core above below)

theorem subject_stands (above : a ≤ region) (below : call ≤ b)
    (takes : ((ts.beforeCasts? call region).filter (ts.hasKind · .assign)).bind (ts.lvalueBefore · region) =
      some (start, stop)) : ts.Stands a b start ∧ stop ≤ b := by
  obtain ⟨assign, left, lvalue⟩ := Option.bind_eq_some_iff.1 takes
  have bounds := before_casts_bounds (Option.filter_eq_some_iff.1 left).1
  obtain ⟨lower, upper, carries⟩ := lvalue_first lvalue
  obtain ⟨last, _, before, _, rfl, _⟩ := lvalue_before_cases lvalue
  have ends := prev_significant_bounds before
  exact ⟨⟨by omega, by omega, carries⟩, by omega⟩

/-- A call is classified in the same way in the core. -/
theorem classify_core {allocator : Allocator} (above : a ≤ floor) (ordered : floor ≤ call)
    (stands : ts.Stands a b call) (closes : ts.Stands a b close) (below : limit ≤ b)
    (given : ∀ argument ∈ arguments, a ≤ argument.1 ∧ argument.2 ≤ b) :
    (ts.core a b).classify allocator (ts.rank a call) (ts.rank a close)
        (arguments.map fun range => (ts.rank a range.1, ts.rank a range.2)) (ts.rank a floor)
        (ts.rank a limit) =
      (ts.classify allocator call close arguments floor limit).relocate (ts.rank a) := by
  have upper := Nat.le_of_lt stands.below
  obtain ⟨lower, ahead, _⟩ := @context_region_core ts a b call floor above ordered upper
  have aboveRegion : a ≤ (ts.callContext call floor).region := by omega
  obtain ⟨first, last, meaning, _⟩ := call_context_starts ordered stands.carries
  have statement : ts.Stands a b (ts.callContext call floor).statement :=
    ⟨by omega, Nat.lt_of_le_of_lt last stands.below, meaning⟩
  have returned : ((ts.core a b).beforeCasts? (ts.rank a call)
      (ts.rank a (ts.callContext call floor).region)).any ((ts.core a b).isIdent · "return") =
      (ts.beforeCasts? call (ts.callContext call floor).region).any (ts.isIdent · "return") :=
    left_any_core aboveRegion upper fun _ stands => core_is_ident stands _
  simp only [classify, call_context_core above ordered stands, CallContext.relocate, Site.relocate,
    subject_core aboveRegion upper, statement_ends_core closes below, List.length_map,
    List.isEmpty_map, returned, condition_core above ordered upper, argument_core given,
    rank_beq statement stands]
  simp only [← statement_stop_core closes below, Option.isSome_map]
  generalize taken : ((ts.beforeCasts? call (ts.callContext call floor).region).filter
    (ts.hasKind · .assign)).bind (ts.lvalueBefore · (ts.callContext call floor).region) = subject
  generalize stops : ts.statementStop? close (ts.callContext call floor).parens.length limit = semi
  have behind : (semi.map (ts.rank a)).getD (ts.rank a close) + 1 = ts.rank a (semi.getD close + 1) ∧
      a ≤ semi.getD close + 1 := by
    cases semi with
    | none => exact ⟨(rank_meaning closes.above closes.carries).symm, Nat.le_succ_of_le closes.above⟩
    | some semi =>
      have bounds := statement_stop_bounds stops
      have lower := closes.above
      have ends : ts.isSignificant semi = true := significant_of_kind (statement_stop_kind stops) rfl
      exact ⟨(rank_meaning (by omega) ends).symm, by
        simp only [Option.getD_some]
        omega⟩
  cases subject with
  | none =>
    simp only [Option.map_none]
    cases (ts.callContext call floor).parens.isEmpty with
    | true => cases semi <;> rfl
    | false => rfl
  | some range =>
    obtain ⟨start, stop⟩ := range
    obtain ⟨starts, ends⟩ := subject_stands aboveRegion upper taken
    simp only [Option.map_some, rank_beq starts statement, behind.1,
      spellings_core starts.above ends, fate_core behind.2 above below,
      spell_range_core starts.above ends]
    cases (ts.callContext call floor).parens.isEmpty with
    | true => cases semi <;> rfl
    | false => rfl

theorem site_at_core {registry : Registry} {start stop i : Nat} (above : a ≤ start) (ordered : start ≤ i)
    (below : stop ≤ b) (stands : ts.Stands a b i) :
    (ts.core a b).siteAt? registry (ts.rank a start) (ts.rank a stop) (ts.rank a i) =
      (ts.siteAt? registry start stop i).map (Site.relocate (ts.rank a)) := by
  have behind : a ≤ i + 1 := Nat.le_succ_of_le stands.above
  simp only [siteAt?, Option.bind_eq_bind, core_has_kind stands, core_spelling stands,
    ← rank_meaning stands.above stands.carries, is_member_core above (Nat.le_of_lt stands.below),
    ← next_core behind below]
  cases isRegistered : ts.hasKind i .identifier && registry.isRegistered (ts.spelling i) with
  | false => rfl
  | true =>
    cases next : ts.nextSignificant (i + 1) stop with
    | none => rfl
    | some opening =>
      have opens := next_stands behind below next
      simp only [Option.map_some, Option.bind_some, core_has_kind opens, ← matching_close_core opens below]
      cases ts.hasKind opening .openParen && !ts.isMember i start with
      | false => rfl
      | true =>
        cases closing : ts.matchingClose opening stop with
        | none => rfl
        | some close =>
          have closes := close_stands opens.above below closing
          have bounds := matching_close_bounds closing
          have given := ts.split_arguments_bounds opening close
          have lower := opens.above
          have upper := closes.below
          simp only [Option.map_some, Option.bind_some, guard, ← split_arguments_core opens
            (Nat.le_of_lt upper), List.length_map]
          cases registry.lookup (ts.spelling i) (ts.splitArguments opening close).length with
          | none => rfl
          | some allocator =>
            refine congrArg some (classify_core above ordered stands closes below ?_)
            intro argument member
            have place := given argument member
            exact ⟨by omega, by omega⟩

/-- The sites of a range are those of its core. -/
theorem sites_core {registry : Registry} (above : a ≤ start) (below : stop ≤ b) :
    (ts.sites registry start stop).map (Site.relocate (ts.rank a)) =
      (ts.core a b).sites registry (ts.rank a start) (ts.rank a stop) := by
  have bound : min stop ts.size ≤ b := by omega
  simp only [sites, min_core_size below]
  rw [← ts.rank_min_size a stop]
  refine filter_map_range_rank above bound (fun i trivia => ?_) fun i ordered stands =>
    site_at_core above ordered bound stands
  have other : ts.hasKind i .identifier = false := has_kind_blank trivia rfl
  simp [siteAt?, other]

end Sites

end TokenSeq

end AllocGuard
