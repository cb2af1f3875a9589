import AllocGuard.Proofs.FunctionRanges
import AllocGuard.Proofs.SiteBlindness

/-! Functions are found by the tokens that carry meaning. Where a function starts and stops,
where its parameter list and its body open, and what it calls is the same in the core of the
sequence. The outline itself is not: it lists comments, and a comment in front of a trailing
variable splits an item. The functions among its items do not depend on that. -/
namespace AllocGuard

/-- The item at other positions. -/
def Item.relocate (place : Nat → Nat) (item : Item) : Item :=
  ⟨item.kind, place item.start, place item.stop⟩

namespace TokenSeq

/-! ## One step of each search -/

theorem aggregate_stop_eq (ts : TokenSeq) (limit j : Nat) :
    ts.aggregateStopFrom limit j = (ts.nextSignificant j limit).bind fun k =>
      match ts.kind? k with
      | some .identifier => ts.aggregateStopFrom limit (k + 1)
      | some .openParen =>
        (ts.matchingClose k limit).bind fun close => ts.aggregateStopFrom limit (close + 1)
      | some .openBrace => some (((ts.matchingClose k limit).map (· + 1)).getD limit)
      | _ => none := by
  rw [aggregateStopFrom]
  split
  · rename_i none
    rw [none]
    rfl
  · rename_i k next
    rw [next, Option.bind_some]
    generalize ts.kind? k = seen
    cases seen with
    | none => rfl
    | some kind =>
      cases kind with
      | openParen =>
        dsimp only
        split
        · rename_i none
          rw [none]
          rfl
        · rename_i close closes
          rw [closes, Option.bind_some]
      | _ => rfl

theorem parameter_list_eq (ts : TokenSeq) (start stop : Nat) (aggregate : Bool) (i : Nat) :
    ts.parameterListFrom start stop aggregate i =
      if i < stop then (ts.kind? i).bind fun kind =>
        if kind.isAggregate then ts.parameterListFrom start stop true (i + 1)
        else if kind == .openBrace then
          if aggregate then (ts.matchingClose i stop).bind fun close =>
            ts.parameterListFrom start stop false (close + 1)
          else none
        else if kind == .openParen then
          if (ts.prevSignificant i start).any (ts.isFunctionName · stop) then some i
          else (ts.matchingClose i stop).bind fun close =>
            ts.parameterListFrom start stop aggregate (close + 1)
        else if kind == .semicolon then none
        else ts.parameterListFrom start stop aggregate (i + 1)
      else none := by
  rw [parameterListFrom]
  refine ite_congr rfl (fun _ => ?_) fun _ => rfl
  split
  · rename_i none
    rw [none]
    rfl
  · rename_i kind seen
    rw [seen, Option.bind_some]
    refine ite_congr rfl (fun _ => rfl) fun _ => ite_congr rfl (fun _ => ?_) fun _ =>
      ite_congr rfl (fun _ => ?_) fun _ => rfl
    · refine ite_congr rfl (fun _ => ?_) fun _ => rfl
      split
      · rename_i none
        rw [none]
        rfl
      · rename_i close closes
        rw [closes, Option.bind_some]
    · refine ite_congr rfl (fun _ => rfl) fun _ => ?_
      split
      · rename_i none
        rw [none]
        rfl
      · rename_i close closes
        rw [closes, Option.bind_some]

theorem skip_storage_eq (ts : TokenSeq) (i limit : Nat) :
    ts.skipStorage i limit =
      match ts.nextSignificant i limit with
      | none => min i limit
      | some k =>
        if ts.isStorageAt k then ts.skipStorage (k + 1) limit
        else if ts.isAttributeAt k limit then
          (((ts.nextSignificant (k + 1) limit).bind (ts.matchingClose · limit)).map fun close =>
            ts.skipStorage (close + 1) limit).getD k
        else k := by
  rw [skipStorage]
  split
  · rename_i none
    rw [none]
  · rename_i k next
    simp only [next]
    refine ite_congr rfl (fun _ => rfl) fun _ => ite_congr rfl (fun _ => ?_) fun _ => rfl
    split
    · rename_i none
      rw [none]
      rfl
    · rename_i close closes
      rw [closes]
      rfl

/-! ## Headers -/

section Header

variable {ts : TokenSeq} {a b start i j limit stop opening : Nat}

theorem core_kind_end (behind : b ≤ j) : (ts.core a b).kind? (ts.rank a j) = none := by
  apply kind_end
  rw [core_size]
  exact ts.rank_mono a behind

theorem close_behind_core (stands : ts.Stands a b i) (below : limit ≤ b) :
    (((ts.core a b).matchingClose (ts.rank a i) (ts.rank a limit)).map (· + 1)).getD (ts.rank a limit) =
      ts.rank a (((ts.matchingClose i limit).map (· + 1)).getD limit) := by
  rw [← matching_close_core stands below]
  cases closes : ts.matchingClose i limit with
  | none => rfl
  | some close =>
    have place := close_stands stands.above below closes
    exact (rank_meaning place.above place.carries).symm

theorem function_stop_core (prev : Option TokenKind) (named : Bool) (j : Nat) :
    (ts.functionStopFrom prev named j).map (ts.rank 0) =
      (ts.core 0 ts.size).functionStopFrom prev named (ts.rank 0 j) := by
  induction j using Position.forward_induction ts.size generalizing prev named with
  | step j ih =>
    by_cases inside : j < ts.size
    · by_cases carries : ts.isSignificant j = true
      · have stands : ts.Stands 0 ts.size j := ⟨Nat.zero_le j, inside, carries⟩
        obtain ⟨kind, seen, meaning⟩ := kind_is_iff.1 carries
        rw [Bool.not_eq_true'] at meaning
        rw [function_stop_eq, function_stop_eq (ts.core 0 ts.size), core_kind stands, seen, core_size]
        simp only [Option.bind_some, meaning, Bool.false_eq_true, if_false]
        split
        · rfl
        · split
          · split
            · rw [close_behind_core stands (Nat.le_refl _)]
              rfl
            · rfl
          · split
            · rw [← matching_close_core stands (Nat.le_refl _)]
              cases closes : ts.matchingClose j ts.size with
              | none => rfl
              | some close =>
                have place := close_stands (Nat.zero_le j) (Nat.le_refl _) closes
                have bounds := matching_close_bounds closes
                rw [Option.map_some, Option.bind_some, Option.bind_some, core_kind place,
                  ← rank_meaning place.above place.carries]
                exact ih (close + 1) (by omega) inside _ _
            · rw [← rank_meaning stands.above carries]
              exact ih (j + 1) (Nat.lt_succ_self j) inside _ _
      · have blank := Bool.eq_false_iff.2 carries
        have step := ih (j + 1) (Nat.lt_succ_self j) inside prev named
        rw [rank_blank (Nat.zero_le j) blank] at step
        rw [function_stop_eq]
        rcases trivia_kind inside blank with seen | seen
        · rw [seen]
          exact step
        · rw [seen]
          exact step
    · rw [function_stop_eq, kind_end (Nat.le_of_not_lt inside), function_stop_eq (ts.core 0 ts.size),
        core_kind_end (Nat.le_of_not_lt inside)]
      rfl

theorem aggregate_stop_core (above : a ≤ j) (below : limit ≤ b) :
    (ts.aggregateStopFrom limit j).map (ts.rank a) =
      (ts.core a b).aggregateStopFrom (ts.rank a limit) (ts.rank a j) := by
  induction j using Position.forward_induction ts.size with
  | step j ih =>
    rw [aggregate_stop_eq, aggregate_stop_eq (ts.core a b), ← next_core above below]
    cases next : ts.nextSignificant j limit with
    | none => rfl
    | some k =>
      have stands := next_stands above below next
      have found := next_significant_bounds next
      simp only [Option.map_some, Option.bind_some, core_kind stands]
      split
      · rw [← rank_meaning stands.above stands.carries]
        exact ih (k + 1) (by omega) (by omega) (by omega)
      · rw [← matching_close_core stands below]
        cases closes : ts.matchingClose k limit with
        | none => rfl
        | some close =>
          have place := close_stands stands.above below closes
          have bounds := matching_close_bounds closes
          rw [Option.map_some, Option.bind_some, Option.bind_some, ← rank_meaning place.above place.carries]
          exact ih (close + 1) (by omega) (by omega) (by omega)
      · rw [close_behind_core stands below]
        rfl
      · rfl

theorem is_call_shaped_core (stands : ts.Stands a b i) (below : limit ≤ b) :
    (ts.core a b).isCallShaped (ts.rank a i) (ts.rank a limit) = ts.isCallShaped i limit := by
  have behind : a ≤ i + 1 := Nat.le_succ_of_le stands.above
  have opens := @next_any_core ts a b (i + 1) limit (ts.hasKind · .openParen)
    ((ts.core a b).hasKind · .openParen) behind below fun _ stands => core_has_kind stands _
  simp only [isCallShaped, core_kind stands, core_spelling stands, ← rank_meaning stands.above stands.carries, opens]

theorem is_storage_core (stands : ts.Stands a b i) : (ts.core a b).isStorageAt (ts.rank a i) = ts.isStorageAt i := by
  rw [isStorageAt, isStorageAt, core_kind_is stands, core_has_kind stands, core_spelling stands]

theorem is_attribute_core (stands : ts.Stands a b i) (below : limit ≤ b) :
    (ts.core a b).isAttributeAt (ts.rank a i) (ts.rank a limit) = ts.isAttributeAt i limit := by
  rw [isAttributeAt, isAttributeAt, core_has_kind stands, core_spelling stands, is_call_shaped_core stands below]

theorem is_function_name_core (stands : ts.Stands a b i) (below : limit ≤ b) :
    (ts.core a b).isFunctionName (ts.rank a i) (ts.rank a limit) = ts.isFunctionName i limit := by
  rw [isFunctionName, isFunctionName, core_has_kind stands, core_spelling stands, is_call_shaped_core stands below]

theorem rank_min (ts : TokenSeq) (a i j : Nat) : ts.rank a (min i j) = min (ts.rank a i) (ts.rank a j) := by
  rcases Nat.le_total i j with before | behind
  · rw [Nat.min_eq_left before, Nat.min_eq_left (ts.rank_mono a before)]
  · rw [Nat.min_eq_right behind, Nat.min_eq_right (ts.rank_mono a behind)]

/-- A type starts at the same token of the core. -/
theorem skip_storage_core (above : a ≤ i) (below : limit ≤ b) :
    (ts.core a b).skipStorage (ts.rank a i) (ts.rank a limit) = ts.rank a (ts.skipStorage i limit) := by
  induction i using Position.forward_induction ts.size with
  | step i ih =>
    rw [skip_storage_eq, skip_storage_eq ts, ← next_core above below]
    cases next : ts.nextSignificant i limit with
    | none => exact (ts.rank_min a i limit).symm
    | some k =>
      have stands := next_stands above below next
      have found := next_significant_bounds next
      have behind : a ≤ k + 1 := Nat.le_succ_of_le stands.above
      simp only [Option.map_some, is_storage_core stands, is_attribute_core stands below,
        ← rank_meaning stands.above stands.carries]
      split
      · exact ih (k + 1) (by omega) (by omega) behind
      · split
        · rw [← next_core behind below]
          cases opens : ts.nextSignificant (k + 1) limit with
          | none => rfl
          | some opening =>
            have group := next_stands behind below opens
            have opened := next_significant_bounds opens
            rw [Option.map_some, Option.bind_some, Option.bind_some, ← matching_close_core group below]
            cases closes : ts.matchingClose opening limit with
            | none => rfl
            | some close =>
              have place := close_stands group.above below closes
              have bounds := matching_close_bounds closes
              simp only [Option.map_some, Option.getD_some, ← rank_meaning place.above place.carries]
              exact ih (close + 1) (by omega) (by omega) (Nat.le_succ_of_le place.above)
        · rfl

/-- A parameter list opens at the same token of the core. -/
theorem parameter_list_from_core {start stop i : Nat} {aggregate : Bool} (lower : a ≤ start)
    (above : a ≤ i) (below : stop ≤ b) :
    (ts.parameterListFrom start stop aggregate i).map (ts.rank a) =
      (ts.core a b).parameterListFrom (ts.rank a start) (ts.rank a stop) aggregate (ts.rank a i) := by
  induction i using Position.forward_induction ts.size generalizing aggregate with
  | step i ih =>
    by_cases inside : i < stop
    · by_cases carries : ts.isSignificant i = true
      · have stands : ts.Stands a b i := ⟨above, by omega, carries⟩
        have bound := lt_size_of_significant carries
        have further (aggregate : Bool) := @ih (i + 1) (Nat.lt_succ_self i) bound aggregate (by omega)
        have group (aggregate : Bool) :
            ((ts.matchingClose i stop).bind fun close =>
              ts.parameterListFrom start stop aggregate (close + 1)).map (ts.rank a) =
            ((ts.core a b).matchingClose (ts.rank a i) (ts.rank a stop)).bind fun close =>
              (ts.core a b).parameterListFrom (ts.rank a start) (ts.rank a stop) aggregate (close + 1) := by
          rw [← matching_close_core stands below]
          cases closes : ts.matchingClose i stop with
          | none => rfl
          | some close =>
            have place := close_stands above below closes
            have bounds := matching_close_bounds closes
            rw [Option.map_some, Option.bind_some, Option.bind_some, ← rank_meaning place.above place.carries]
            exact @ih (close + 1) (by omega) bound aggregate (by omega)
        have name := @prev_any_core ts a b i start (ts.isFunctionName · stop)
          ((ts.core a b).isFunctionName · (ts.rank a stop)) lower (by omega)
          fun _ stands => is_function_name_core stands below
        obtain ⟨kind, seen, _⟩ := kind_is_iff.1 carries
        simp only [rank_meaning above carries] at further
        rw [parameter_list_eq, parameter_list_eq (ts.core a b), if_pos inside,
          if_pos (rank_lt above carries inside), core_kind stands, seen]
        simp only [Option.bind_some, name]
        split
        · exact further true
        · split
          · split
            · exact group false
            · rfl
          · split
            · split
              · rfl
              · exact group aggregate
            · split
              · rfl
              · exact further aggregate
      · have blank := Bool.eq_false_iff.2 carries
        by_cases bound : i < ts.size
        · have step := @ih (i + 1) (Nat.lt_succ_self i) bound aggregate (by omega)
          rw [rank_blank above blank] at step
          rw [parameter_list_eq, if_pos inside]
          rcases trivia_kind bound blank with seen | seen
          · rw [seen]
            exact step
          · rw [seen]
            exact step
        · have missing := kind_end (Nat.le_of_not_lt bound)
          have past : ¬ ts.rank a i < ts.rank a stop := by
            rw [← ts.rank_min_size a stop]
            exact Nat.not_lt.2 (ts.rank_mono a (by omega))
          rw [parameter_list_eq, if_pos inside, missing, parameter_list_eq (ts.core a b), if_neg past]
          rfl
    · have past := Nat.not_lt.2 (ts.rank_mono a (Nat.le_of_not_lt inside))
      rw [parameter_list_eq, if_neg inside, parameter_list_eq (ts.core a b), if_neg past]
      rfl

theorem parameter_list_core {start stop : Nat} (above : a ≤ start) (below : stop ≤ b) :
    (ts.parameterList? start stop).map (ts.rank a) =
      (ts.core a b).parameterList? (ts.rank a start) (ts.rank a stop) :=
  parameter_list_from_core above above below

/-- What is found is a parenthesis behind a name. -/
theorem parameter_list_named {aggregate : Bool} (hit : ts.parameterListFrom start stop aggregate i = some opening) :
    ts.kind? opening = some .openParen ∧
      (ts.prevSignificant opening start).any (ts.isFunctionName · stop) = true := by
  fun_induction parameterListFrom ts start stop aggregate i with
  | case1 | case3 | case5 | case7 | case9 | case11 => cases hit
  | case2 aggregate i inside kind seen _ ih => exact ih hit
  | case4 i inside kind seen _ _ close closes ih => exact ih hit
  | case6 aggregate i inside kind seen _ _ opens named =>
    cases hit
    exact ⟨by rw [seen, eq_of_beq opens], named⟩
  | case8 aggregate i inside kind seen _ _ _ _ close closes ih => exact ih hit
  | case10 aggregate i inside kind seen _ _ _ _ ih => exact ih hit

theorem parameter_list_stands (above : a ≤ start) (below : stop ≤ b)
    (hit : ts.parameterList? start stop = some opening) : ts.Stands a b opening := by
  have bounds := parameter_list_bounds hit
  exact ⟨by omega, by omega, significant_of_kind (parameter_list_named hit).1 rfl⟩

/-- The body of a function opens at the same token of the core. -/
theorem body_open_core (above : a ≤ start) (below : stop ≤ b) :
    (ts.bodyOpen? start stop).map (ts.rank a) =
      (ts.core a b).bodyOpen? (ts.rank a start) (ts.rank a stop) := by
  have brace {after : Nat} (behind : a ≤ after) :
      (Position.firstIn? (ts.hasKind · .openBrace) after (min stop ts.size)).map (ts.rank a) =
        Position.firstIn? ((ts.core a b).hasKind · .openBrace) (ts.rank a after)
          (min (ts.rank a stop) (ts.core a b).size) := by
    rw [min_core_size below, ← ts.rank_min_size a stop]
    exact first_in_rank (fun _ blank => has_kind_blank blank rfl)
      (fun _ stands => core_has_kind stands _) behind (by omega)
  rw [bodyOpen?, bodyOpen?, ← parameter_list_core above below]
  cases list : ts.parameterList? start stop with
  | none => exact brace above
  | some opening =>
    have stands := parameter_list_stands above below list
    simp only [Option.map_some]
    rw [← matching_close_core stands below]
    cases closes : ts.matchingClose opening stop with
    | none => rfl
    | some close =>
      have place := close_stands stands.above below closes
      simp only [Option.map_some, Option.bind_eq_bind, Option.bind_some, ← rank_meaning place.above place.carries]
      exact brace (Nat.le_succ_of_le place.above)

theorem is_call_core (stands : ts.Stands a b i) (above : a ≤ start) (below : stop ≤ b) :
    (ts.core a b).isCall (ts.rank a start) (ts.rank a stop) (ts.rank a i) = ts.isCall start stop i := by
  have behind : a ≤ i + 1 := Nat.le_succ_of_le stands.above
  have opens := @next_any_core ts a b (i + 1) stop (ts.hasKind · .openParen)
    ((ts.core a b).hasKind · .openParen) behind below fun _ stands => core_has_kind stands _
  rw [isCall, isCall, core_has_kind stands, is_member_core above (Nat.le_of_lt stands.below),
    ← rank_meaning stands.above stands.carries, opens]

/-- The same names are called in the core. -/
theorem called_names_core (above : a ≤ start) (below : stop ≤ b) :
    (ts.core a b).calledNames (ts.rank a start) (ts.rank a stop) = ts.calledNames start stop := by
  have blank : ∀ i, ts.isSignificant i = false → ts.isCall start stop i = false := by
    intro i blank
    rw [isCall, has_kind_blank blank rfl]
    rfl
  rw [calledNames, calledNames, ← filter_range_rank blank
    (fun i stands => is_call_core stands above below) above below, List.map_map]
  refine List.map_congr_left fun i member => ?_
  obtain ⟨range, calls⟩ := List.mem_filter.1 member
  obtain ⟨lower, upper⟩ := Position.mem_range.1 range
  have carries : ts.isSignificant i = true := by
    by_contra missing
    rw [blank i (Bool.eq_false_iff.2 missing)] at calls
    cases calls
  exact core_spelling ⟨by omega, by omega, carries⟩

end Header

/-! ## The functions among the items -/

section Items
open Outline

variable {ts : TokenSeq}

theorem fresh_function_core (fresh : Bool) (i : Nat) :
    (ts.freshFunction? fresh i).map (ts.rank 0) =
      (ts.core 0 ts.size).freshFunction? fresh (ts.rank 0 i) := by
  cases fresh with
  | false => rfl
  | true => exact function_stop_core none false i

theorem aggregate_at_core {i : Nat} (stands : ts.Stands 0 ts.size i) (kind : TokenKind) :
    (ts.aggregateAt? kind i).map (ts.rank 0) =
      (ts.core 0 ts.size).aggregateAt? kind (ts.rank 0 i) := by
  rw [aggregateAt?, aggregateAt?]
  split
  · rw [aggregateStop?, aggregateStop?, core_size, ← rank_meaning stands.above stands.carries]
    exact aggregate_stop_core (Nat.zero_le _) (Nat.le_refl _)
  · rfl

theorem rank_origin (ts : TokenSeq) (fresh : Bool) (origin i : Nat) :
    (if fresh then ts.rank 0 i else ts.rank 0 origin) = ts.rank 0 (if fresh then i else origin) := by
  cases fresh <;> rfl

/-- The same functions are found in the core. -/
theorem function_items_core (fresh : Bool) (origin i : Nat) :
    (ts.functionItemsFrom fresh origin i).map (Item.relocate (ts.rank 0)) =
      (ts.core 0 ts.size).functionItemsFrom fresh (ts.rank 0 origin) (ts.rank 0 i) := by
  induction i using Position.forward_induction ts.size generalizing fresh origin with
  | step i ih =>
    by_cases inside : i < ts.size
    · by_cases carries : ts.isSignificant i = true
      · have stands : ts.Stands 0 ts.size i := ⟨Nat.zero_le i, inside, carries⟩
        obtain ⟨kind, seen, meaning⟩ := kind_is_iff.1 carries
        have seen' : (ts.core 0 ts.size).kind? (ts.rank 0 i) = some kind := (core_kind stands).trans seen
        have step := rank_meaning stands.above carries
        cases skipped : kind.isTrivia || kind == .directive with
        | true =>
          rw [function_items_skip seen skipped, function_items_skip seen' skipped, ← step]
          exact ih (i + 1) (Nat.lt_succ_self i) inside fresh origin
        | false =>
          rw [function_items_step seen skipped, function_items_step seen' skipped,
            ← fresh_function_core, ← aggregate_at_core stands, rank_origin, ← step]
          cases whole : ts.freshFunction? fresh i with
          | some stop =>
            have bounds := fresh_function_bounds whole
            simp only [Option.map_some, List.map_cons, ih stop bounds.1 inside]
            rfl
          | none =>
            cases body : ts.aggregateAt? kind i with
            | none =>
              exact ih (i + 1) (Nat.lt_succ_self i) inside _ _
            | some stop =>
              have bounds := aggregate_at_bounds body
              have header := @function_stop_core ts none false stop
              rw [← functionStop?, ← functionStop?] at header
              simp only [Option.map_none, Option.map_some, ← header]
              cases late : ts.functionStop? stop with
              | some functionStop =>
                have after := function_stop_bounds late
                simp only [Option.map_some, List.map_cons, ih functionStop (by omega) inside]
                rfl
              | none => exact ih stop bounds.1 inside false _
      · have blank := Bool.eq_false_iff.2 carries
        have later := ih (i + 1) (Nat.lt_succ_self i) inside fresh origin
        rw [rank_blank (Nat.zero_le i) blank] at later
        rcases trivia_kind inside blank with seen | seen
        · rw [function_items_skip seen rfl]
          exact later
        · rw [function_items_skip seen rfl]
          exact later
    · rw [function_items_none (kind_end (Nat.le_of_not_lt inside)),
        function_items_none (core_kind_end (Nat.le_of_not_lt inside))]
      rfl

/-- The functions of a source are those of its core. -/
theorem outline_functions_core (ts : TokenSeq) :
    (functions ts.outline).map (Item.relocate (ts.rank 0)) = functions (ts.core 0 ts.size).outline := by
  rw [outline_functions, outline_functions]
  exact function_items_core true 0 0

end Items

end TokenSeq

end AllocGuard
