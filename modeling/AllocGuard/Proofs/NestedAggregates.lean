import Mathlib.Data.List.Sort
import Mathlib.Logic.Relation
import AllocGuard.Proofs.OutlinePartition

/-! The aggregates inside an aggregate. The outline has one item, and only one, for every keyword of
an aggregate inside another one, whether the text is well-formed or not: its body may end too early or
not at all, and groups of attributes may stand around its tag. The aggregates can be searched with a
list of bodies that wait to be looked through. That search ends, and what it finds, put in order, is
what the outline has. -/
namespace AllocGuard

/-- The items that are aggregates. -/
def Outline.aggregates (items : List Item) : List Item :=
  items.filter (·.kind.isAggregate)

theorem Outline.mem_aggregates {items : List Item} {item : Item} :
    item ∈ Outline.aggregates items ↔ item ∈ items ∧ item.kind.isAggregate = true :=
  List.mem_filter

namespace TokenSeq

variable {ts : TokenSeq} {outer item : Item} {start stop i : Nat} {items inner : List Item} {kind : TokenKind}

/-! ## Keywords and items -/

/-- The keyword of an aggregate stands at `i`. -/
def Keyword (ts : TokenSeq) (i : Nat) (kind : TokenKind) : Prop :=
  ts.kind? i = some kind ∧ kind.isAggregate = true

theorem Keyword.significant (keyword : ts.Keyword i kind) : ts.isSignificant i = true := by
  refine significant_of_kind keyword.1 ?_
  have aggregate := keyword.2
  cases kind <;> first | rfl | cases aggregate

theorem Keyword.not_identifier (keyword : ts.Keyword i kind) : ts.hasKind i .identifier ≠ true := by
  intro name
  obtain ⟨seen, aggregate⟩ := keyword
  rw [has_kind_iff.1 name] at seen
  cases seen
  cases aggregate

section Complete

variable {ts : TokenSeq} {i : Nat} {kind : TokenKind}

/-- A keyword starts the first item, if it is the one that this item was found at, or one of those
behind. -/
theorem keyword_starts_item {kind' : TokenKind} {j stop : Nat} {rest : List Item}
    (keyword : ts.Keyword i kind) (seen : ts.kind? j = some kind') (lower : j ≤ i)
    (behind : j < i → ∃ item ∈ rest, item.start = i ∧ item.kind = .ofToken kind) :
    ∃ item ∈ ⟨.ofToken kind', j, stop⟩ :: rest, item.start = i ∧ item.kind = .ofToken kind := by
  rcases Nat.eq_or_lt_of_le lower with rfl | after
  · rw [keyword.1] at seen
    cases seen
    exact ⟨_, List.mem_cons_self, rfl, rfl⟩
  · obtain ⟨item, member, found⟩ := behind after
    exact ⟨item, List.mem_cons_of_mem _ member, found⟩

/-- Every keyword in a range starts an item there, of its own kind. -/
theorem nested_aggregates_complete (keyword : ts.Keyword i kind) (j stop : Nat) (lower : j ≤ i) (upper : i < stop) :
    ∃ item ∈ ts.nestedAggregates j stop, item.start = i ∧ item.kind = .ofToken kind := by
  fun_induction nestedAggregates ts j stop with
  | case1 j stop inside missing =>
    have below := lt_size_of_kind keyword.1
    simp only [kind?, get?, Option.map_eq_none_iff, Array.getElem?_eq_none_iff] at missing
    have beyond : ts.size ≤ j := missing
    omega
  | case2 j stop inside kind' seen aggregate bodyStop body ihBody ihRest =>
    refine keyword_starts_item keyword seen lower fun after => ?_
    by_cases within : i < bodyStop
    · obtain ⟨item, member, found⟩ := ihBody after within
      exact ⟨item, List.mem_append_left _ member, found⟩
    · obtain ⟨item, member, found⟩ := ihRest (Nat.not_lt.1 within) upper
      exact ⟨item, List.mem_append_right _ member, found⟩
  | case3 j stop inside kind' seen aggregate body k tag named ih =>
    refine keyword_starts_item keyword seen lower fun after => ih ?_ upper
    -- between a keyword and its tag nothing carries meaning, and the tag is no keyword
    obtain ⟨_, _, _, blank⟩ := next_significant_iff.1 tag
    rcases Nat.lt_trichotomy i k with before | rfl | behind
    · have trivia := blank i after before
      rw [keyword.significant] at trivia
      cases trivia
    · exact absurd named keyword.not_identifier
    · exact behind
  | case4 j stop inside kind' seen aggregate body k tag unnamed ih =>
    exact keyword_starts_item keyword seen lower fun after => ih after upper
  | case5 j stop inside kind' seen aggregate body tag ih =>
    exact keyword_starts_item keyword seen lower fun after => ih after upper
  | case6 j stop inside kind' seen other ih =>
    refine ih (Nat.lt_of_le_of_ne lower ?_) upper
    rintro rfl
    rw [keyword.1] at seen
    cases seen
    exact other keyword.2
  | case7 j stop outside => omega

end Complete

/-- The items stand in the order of their keywords, and no two have the same one. -/
theorem nested_aggregates_ordered (ts : TokenSeq) (j stop : Nat) :
    (ts.nestedAggregates j stop).Pairwise (·.start < ·.start) := by
  fun_induction nestedAggregates ts j stop with
  | case1 j stop inside missing => exact List.Pairwise.nil
  | case2 j stop inside kind seen aggregate bodyStop body ihBody ihRest =>
    have inner := ts.nested_aggregates_within (j + 1) bodyStop
    have behind := ts.nested_aggregates_within bodyStop stop
    have bounds := aggregate_stop_bounds body
    rw [List.pairwise_cons, List.pairwise_append]
    refine ⟨fun item member => ?_, ihBody, ihRest, fun item inside other beyond => ?_⟩
    · rcases List.mem_append.1 member with inside | beyond
      · exact (inner item inside).lower
      · have lower := (behind item beyond).lower
        dsimp only
        omega
    · have nonempty := (inner item inside).nonempty
      have upper := (inner item inside).upper
      have lower := (behind other beyond).lower
      omega
  | case3 j stop inside kind seen aggregate body k tag named ih =>
    have bounds := next_significant_bounds tag
    refine List.pairwise_cons.2 ⟨fun item member => ?_, ih⟩
    have lower := (ts.nested_aggregates_within (k + 1) stop item member).lower
    dsimp only
    omega
  | case4 j stop inside kind seen aggregate body k tag unnamed ih =>
    exact List.pairwise_cons.2
      ⟨fun item member => (ts.nested_aggregates_within (j + 1) stop item member).lower, ih⟩
  | case5 j stop inside kind seen aggregate body tag ih =>
    exact List.pairwise_cons.2
      ⟨fun item member => (ts.nested_aggregates_within (j + 1) stop item member).lower, ih⟩
  | case6 j stop inside kind seen other ih => exact ih
  | case7 j stop outside => exact List.Pairwise.nil

/-! ## Blocks and layouts -/

open Outline

/-- The aggregates of a block stand in the order of their keywords. -/
theorem Formed.ordered (formed : ts.Formed outer inner) :
    (aggregates (outer :: inner)).Pairwise (·.start < ·.start) := by
  induction formed with
  | alone nonempty single => exact List.Pairwise.filter _ (List.pairwise_singleton _ _)
  | @aggregate kind i stop nonempty =>
    refine List.Pairwise.filter _ (List.pairwise_cons.2 ⟨fun item member => ?_, ?_⟩)
    · exact (ts.nested_aggregates_within (i + 1) stop item member).lower
    · exact ts.nested_aggregates_ordered (i + 1) stop
  | function formed aggregate lower upper ih => exact ih

/-- Every keyword inside an aggregate of a block starts an aggregate of the block. -/
theorem Formed.complete (formed : ts.Formed outer inner) (member : item ∈ aggregates (outer :: inner))
    (keyword : ts.Keyword i kind) (lower : item.start < i) (upper : i < item.stop) :
    ∃ found ∈ aggregates (outer :: inner), found.start = i ∧ found.kind = .ofToken kind := by
  induction formed with
  | @alone outer nonempty single =>
    obtain ⟨here, aggregate⟩ := mem_aggregates.1 member
    cases List.mem_singleton.1 here
    have short := single aggregate
    omega
  | @aggregate kind' first stop nonempty =>
    have within : first ≤ item.start ∧ item.stop ≤ stop := by
      rcases List.mem_cons.1 (mem_aggregates.1 member).1 with rfl | inside
      · exact ⟨Nat.le_refl _, Nat.le_refl _⟩
      · have within := ts.nested_aggregates_within (first + 1) stop item inside
        exact ⟨Nat.le_of_succ_le within.lower, within.upper⟩
    obtain ⟨found, inside, starts, same⟩ := nested_aggregates_complete keyword (first + 1) stop (by omega) (by omega)
    have aggregate := ts.nested_aggregates_all (first + 1) stop found inside
    exact ⟨found, mem_aggregates.2 ⟨List.mem_cons_of_mem _ inside, aggregate⟩, starts, same⟩
  | function formed aggregate lower upper ih => exact ih member

theorem aggregates_block (outer : Item) (inner rest : List Item) :
    aggregates (outer :: (inner ++ rest)) = aggregates (outer :: inner) ++ aggregates rest := by
  rw [← List.cons_append, aggregates, List.filter_append, aggregates, aggregates]

theorem layout_ordered (layout : ts.Layout start stop items) : (aggregates items).Pairwise (·.start < ·.start) := by
  induction layout with
  | done => exact List.Pairwise.nil
  | space _ _ ih => exact ih
  | @block outer inner rest stop formed behind ih =>
    rw [aggregates_block, List.pairwise_append]
    refine ⟨formed.ordered, ih, fun item inside other beyond => ?_⟩
    have within := (layout_within (layout_single formed)).2 item (mem_aggregates.1 inside).1
    have nonempty := within.nonempty
    have upper := within.upper
    have lower := ((layout_within behind).2 other (mem_aggregates.1 beyond).1).lower
    omega

theorem layout_complete (layout : ts.Layout start stop items) (member : item ∈ aggregates items)
    (keyword : ts.Keyword i kind) (lower : item.start < i) (upper : i < item.stop) :
    ∃ found ∈ aggregates items, found.start = i ∧ found.kind = .ofToken kind := by
  induction layout with
  | done => cases member
  | space _ _ ih => exact ih member
  | @block outer inner rest stop formed behind ih =>
    rw [aggregates_block] at member ⊢
    rcases List.mem_append.1 member with inside | beyond
    · obtain ⟨found, there, same⟩ := formed.complete inside keyword lower upper
      exact ⟨found, List.mem_append_left _ there, same⟩
    · obtain ⟨found, there, same⟩ := ih beyond
      exact ⟨found, List.mem_append_right _ there, same⟩

/-- Among items with different starts a start tells the item. -/
theorem filter_start (ordered : items.Pairwise (·.start < ·.start)) (member : item ∈ items) :
    items.filter (·.start == item.start) = [item] := by
  induction items with
  | nil => cases member
  | cons first rest ih =>
    obtain ⟨before, later⟩ := List.pairwise_cons.1 ordered
    rcases List.mem_cons.1 member with rfl | behind
    · have others : rest.filter (·.start == item.start) = [] := by
        rw [List.filter_eq_nil_iff]
        intro other there
        have gap := before other there
        simp only [beq_iff_eq]
        omega
      rw [List.filter_cons, if_pos (beq_self_eq_true _), others]
    · have gap := before item behind
      rw [List.filter_cons_of_neg (by simp only [beq_iff_eq]; omega), ih later behind]

/-- Items with different starts, in the order of these, are what sorting makes of any order. -/
theorem sort_starts {found : List Item} (ordered : items.Pairwise (·.start < ·.start)) (same : found.Perm items) :
    found.mergeSort (fun one two => one.start ≤ two.start) = items := by
  have sorted : (found.mergeSort fun one two => one.start ≤ two.start).Pairwise
      fun one two => decide (one.start ≤ two.start) = true := by
    apply List.pairwise_mergeSort
    · intro a b c first second
      simp only [decide_eq_true_eq] at *
      omega
    · intro a b
      simp only [Bool.or_eq_true, decide_eq_true_eq]
      omega
  have perm := (List.mergeSort_perm found fun one two => decide (one.start ≤ two.start)).trans same
  refine perm.eq_of_pairwise ?_ sorted (ordered.imp fun before => decide_eq_true (Nat.le_of_lt before))
  intro one two first second before behind
  have start : one.start = two.start := by
    simp only [decide_eq_true_eq] at before behind
    omega
  have only := filter_start ordered (perm.subset first)
  rw [start, filter_start ordered second] at only
  exact (List.cons.inj only).1.symm

end TokenSeq

/-! ## A search that keeps a list of bodies -/

/-- A search for aggregates under way: where it is, the end of the range that it looks through, the
bodies that wait to be looked through, the one found last first, and the items found so far. -/
structure AggregateSearch where
  position : Nat
  stop : Nat
  waiting : List (Nat × Nat)
  found : List Item

namespace AggregateSearch
open TokenSeq

/-- The end of an aggregate without a body at `i`: behind its tag, if it has one. -/
def tagStop (ts : TokenSeq) (i stop : Nat) : Nat :=
  match ts.nextSignificant (i + 1) stop with
  | some k => if ts.hasKind k .identifier then k + 1 else i + 1
  | none => i + 1

/-- Turn to the body that was found last, if any waits. -/
def turn (s : AggregateSearch) : Option AggregateSearch :=
  match s.waiting with
  | [] => none
  | (start, stop) :: waiting => some { s with position := start, stop := stop, waiting := waiting }

/-- One step: over a token that is no keyword, over an aggregate, whose body then waits, or to
another body at the end of the range. A search without a step has ended. -/
def step (ts : TokenSeq) (s : AggregateSearch) : Option AggregateSearch :=
  if s.position < s.stop then
    match ts.kind? s.position with
    | none => s.turn
    | some kind =>
      if kind.isAggregate then
        match ts.aggregateStop? s.position s.stop with
        | some bodyStop =>
          some { s with
            position := bodyStop
            waiting := (s.position + 1, bodyStop) :: s.waiting
            found := s.found ++ [⟨.ofToken kind, s.position, bodyStop⟩] }
        | none =>
          let stop := tagStop ts s.position s.stop
          some { s with position := stop, found := s.found ++ [⟨.ofToken kind, s.position, stop⟩] }
      else some { s with position := s.position + 1 }
  else s.turn

/-- One step leads from a search to the next. -/
def Step (ts : TokenSeq) (s next : AggregateSearch) : Prop :=
  s.step ts = some next

/-- The items that are still to be found. -/
def remaining (ts : TokenSeq) (s : AggregateSearch) : List Item :=
  ts.nestedAggregates s.position s.stop ++ s.waiting.flatMap fun body => ts.nestedAggregates body.1 body.2

/-- How far the search is from its end. A body that waits counts for more than one that is being
looked through, and for less than the tokens of the aggregate that is passed over with it. -/
def distance (s : AggregateSearch) : Nat :=
  2 * (s.stop - s.position) + (s.waiting.map fun body => 2 * (body.2 - body.1) + 1).foldr (· + ·) 0

section Equations

variable {ts : TokenSeq} {i stop : Nat} {kind : TokenKind}

theorem nested_ended (ended : i < stop → ts.kind? i = none) : ts.nestedAggregates i stop = [] := by
  rw [nestedAggregates]
  split
  · rename_i inside
    rw [ended inside]
  · rfl

theorem nested_other (inside : i < stop) (seen : ts.kind? i = some kind) (other : ¬ kind.isAggregate = true) :
    ts.nestedAggregates i stop = ts.nestedAggregates (i + 1) stop := by
  rw [nestedAggregates, if_pos inside, seen]
  dsimp only
  rw [if_neg other]

theorem nested_body {bodyStop : Nat} (inside : i < stop) (seen : ts.kind? i = some kind)
    (aggregate : kind.isAggregate = true) (body : ts.aggregateStop? i stop = some bodyStop) :
    ts.nestedAggregates i stop = ⟨.ofToken kind, i, bodyStop⟩ ::
      (ts.nestedAggregates (i + 1) bodyStop ++ ts.nestedAggregates bodyStop stop) := by
  rw [nestedAggregates, if_pos inside, seen]
  dsimp only
  rw [if_pos aggregate]
  split
  · rename_i other same
    rw [body] at same
    cases same
    rfl
  · rename_i missing
    rw [body] at missing
    cases missing

theorem nested_bare (inside : i < stop) (seen : ts.kind? i = some kind)
    (aggregate : kind.isAggregate = true) (bare : ts.aggregateStop? i stop = none) :
    ts.nestedAggregates i stop = ⟨.ofToken kind, i, tagStop ts i stop⟩ ::
      ts.nestedAggregates (tagStop ts i stop) stop := by
  rw [nestedAggregates, if_pos inside, seen]
  dsimp only
  rw [if_pos aggregate]
  split
  · rename_i other same
    rw [bare] at same
    cases same
  · rw [tagStop]
    split
    · rename_i k tag
      rw [tag]
      dsimp only
      split
      · rfl
      · rfl
    · rename_i tag
      rw [tag]

end Equations

theorem tag_stop_bounds (ts : TokenSeq) {i stop : Nat} (inside : i < stop) :
    i < tagStop ts i stop ∧ tagStop ts i stop ≤ stop := by
  rw [tagStop]
  split
  · rename_i k tag
    have bounds := next_significant_bounds tag
    split <;> omega
  · omega

section Steps

variable {ts : TokenSeq} {s next : AggregateSearch}

/-- What one step does: it goes forward in its range and adds the items that it passes, or puts the
body of an aggregate aside, or turns to a body at the end of its range. -/
theorem step_cases (step : s.Step ts next) :
    (∃ position items, s.position < position ∧ position ≤ s.stop ∧
      next = { s with position := position, found := s.found ++ items } ∧
      ts.nestedAggregates s.position s.stop = items ++ ts.nestedAggregates position s.stop) ∨
    (∃ item bodyStop, s.position < bodyStop ∧ bodyStop ≤ s.stop ∧
      next = { s with
        position := bodyStop
        waiting := (s.position + 1, bodyStop) :: s.waiting
        found := s.found ++ [item] } ∧
      ts.nestedAggregates s.position s.stop =
        item :: (ts.nestedAggregates (s.position + 1) bodyStop ++ ts.nestedAggregates bodyStop s.stop)) ∨
    (∃ start stop waiting, s.waiting = (start, stop) :: waiting ∧
      next = { s with position := start, stop := stop, waiting := waiting } ∧
      ts.nestedAggregates s.position s.stop = []) := by
  have turned (step : s.turn = some next) : ∃ start stop waiting, s.waiting = (start, stop) :: waiting ∧
      next = { s with position := start, stop := stop, waiting := waiting } := by
    rw [turn] at step
    split at step
    · cases step
    · rename_i start stop waiting there
      cases step
      exact ⟨start, stop, waiting, there, rfl⟩
  rw [Step, AggregateSearch.step] at step
  split at step
  · rename_i inside
    split at step
    · rename_i missing
      obtain ⟨start, stop, waiting, there, same⟩ := turned step
      exact .inr (.inr ⟨start, stop, waiting, there, same, nested_ended fun _ => missing⟩)
    · rename_i kind seen
      split at step
      · rename_i aggregate
        split at step
        · rename_i bodyStop body
          have bounds := aggregate_stop_bounds body
          cases step
          exact .inr (.inl ⟨_, bodyStop, by omega, bounds.2, rfl, nested_body inside seen aggregate body⟩)
        · rename_i bare
          have bounds := tag_stop_bounds ts inside
          cases step
          exact .inl ⟨_, _, bounds.1, bounds.2, rfl, nested_bare inside seen aggregate bare⟩
      · rename_i other
        cases step
        refine .inl ⟨s.position + 1, [], by omega, by omega, ?_, nested_other inside seen other⟩
        rw [List.append_nil]
  · rename_i outside
    obtain ⟨start, stop, waiting, there, same⟩ := turned step
    exact .inr (.inr ⟨start, stop, waiting, there, same, nested_ended fun inside => absurd inside outside⟩)

/-- A step moves items from those that remain to those found, and loses none. -/
theorem step_keeps (step : s.Step ts next) : (next.found ++ next.remaining ts).Perm (s.found ++ s.remaining ts) := by
  rcases step_cases step with ⟨position, items, _, _, rfl, same⟩ | ⟨item, bodyStop, _, _, rfl, same⟩ |
    ⟨start, stop, waiting, there, rfl, none⟩
  · simp only [remaining, same, List.append_assoc]
    exact .refl _
  · simp only [remaining, same, List.append_assoc, List.flatMap_cons, List.cons_append, List.nil_append]
    refine List.Perm.append_left _ (.cons _ ?_)
    rw [← List.append_assoc, ← List.append_assoc]
    exact List.perm_append_comm.append_right _
  · simp only [remaining, none, there, List.flatMap_cons, List.nil_append]
    exact .refl _

theorem step_nearer (step : s.Step ts next) : next.distance < s.distance := by
  rcases step_cases step with ⟨position, items, forward, within, rfl, _⟩ |
    ⟨item, bodyStop, forward, within, rfl, _⟩ | ⟨start, stop, waiting, there, rfl, _⟩
  · simp only [distance]
    omega
  · simp only [distance, List.map_cons, List.foldr_cons]
    omega
  · simp only [distance, there, List.map_cons, List.foldr_cons]
    omega

theorem ended_remaining (ended : s.step ts = none) : s.remaining ts = [] := by
  have turned (ended : s.turn = none) : s.waiting = [] := by
    rw [turn] at ended
    split at ended
    · assumption
    · cases ended
  have none : ts.nestedAggregates s.position s.stop = [] ∧ s.waiting = [] := by
    rw [AggregateSearch.step] at ended
    split at ended
    · split at ended
      · rename_i missing
        exact ⟨nested_ended fun _ => missing, turned ended⟩
      · split at ended
        · split at ended <;> cases ended
        · cases ended
    · rename_i outside
      exact ⟨nested_ended fun inside => absurd inside outside, turned ended⟩
  rw [remaining, none.1, none.2]
  rfl

end Steps

/-- The search ends, and by then it has found what remained in the beginning. -/
theorem search_ends (ts : TokenSeq) (s : AggregateSearch) :
    ∃ final, Relation.ReflTransGen (Step ts) s final ∧ final.step ts = none ∧
      final.found.Perm (s.found ++ s.remaining ts) := by
  cases step : s.step ts with
  | none =>
    refine ⟨s, .refl, step, ?_⟩
    rw [ended_remaining step, List.append_nil]
  | some next =>
    have nearer := step_nearer step
    obtain ⟨final, steps, ended, found⟩ := search_ends ts next
    exact ⟨final, .head step steps, ended, found.trans (step_keeps step)⟩
termination_by s.distance

end AggregateSearch

namespace TokenSeq

/-- Every keyword of an aggregate inside an aggregate of the outline starts one aggregate of the
outline, and only one. That aggregate has the kind of its keyword and lies inside the other one. The
search for them that keeps a list of bodies ends, and finds the same items. -/
theorem keyword_starts_one_aggregate (ts : TokenSeq) :
    (∀ outer ∈ Outline.aggregates ts.outline, ∀ i kind, outer.start < i → i < outer.stop →
      ts.kind? i = some kind → kind.isAggregate = true →
        ∃ inner, (Outline.aggregates ts.outline).filter (·.start == i) = [inner] ∧
          inner.kind = .ofToken kind ∧ outer.contains inner = true) ∧
    ∀ start stop, ∃ final, Relation.ReflTransGen (AggregateSearch.Step ts) ⟨start, stop, [], []⟩ final ∧
        final.step ts = none ∧
        final.found.mergeSort (fun one two => one.start ≤ two.start) = ts.nestedAggregates start stop := by
  have layout := ts.outline_layout
  refine ⟨fun outer member i kind lower upper seen aggregate => ?_, fun start stop => ?_⟩
  · obtain ⟨inner, found, rfl, same⟩ := layout_complete layout member ⟨seen, aggregate⟩ lower upper
    refine ⟨inner, filter_start (layout_ordered layout) found, same, ?_⟩
    have nonempty := ((layout_within layout).2 inner (Outline.mem_aggregates.1 found).1).nonempty
    have laminar := layout_laminar layout outer (Outline.mem_aggregates.1 member).1 inner
      (Outline.mem_aggregates.1 found).1
    have inside : inner.stop ≤ outer.stop := by
      rcases laminar with before | behind | within | around <;> omega
    have other : outer ≠ inner := by
      rintro rfl
      exact Nat.lt_irrefl _ lower
    simp [Item.contains, Nat.le_of_lt lower, inside, other]
  · obtain ⟨final, steps, ended, found⟩ := AggregateSearch.search_ends ts ⟨start, stop, [], []⟩
    refine ⟨final, steps, ended, sort_starts (ts.nested_aggregates_ordered start stop) ?_⟩
    simpa [AggregateSearch.remaining] using found

/-- The bodies do not end, and a keyword stands in the attributes of another aggregate. -/
theorem keyword_starts_one_aggregate_unended :
    let ts := ofSource "struct a\x7bunion(enum b)\x7bstruct c d"
    let outer : Item := ⟨.union, 4, 16⟩
    outer ∈ Outline.aggregates ts.outline ∧ ts.kind? 6 = some .enum ∧
      ∃ inner, (Outline.aggregates ts.outline).filter (·.start == 6) = [inner] ∧ inner.kind = .enum ∧
        outer.contains inner = true := by
  intro ts outer
  have facts : outer ∈ Outline.aggregates ts.outline ∧ ts.kind? 6 = some .enum := by decide +kernel
  exact ⟨facts.1, facts.2,
    ts.keyword_starts_one_aggregate.1 outer facts.1 6 .enum (by decide) (by decide) facts.2 rfl⟩

end TokenSeq

end AllocGuard
