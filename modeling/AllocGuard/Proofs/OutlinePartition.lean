import Mathlib.Data.List.Pairwise
import AllocGuard.Proofs.FunctionRanges

/-! The outline of a source file is a partition of its tokens. Its items come in blocks:
one item that lies in no other, followed by the aggregates inside it. Between two blocks
there is nothing but white space, whatever the text is. When a function shows only after
the aggregate that its return type defines, the blocks since the start of the declaration
give way to a single one. -/
namespace AllocGuard

namespace Item

/-- A range of tokens that is not empty and lies in `[start, stop)`. -/
structure Within (start stop : Nat) (item : Item) : Prop where
  lower : start ≤ item.start
  nonempty : item.start < item.stop
  upper : item.stop ≤ stop

theorem Within.weaken {start start' stop stop' : Nat} {item : Item} (within : item.Within start stop)
    (below : start' ≤ start) (above : stop ≤ stop') : item.Within start' stop' :=
  ⟨Nat.le_trans below within.lower, within.nonempty, Nat.le_trans within.upper above⟩

/-- The later item starts no earlier, and lies behind the other one or inside it. -/
def Follows (earlier later : Item) : Prop :=
  earlier.start ≤ later.start ∧ (earlier.stop ≤ later.start ∨ later.stop ≤ earlier.stop)

/-- Two ranges of tokens are apart, or one of them holds the other. -/
def Laminar (one two : Item) : Prop :=
  one.stop ≤ two.start ∨ two.stop ≤ one.start ∨
    (one.start ≤ two.start ∧ two.stop ≤ one.stop) ∨ (two.start ≤ one.start ∧ one.stop ≤ two.stop)

instance : Std.Symm Laminar where
  symm one two laminar := by
    rcases laminar with before | behind | inside | around
    · exact .inr (.inl before)
    · exact .inl behind
    · exact .inr (.inr (.inr inside))
    · exact .inr (.inr (.inl around))

/-- Whether the token at `i` belongs to the item. -/
def covers (item : Item) (i : Nat) : Bool :=
  item.start ≤ i && i < item.stop

/-- An item lies inside no other one that it reaches out of. -/
theorem contains_eq_false {outer inner : Item}
    (reaches : inner.start < outer.start ∨ outer.stop < inner.stop) : outer.contains inner = false := by
  have not : ¬ (outer.start ≤ inner.start ∧ inner.stop ≤ outer.stop) := by omega
  rw [contains, Bool.and_eq_false_iff]
  exact .inl (by simpa using not)

/-- Of two items one behind the other the first does not hold the second. -/
theorem contains_behind {earlier later : Item} (behind : earlier.stop ≤ later.start)
    (nonempty : later.start < later.stop) : earlier.contains later = false :=
  contains_eq_false (.inr (by omega))

end Item

/-! ## Blocks -/

/-- An item and the aggregates inside it, in order. -/
structure Nest (outer : Item) (inner : List Item) : Prop where
  nonempty : outer.start < outer.stop
  within : ∀ item ∈ inner, item.Within outer.start outer.stop
  smaller : ∀ item ∈ inner, ¬ (item.start ≤ outer.start ∧ outer.stop ≤ item.stop)
  aggregates : ∀ item ∈ inner, item.kind ≠ .function
  follows : inner.Pairwise Item.Follows

theorem nest_alone {outer : Item} (nonempty : outer.start < outer.stop) : Nest outer [] :=
  ⟨nonempty, by simp, by simp, by simp, List.Pairwise.nil⟩

theorem nest_contains {outer : Item} {inner : List Item} (nest : Nest outer inner) {item : Item}
    (member : item ∈ inner) : outer.contains item = true := by
  have within := nest.within item member
  have other : outer ≠ item := by
    rintro rfl
    exact nest.smaller outer member ⟨Nat.le_refl _, Nat.le_refl _⟩
  simp [Item.contains, within.lower, within.upper, other]

namespace TokenSeq

variable {ts : TokenSeq} {outer : Item} {found inner items : List Item} {start stop i origin j : Nat}

theorem nested_aggregates_within (ts : TokenSeq) (j stop : Nat) :
    ∀ item ∈ ts.nestedAggregates j stop, item.Within j stop := by
  fun_induction nestedAggregates ts j stop with
  | case1 j stop inside missing => simp
  | case2 j stop inside kind seen aggregate bodyStop body ihBody ihRest =>
    have bounds := aggregate_stop_bounds body
    intro item member
    rcases List.mem_cons.1 member with rfl | member
    · exact ⟨Nat.le_refl _, by dsimp only; omega, bounds.2⟩
    · rcases List.mem_append.1 member with inner | behind
      · exact (ihBody item inner).weaken (Nat.le_succ j) bounds.2
      · exact (ihRest item behind).weaken (by omega) (Nat.le_refl _)
  | case3 j stop inside kind seen aggregate body k tag named ih =>
    have bounds := next_significant_bounds tag
    intro item member
    rcases List.mem_cons.1 member with rfl | behind
    · exact ⟨Nat.le_refl _, by dsimp only; omega, bounds.2.1⟩
    · exact (ih item behind).weaken (by omega) (Nat.le_refl _)
  | case4 j stop inside kind seen aggregate body k tag unnamed ih =>
    intro item member
    rcases List.mem_cons.1 member with rfl | behind
    · exact ⟨Nat.le_refl _, Nat.lt_succ_self j, inside⟩
    · exact (ih item behind).weaken (Nat.le_succ j) (Nat.le_refl _)
  | case5 j stop inside kind seen aggregate body tag ih =>
    intro item member
    rcases List.mem_cons.1 member with rfl | behind
    · exact ⟨Nat.le_refl _, Nat.lt_succ_self j, inside⟩
    · exact (ih item behind).weaken (Nat.le_succ j) (Nat.le_refl _)
  | case6 j stop inside kind seen other ih =>
    exact fun item member => (ih item member).weaken (Nat.le_succ j) (Nat.le_refl _)
  | case7 j stop outside => simp

/-- What is found behind an item follows it. -/
theorem follows_behind {item : Item} {rest : List Item} (nonempty : item.start < item.stop)
    (behind : ∀ other ∈ rest, other.Within item.stop stop) (follows : rest.Pairwise Item.Follows) :
    (item :: rest).Pairwise Item.Follows := by
  rw [List.pairwise_cons]
  refine ⟨fun other member => ?_, follows⟩
  have lower := (behind other member).lower
  exact ⟨by omega, .inl lower⟩

theorem nested_aggregates_follow (ts : TokenSeq) (j stop : Nat) :
    (ts.nestedAggregates j stop).Pairwise Item.Follows := by
  fun_induction nestedAggregates ts j stop with
  | case1 j stop inside missing => exact List.Pairwise.nil
  | case2 j stop inside kind seen aggregate bodyStop body ihBody ihRest =>
    have inner := ts.nested_aggregates_within (j + 1) bodyStop
    have behind := ts.nested_aggregates_within bodyStop stop
    have bounds := aggregate_stop_bounds body
    rw [List.pairwise_cons, List.pairwise_append]
    refine ⟨?_, ihBody, ihRest, ?_⟩
    · intro item member
      rcases List.mem_append.1 member with inside | beyond
      · have within := inner item inside
        exact ⟨Nat.le_of_succ_le within.lower, .inr within.upper⟩
      · have lower := (behind item beyond).lower
        exact ⟨by dsimp only; omega, .inl lower⟩
    · intro item inside other beyond
      have nonempty := (inner item inside).nonempty
      have upper := (inner item inside).upper
      have lower := (behind other beyond).lower
      exact ⟨by omega, .inl (by omega)⟩
  | case3 j stop inside kind seen aggregate body k tag named ih =>
    have bounds := next_significant_bounds tag
    exact follows_behind (by dsimp only; omega) (ts.nested_aggregates_within (k + 1) stop) ih
  | case4 j stop inside kind seen aggregate body k tag unnamed ih =>
    exact follows_behind (Nat.lt_succ_self j) (ts.nested_aggregates_within (j + 1) stop) ih
  | case5 j stop inside kind seen aggregate body tag ih =>
    exact follows_behind (Nat.lt_succ_self j) (ts.nested_aggregates_within (j + 1) stop) ih
  | case6 j stop inside kind seen other ih => exact ih
  | case7 j stop outside => exact List.Pairwise.nil

/-- An aggregate with those inside it is a block. -/
theorem nest_aggregate (ts : TokenSeq) {kind : TokenKind} (nonempty : i < stop) :
    Nest ⟨.ofToken kind, i, stop⟩ (ts.nestedAggregates (i + 1) stop) where
  nonempty := nonempty
  within := fun item member =>
    (ts.nested_aggregates_within (i + 1) stop item member).weaken (Nat.le_succ i) (Nat.le_refl stop)
  smaller := fun item member holds =>
    Nat.not_succ_le_self i
      (Nat.le_trans (ts.nested_aggregates_within (i + 1) stop item member).lower holds.1)
  aggregates := ts.nested_aggregates_kind (i + 1) stop
  follows := ts.nested_aggregates_follow (i + 1) stop

/-- A block that lies in a function makes a block with it. -/
theorem nest_function (nest : Nest outer inner) (aggregate : outer.kind ≠ .function) (lower : start ≤ outer.start)
    (upper : outer.stop < stop) : Nest ⟨.function, start, stop⟩ (outer :: inner) := by
  have nonempty := nest.nonempty
  have inside : ∀ item ∈ outer :: inner, item.Within start outer.stop := by
    intro item member
    rcases List.mem_cons.1 member with rfl | member
    · exact ⟨lower, nonempty, Nat.le_refl _⟩
    · exact (nest.within item member).weaken lower (Nat.le_refl _)
  have others : ∀ item ∈ outer :: inner, item.kind ≠ .function := by
    intro item member
    rcases List.mem_cons.1 member with rfl | member
    · exact aggregate
    · exact nest.aggregates item member
  refine ⟨by dsimp only; omega, ?_, ?_, others, ?_⟩
  · exact fun item member => (inside item member).weaken (Nat.le_refl _) (Nat.le_of_lt upper)
  · intro item member holds
    exact Nat.not_lt.2 (Nat.le_trans holds.2 (inside item member).upper) upper
  · rw [List.pairwise_cons]
    refine ⟨fun item member => ?_, nest.follows⟩
    have within := nest.within item member
    exact ⟨within.lower, .inr within.upper⟩

/-- How the blocks of an outline are made: an item that holds no aggregate, an aggregate with those
inside it, or such a block in the function to whose header it belongs. -/
inductive Formed (ts : TokenSeq) : Item → List Item → Prop where
  | alone {item : Item} (nonempty : item.start < item.stop)
      (single : item.kind.isAggregate = true → item.stop = item.start + 1) : Formed ts item []
  | aggregate {kind : TokenKind} {i stop : Nat} (nonempty : i < stop) :
      Formed ts ⟨.ofToken kind, i, stop⟩ (ts.nestedAggregates (i + 1) stop)
  | function {outer : Item} {inner : List Item} {start stop : Nat} (formed : Formed ts outer inner)
      (aggregate : outer.kind ≠ .function) (lower : start ≤ outer.start) (upper : outer.stop < stop) :
      Formed ts ⟨.function, start, stop⟩ (outer :: inner)

theorem Formed.nest (formed : ts.Formed outer inner) : Nest outer inner := by
  induction formed with
  | alone nonempty _ => exact nest_alone nonempty
  | aggregate nonempty => exact ts.nest_aggregate nonempty
  | function _ aggregate lower upper ih => exact nest_function ih aggregate lower upper

/-! ## Layouts -/

/-- The items that stand in `[start, stop)`: blocks in order, and white space. -/
inductive Layout (ts : TokenSeq) : Nat → Nat → List Item → Prop where
  | done {start : Nat} : Layout ts start start []
  | space {start stop : Nat} {items : List Item} (blank : ts.kind? start = some .space)
      (behind : Layout ts (start + 1) stop items) : Layout ts start stop items
  | block {outer : Item} {inner rest : List Item} {stop : Nat} (formed : ts.Formed outer inner)
      (behind : Layout ts outer.stop stop rest) :
      Layout ts outer.start stop (outer :: (inner ++ rest))

theorem layout_append {middle : Nat} {front back : List Item} (before : ts.Layout start middle front)
    (behind : ts.Layout middle stop back) : ts.Layout start stop (front ++ back) := by
  induction before with
  | done => exact behind
  | space blank _ ih => exact .space blank (ih behind)
  | block formed _ ih =>
    rw [List.cons_append, List.append_assoc]
    exact .block formed (ih behind)

theorem layout_blank (ordered : start ≤ stop) (blank : ∀ q, start ≤ q → q < stop → ts.kind? q = some .space) :
    ts.Layout start stop [] := by
  obtain ⟨count, rfl⟩ := Nat.exists_eq_add_of_le ordered
  induction count generalizing start with
  | zero => exact .done
  | succ count ih =>
    have behind : ts.Layout (start + 1) (start + 1 + count) [] :=
      ih (by omega) fun q lower upper => blank q (by omega) (by omega)
    rw [Nat.add_assoc, Nat.add_comm 1 count] at behind
    exact .space (blank start (Nat.le_refl start) (by omega)) behind

theorem layout_single (formed : ts.Formed outer inner) : ts.Layout outer.start outer.stop (outer :: inner) := by
  have single : ts.Layout outer.start outer.stop (outer :: (inner ++ [])) := .block formed .done
  rwa [List.append_nil] at single

theorem layout_within (layout : ts.Layout start stop items) :
    start ≤ stop ∧ ∀ item ∈ items, item.Within start stop := by
  induction layout with
  | done => exact ⟨Nat.le_refl _, by simp⟩
  | space _ _ ih =>
    exact ⟨by omega, fun item member => (ih.2 item member).weaken (by omega) (Nat.le_refl _)⟩
  | @block outer inner rest stop formed _ ih =>
    have nest := formed.nest
    have nonempty := nest.nonempty
    refine ⟨by omega, fun item member => ?_⟩
    rcases List.mem_cons.1 member with rfl | member
    · exact ⟨Nat.le_refl _, nonempty, ih.1⟩
    · rcases List.mem_append.1 member with inside | behind
      · exact (nest.within item inside).weaken (Nat.le_refl _) ih.1
      · exact (ih.2 item behind).weaken (Nat.le_of_lt nonempty) (Nat.le_refl _)

/-- In a layout each item lies behind or inside those in front of it. -/
theorem layout_follows (layout : ts.Layout start stop items) : items.Pairwise Item.Follows := by
  induction layout with
  | done => exact List.Pairwise.nil
  | space _ _ ih => exact ih
  | @block outer inner rest stop formed behind ih =>
    have nest := formed.nest
    have nonempty := nest.nonempty
    have later := (layout_within behind).2
    rw [List.pairwise_cons, List.pairwise_append]
    refine ⟨?_, nest.follows, ih, ?_⟩
    · intro item member
      rcases List.mem_append.1 member with inside | beyond
      · have within := nest.within item inside
        exact ⟨within.lower, .inr within.upper⟩
      · have lower := (later item beyond).lower
        exact ⟨by omega, .inl lower⟩
    · intro item inside next beyond
      have within := nest.within item inside
      have lower := (later next beyond).lower
      have order := within.nonempty
      have upper := within.upper
      exact ⟨by omega, .inl (by omega)⟩

theorem layout_laminar (layout : ts.Layout start stop items) : ∀ one ∈ items, ∀ two ∈ items, one.Laminar two := by
  have pairs : items.Pairwise Item.Laminar := by
    refine (layout_follows layout).imp fun follows => ?_
    rcases follows with ⟨order, behind | inside⟩
    · exact .inl behind
    · exact .inr (.inr (.inl ⟨order, inside⟩))
  have itself : ∀ item ∈ items, item.Laminar item := fun item _ =>
    .inr (.inr (.inl ⟨Nat.le_refl _, Nat.le_refl _⟩))
  exact fun one first two second => pairs.forall_of_forall itself first second

/-! ## The top level of a layout -/

theorem top_level_skip (rest : List Item) (contained : ∀ item ∈ inner, outer.contains item = true) :
    Outline.topLevelFrom (some outer) (inner ++ rest) = Outline.topLevelFrom (some outer) rest := by
  induction inner with
  | nil => rfl
  | cons item inner ih =>
    have here := contained item List.mem_cons_self
    rw [List.cons_append, Outline.topLevelFrom, Option.any_some, if_pos here,
      ih fun other member => contained other (List.mem_cons_of_mem _ member)]

/-- Of a block the outer item is kept, whatever was kept in front of it. -/
theorem top_level_block {last : Option Item} (rest : List Item) (nest : Nest outer inner)
    (before : ∀ item ∈ last, item.stop ≤ outer.start) :
    Outline.topLevelFrom last (outer :: (inner ++ rest)) =
      outer :: Outline.topLevelFrom (some outer) rest := by
  have apart : last.any (·.contains outer) = false := by
    cases last with
    | none => rfl
    | some item => exact Item.contains_behind (before item rfl) nest.nonempty
  rw [Outline.topLevelFrom, apart, if_neg Bool.false_ne_true,
    top_level_skip rest fun item member => nest_contains nest member]

section TopLevel

variable {ts : TokenSeq} {start stop : Nat} {items : List Item} {last : Option Item}

theorem top_level_within (layout : ts.Layout start stop items) (before : ∀ item ∈ last, item.stop ≤ start) :
    ∀ item ∈ Outline.topLevelFrom last items, item.Within start stop := by
  induction layout generalizing last with
  | done => simp [Outline.topLevelFrom]
  | space _ _ ih =>
    intro item member
    have within := ih (fun item kept => Nat.le_succ_of_le (before item kept)) item member
    exact within.weaken (Nat.le_succ _) (Nat.le_refl _)
  | @block outer inner rest stop formed behind ih =>
    have nest := formed.nest
    rw [top_level_block rest nest before]
    intro item member
    have nonempty := nest.nonempty
    rcases List.mem_cons.1 member with rfl | later
    · exact ⟨Nat.le_refl _, nonempty, (layout_within behind).1⟩
    · have within := ih (fun item kept => by cases kept; exact Nat.le_refl _) item later
      exact within.weaken (Nat.le_of_lt nonempty) (Nat.le_refl _)

/-- The items of the top level stand one behind the other. -/
theorem top_level_apart (layout : ts.Layout start stop items) (before : ∀ item ∈ last, item.stop ≤ start) :
    (Outline.topLevelFrom last items).Pairwise fun earlier later => earlier.stop ≤ later.start := by
  induction layout generalizing last with
  | done => exact List.Pairwise.nil
  | space _ _ ih => exact ih fun item kept => Nat.le_succ_of_le (before item kept)
  | @block outer inner rest stop formed behind ih =>
    have nest := formed.nest
    have settled : ∀ item ∈ some outer, item.stop ≤ outer.stop := by simp
    rw [top_level_block rest nest before, List.pairwise_cons]
    exact ⟨fun item later => (top_level_within behind settled item later).lower, ih settled⟩

/-- Every token that is not white space belongs to exactly one item of the top level. -/
theorem top_level_covers (layout : ts.Layout start stop items) (before : ∀ item ∈ last, item.stop ≤ start) {i : Nat}
    (lower : start ≤ i) (upper : i < stop) (visible : ts.kind? i ≠ some .space) :
    (Outline.topLevelFrom last items).countP (·.covers i) = 1 := by
  induction layout generalizing last with
  | done => omega
  | @space start stop items blank _ ih =>
    have behind : start ≠ i := by
      rintro rfl
      exact visible blank
    exact ih (fun item kept => Nat.le_succ_of_le (before item kept)) (by omega) upper
  | @block outer inner rest stop formed behind ih =>
    have nest := formed.nest
    have settled : ∀ item ∈ some outer, item.stop ≤ outer.stop := by simp
    rw [top_level_block rest nest before, List.countP_cons]
    by_cases inside : i < outer.stop
    · have none : (Outline.topLevelFrom (some outer) rest).countP (·.covers i) = 0 := by
        rw [List.countP_eq_zero]
        intro item later
        have within := (top_level_within behind settled item later).lower
        have beyond : ¬ item.start ≤ i := by omega
        simp [Item.covers, beyond]
      rw [none]
      simp [Item.covers, lower, inside]
    · rw [ih settled (by omega) upper]
      simp [Item.covers, inside]

/-- The top level keeps the items that lie inside no other one. -/
theorem mem_top_level_iff (layout : ts.Layout start stop items)
    (before : ∀ item ∈ last, item.stop ≤ start) {item : Item} :
    item ∈ Outline.topLevelFrom last items ↔
      item ∈ items ∧ ∀ other ∈ items, other.contains item = false := by
  induction layout generalizing last with
  | done => simp [Outline.topLevelFrom]
  | space _ _ ih => exact ih fun item kept => Nat.le_succ_of_le (before item kept)
  | @block outer inner rest stop formed behind ih =>
    have nest := formed.nest
    have settled : ∀ item ∈ some outer, item.stop ≤ outer.stop := by simp
    have nonempty := nest.nonempty
    have later := (layout_within behind).2
    rw [top_level_block rest nest before, List.mem_cons, ih settled]
    have outermost : ∀ other ∈ outer :: (inner ++ rest), other.contains outer = false := by
      intro other member
      rcases List.mem_cons.1 member with rfl | member
      · simp [Item.contains]
      · rcases List.mem_append.1 member with inside | beyond
        · have smaller := nest.smaller other inside
          exact Item.contains_eq_false (by omega)
        · have lower := (later other beyond).lower
          exact Item.contains_eq_false (.inl (by omega))
    constructor
    · rintro (rfl | ⟨beyond, free⟩)
      · exact ⟨List.mem_cons_self, outermost⟩
      · have next := later item beyond
        refine ⟨by simp [beyond], fun other member => ?_⟩
        rcases List.mem_cons.1 member with rfl | member
        · exact Item.contains_behind next.lower next.nonempty
        · rcases List.mem_append.1 member with inside | member
          · have upper := (nest.within other inside).upper
            exact Item.contains_behind (Nat.le_trans upper next.lower) next.nonempty
          · exact free other member
    · rintro ⟨member, free⟩
      rcases List.mem_cons.1 member with rfl | member
      · exact .inl rfl
      · rcases List.mem_append.1 member with inside | beyond
        · have held := nest_contains nest inside
          rw [free outer List.mem_cons_self] at held
          cases held
        · exact .inr ⟨beyond, fun other member => free other (by simp [member])⟩

/-- No function lies inside another item. -/
theorem top_level_functions (layout : ts.Layout start stop items) (before : ∀ item ∈ last, item.stop ≤ start)
    {f : Item} (member : f ∈ items) (isFunction : f.kind = .function) : f ∈ Outline.topLevelFrom last items := by
  induction layout generalizing last with
  | done => cases member
  | space _ _ ih => exact ih (fun item kept => Nat.le_succ_of_le (before item kept)) member
  | @block outer inner rest stop formed behind ih =>
    have nest := formed.nest
    rw [top_level_block rest nest before]
    rcases List.mem_cons.1 member with rfl | member
    · exact List.mem_cons_self
    · rcases List.mem_append.1 member with inside | beyond
      · exact absurd isFunction (nest.aggregates f inside)
      · exact List.mem_cons_of_mem _ (ih (by simp) beyond)

end TopLevel

/-! ## The outline -/

theorem trailing_variable_blank {name semi : Nat} (hit : ts.trailingVariable? i = some (name, semi)) :
    ∀ q, i ≤ q → q < name → ts.kind? q = some .space := by
  simp only [trailingVariable?, Option.bind_eq_bind, Option.bind_eq_some_iff] at hit
  obtain ⟨name', first, _, _, semi', second, _, _, same⟩ := hit
  cases same
  intro q lower upper
  have blank := (Position.first_iff.1 first).2.2.2 q lower upper
  exact has_kind_iff.1 (by simpa using blank)

/-- The items found so far, the last one first: those in front of `origin`, where the
current declaration started, and those since then. -/
def Laid (ts : TokenSeq) (found : List Item) (origin i : Nat) : Prop :=
  ∃ recent kept, found = recent ++ kept ∧ ts.Layout 0 origin kept.reverse ∧
    ts.Layout origin i recent.reverse

theorem laid_whole (laid : ts.Laid found origin i) : ts.Layout 0 i found.reverse := by
  obtain ⟨recent, kept, rfl, before, since⟩ := laid
  rw [List.reverse_append]
  exact layout_append before since

theorem laid_reached (laid : ts.Laid found origin i) : origin ≤ i := by
  obtain ⟨recent, kept, _, _, since⟩ := laid
  exact (layout_within since).1

/-- Where a declaration starts, everything found lies in front of it. -/
theorem laid_fresh (layout : ts.Layout 0 i found.reverse) : ts.Laid found i i :=
  ⟨[], found, rfl, layout, .done⟩

theorem laid_blank (laid : ts.Laid found origin i) (blank : ts.Layout i j []) : ts.Laid found origin j := by
  obtain ⟨recent, kept, rfl, before, since⟩ := laid
  have longer := layout_append since blank
  rw [List.append_nil] at longer
  exact ⟨recent, kept, rfl, before, longer⟩

/-- A block is added as the items are found: the outer one first, so that it ends up
behind those inside it. -/
theorem laid_block (laid : ts.Laid found origin outer.start) (formed : ts.Formed outer inner) :
    ts.Laid (inner.reverse ++ outer :: found) origin outer.stop := by
  obtain ⟨recent, kept, rfl, before, since⟩ := laid
  refine ⟨inner.reverse ++ outer :: recent, kept, by simp, before, ?_⟩
  have longer := layout_append since (layout_single formed)
  simpa using longer

/-- Dropping what was found since the start of the declaration leaves what was found
before, and nothing else goes. -/
theorem laid_drop (laid : ts.Laid found origin i) :
    ts.Layout 0 origin (found.dropWhile (origin ≤ ·.start)).reverse := by
  obtain ⟨recent, kept, rfl, before, since⟩ := laid
  have dropped : ∀ item ∈ recent, decide (origin ≤ item.start) = true := fun item member =>
    decide_eq_true ((layout_within since).2 item (List.mem_reverse.2 member)).lower
  have stays : kept.dropWhile (origin ≤ ·.start) = kept := by
    cases kept with
    | nil => rfl
    | cons item rest =>
      have within := (layout_within before).2 item (by simp)
      have nonempty := within.nonempty
      have upper := within.upper
      have front : ¬ origin ≤ item.start := by omega
      rw [List.dropWhile_cons_of_neg (by simpa using front)]
  rw [List.dropWhile_append_of_pos dropped, stays]
  exact before

/-- A declaration that starts at the next token leaves nothing to be dropped there. -/
theorem laid_restart {fresh : Bool} (laid : ts.Laid found (if fresh then i else origin) j) :
    ts.Laid found (if fresh then j else origin) j := by
  cases fresh with
  | true => exact laid_fresh (laid_whole laid)
  | false => exact laid

/-- Every step lays out the tokens it passes, and at the end all of them are laid out. -/
theorem outline_from_layout (ts : TokenSeq) (found : List Item) (fresh : Bool) (origin i : Nat)
    (laid : ts.Laid found (if fresh then i else origin) i) (inside : i ≤ ts.size) :
    ts.Layout 0 ts.size (ts.outlineFrom found fresh origin i).reverse := by
  fun_induction outlineFrom ts found fresh origin i with
  | case1 found fresh origin i below missing =>
    simp only [kind?, get?, Option.map_eq_none_iff, Array.getElem?_eq_none_iff] at missing
    exact absurd below (Nat.not_lt.2 missing)
  | case2 found fresh origin i below seen ih =>
    have passed := laid_blank laid (.space seen .done)
    exact ih (laid_restart passed) below
  | case3 found fresh origin i below seen ih =>
    have alone : ts.Formed ⟨.comment, i, i + 1⟩ [] := .alone (Nat.lt_succ_self i) fun _ => rfl
    exact ih (laid_restart (laid_block laid alone)) below
  | case4 found fresh origin i below seen ih =>
    have alone : ts.Formed ⟨.directive, i, i + 1⟩ [] := .alone (Nat.lt_succ_self i) fun _ => rfl
    exact ih (laid_restart (laid_block laid alone)) below
  | case5 found fresh origin i below kind notSpace notComment notDirective seen start stop whole ih =>
    have bounds := fresh_function_bounds whole
    have alone : ts.Formed ⟨.function, i, stop⟩ [] := .alone bounds.1 Bool.noConfusion
    cases fresh with
    | false => cases whole
    | true => exact ih (laid_fresh (laid_whole (laid_block laid alone))) bounds.2
  | case6 found fresh origin i below kind notSpace notComment notDirective seen start whole body ih =>
    have alone : ts.Formed ⟨.ofToken kind, i, i + 1⟩ [] := .alone (Nat.lt_succ_self i) fun _ => rfl
    have added : ts.Laid (⟨.ofToken kind, i, i + 1⟩ :: found) start (i + 1) := laid_block laid alone
    refine ih ?_ below
    split
    · exact laid_fresh (laid_whole added)
    · exact added
  | case7 found fresh origin i below kind notSpace notComment notDirective seen start whole stop body
      aggregate inner name semi trailing ih =>
    have bounds := aggregate_at_bounds body
    have after := trailing_variable_bounds trailing
    have formed : ts.Formed aggregate (ts.nestedAggregates (i + 1) stop) := .aggregate bounds.1
    have reached := laid_blank (laid_block laid formed)
      (layout_blank after.1 (trailing_variable_blank trailing))
    have named : ts.Formed ⟨.other, name, semi + 1⟩ [] := .alone (by dsimp only; omega) Bool.noConfusion
    exact ih (laid_fresh (laid_whole (laid_block reached named))) after.2.2
  | case8 found fresh origin i below kind notSpace notComment notDirective seen start whole stop body
      aggregate inner trailing functionStop header kept ih =>
    have bounds := aggregate_at_bounds body
    have after := function_stop_bounds header
    have formed : ts.Formed aggregate (ts.nestedAggregates (i + 1) stop) := .aggregate bounds.1
    have whole : ts.Formed ⟨.function, start, functionStop⟩
        (aggregate :: ts.nestedAggregates (i + 1) stop) :=
      .function formed (of_token_not_function kind) (laid_reached laid) after.1
    -- one block takes the place of all those since the start of the declaration
    have remaining : ts.Laid kept start start := laid_fresh (laid_drop laid)
    have replaced := laid_block remaining whole
    rw [List.reverse_cons, List.append_assoc] at replaced
    exact ih (laid_fresh (laid_whole replaced)) after.2
  | case9 found fresh origin i below kind notSpace notComment notDirective seen start whole stop body
      aggregate inner trailing header ih =>
    have bounds := aggregate_at_bounds body
    have formed : ts.Formed aggregate (ts.nestedAggregates (i + 1) stop) := .aggregate bounds.1
    exact ih (laid_block laid formed) bounds.2
  | case10 found fresh origin i outside =>
    have reached : i = ts.size := by omega
    exact reached ▸ laid_whole laid

theorem outline_layout (ts : TokenSeq) : ts.Layout 0 ts.size ts.outline :=
  ts.outline_from_layout [] true 0 0 (laid_fresh .done) (Nat.zero_le _)

/-- The outline of any text is a partition of its tokens. Its items are ranges that are not
empty, stand in the order of their first tokens, and are nested or apart. Those of the top
level stand one behind the other, every token that is not white space belongs to exactly
one of them, and every function is one of them. -/
theorem outline_partitions_tokens (ts : TokenSeq) :
    (∀ item ∈ ts.outline, item.start < item.stop ∧ item.stop ≤ ts.size) ∧
    ts.outline.Pairwise (fun earlier later => earlier.start ≤ later.start) ∧
    (∀ one ∈ ts.outline, ∀ two ∈ ts.outline, one.Laminar two) ∧
    (∀ item, item ∈ Outline.topLevel ts.outline ↔
      item ∈ ts.outline ∧ ∀ other ∈ ts.outline, other.contains item = false) ∧
    (Outline.topLevel ts.outline).Pairwise
      (fun earlier later => earlier.start < later.start ∧ earlier.stop ≤ later.start) ∧
    (∀ i < ts.size, ts.kind? i ≠ some .space →
      (Outline.topLevel ts.outline).countP (·.covers i) = 1) ∧
    ∀ f ∈ Outline.functions ts.outline, f ∈ Outline.topLevel ts.outline := by
  have layout := ts.outline_layout
  have unopened : ∀ item ∈ (none : Option Item), item.stop ≤ 0 := by simp
  have within := top_level_within layout unopened
  refine ⟨fun item member => ?_, ?_, ?_, fun item => ?_, ?_, ?_, ?_⟩
  · have inside := (layout_within layout).2 item member
    exact ⟨inside.nonempty, inside.upper⟩
  · exact (layout_follows layout).imp And.left
  · exact layout_laminar layout
  · exact mem_top_level_iff layout unopened
  · refine (top_level_apart layout unopened).imp_of_mem fun earlier _ behind => ?_
    have nonempty := (within _ earlier).nonempty
    exact ⟨by omega, behind⟩
  · intro i inside visible
    exact top_level_covers layout unopened (Nat.zero_le i) inside visible
  · intro f member
    rw [Outline.functions, List.mem_filter] at member
    exact top_level_functions layout unopened member.1 (by simpa using member.2)

end TokenSeq

end AllocGuard
