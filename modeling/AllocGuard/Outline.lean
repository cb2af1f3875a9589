import AllocGuard.Token.Bracket

/-! The outline of a source file: which ranges of its tokens are functions, aggregate
types, comments and directives. All other tokens stand for themselves. An aggregate
that is defined inside another one, or inside the header of a function, follows the
item that holds it, so nesting shows in the ranges alone. Text that is no C still has
an outline. -/
namespace AllocGuard

inductive ItemKind where
  | struct
  | enum
  | union
  | function
  | comment
  | directive
  | other
  | unknown
deriving Repr, DecidableEq

namespace ItemKind

def isAggregate : ItemKind → Bool
  | struct | enum | union => true
  | _ => false

/-- The kind of item for a token that stands for itself. -/
def ofToken : TokenKind → ItemKind
  | .struct => struct
  | .enum => enum
  | .union => union
  | .comment => comment
  | .directive => directive
  | .unknown => unknown
  | _ => other

end ItemKind

/-- One item: what it is, and its tokens `[start, stop)`. -/
structure Item where
  kind : ItemKind
  start : Nat
  stop : Nat
deriving Repr, DecidableEq

/-- Whether another item lies inside this one. -/
def Item.contains (outer inner : Item) : Bool :=
  outer.start ≤ inner.start && inner.stop ≤ outer.stop && outer != inner

namespace TokenSeq

/-- The tokens that no header of a function has in front of its body. -/
def endsHeader (kind : TokenKind) : Bool :=
  kind == .directive || kind == .semicolon || kind == .assign || kind == .closeBrace

/-- The end of the function whose header continues at `j`. A function has a name, a
parameter list and a body, and no token that ends a header in front of the body.
`prev` is the kind of the token read last, groups being read as a whole, and `named`
tells whether a group after a name has been seen. A body without an end takes the
rest. -/
def functionStopFrom (ts : TokenSeq) (prev : Option TokenKind) (named : Bool) (j : Nat) :
    Option Nat :=
  match seen : ts.kind? j with
  | none => none
  | some kind =>
    if kind.isTrivia then functionStopFrom ts prev named (j + 1)
    else if endsHeader kind then none
    else if kind == .openBrace then
      if named && prev == some .closeParen then
        some (((ts.matchingClose j ts.size).map (· + 1)).getD ts.size)
      else none
    else if kind == .openParen || kind == .openBracket then
      match closes : ts.matchingClose j ts.size with
      | none => none
      | some close =>
        functionStopFrom ts (ts.kind? close)
          (named || (kind == .openParen && prev == some .identifier)) (close + 1)
    else functionStopFrom ts (some kind) named (j + 1)
termination_by ts.size - j
decreasing_by
  · have inside := lt_size_of_kind seen
    omega
  · have inside := lt_size_of_kind seen
    have bounds := matching_close_bounds closes
    omega
  · have inside := lt_size_of_kind seen
    omega

/-- The end of the function that starts at `start`. -/
def functionStop? (ts : TokenSeq) (start : Nat) : Option Nat :=
  ts.functionStopFrom none false start

/-- The end of the aggregate body whose head continues at `j`: a tag, and groups that
belong to attributes, may stand in front of it. A body without an end takes all up to
`limit`. -/
def aggregateStopFrom (ts : TokenSeq) (limit j : Nat) : Option Nat :=
  match next : ts.nextSignificant j limit with
  | none => none
  | some k =>
    match ts.kind? k with
    | some .identifier => aggregateStopFrom ts limit (k + 1)
    | some .openParen =>
      match closes : ts.matchingClose k limit with
      | none => none
      | some close => aggregateStopFrom ts limit (close + 1)
    | some .openBrace => some (((ts.matchingClose k limit).map (· + 1)).getD limit)
    | _ => none
termination_by ts.size - j
decreasing_by
  · have found := next_significant_bounds next
    omega
  · have found := next_significant_bounds next
    have bounds := matching_close_bounds closes
    omega

/-- The end of the aggregate defined at the keyword `i`, if it has a body. -/
def aggregateStop? (ts : TokenSeq) (i limit : Nat) : Option Nat :=
  ts.aggregateStopFrom limit (i + 1)

theorem aggregate_stop_bounds {ts : TokenSeq} {limit j stop : Nat}
    (hit : ts.aggregateStopFrom limit j = some stop) : j < stop ∧ stop ≤ limit := by
  fun_induction aggregateStopFrom ts limit j with
  | case1 => cases hit
  | case2 j k next _ ih =>
    have found := next_significant_bounds next
    have bounds := ih hit
    omega
  | case3 => cases hit
  | case4 j k next _ close closes ih =>
    have found := next_significant_bounds next
    have closing := matching_close_bounds closes
    have bounds := ih hit
    omega
  | case5 j k next _ =>
    have found := next_significant_bounds next
    cases closes : ts.matchingClose k limit with
    | none =>
      simp only [closes, Option.map_none, Option.getD_none, Option.some.injEq] at hit
      omega
    | some close =>
      have closing := matching_close_bounds closes
      simp only [closes, Option.map_some, Option.getD_some, Option.some.injEq] at hit
      omega
  | case6 => cases hit

theorem function_stop_bounds {ts : TokenSeq} {prev : Option TokenKind} {named : Bool}
    {j stop : Nat} (hit : ts.functionStopFrom prev named j = some stop) :
    j < stop ∧ stop ≤ ts.size := by
  fun_induction functionStopFrom ts prev named j with
  | case1 | case3 | case5 | case6 => cases hit
  | case2 prev named j kind _ _ ih =>
    have bounds := ih hit
    omega
  | case4 prev named j kind seen =>
    have inside := lt_size_of_kind seen
    cases closes : ts.matchingClose j ts.size with
    | none =>
      simp only [closes, Option.map_none, Option.getD_none, Option.some.injEq] at hit
      omega
    | some close =>
      have closing := matching_close_bounds closes
      simp only [closes, Option.map_some, Option.getD_some, Option.some.injEq] at hit
      omega
  | case7 prev named j kind _ _ _ _ _ close closes ih =>
    have closing := matching_close_bounds closes
    have bounds := ih hit
    omega
  | case8 prev named j kind _ _ _ _ _ ih =>
    have bounds := ih hit
    omega

/-- The aggregates named or defined in `[j, stop)`, each followed by those inside its
body. One that is only named covers its tag, if it has one. -/
def nestedAggregates (ts : TokenSeq) (j stop : Nat) : List Item :=
  if j < stop then
    match ts.kind? j with
    | none => []
    | some kind =>
      if kind.isAggregate then
        match body : ts.aggregateStop? j stop with
        | some bodyStop =>
          ⟨.ofToken kind, j, bodyStop⟩ ::
            (ts.nestedAggregates (j + 1) bodyStop ++ ts.nestedAggregates bodyStop stop)
        | none =>
          match tag : ts.nextSignificant (j + 1) stop with
          | some k =>
            if ts.hasKind k .identifier then
              ⟨.ofToken kind, j, k + 1⟩ :: ts.nestedAggregates (k + 1) stop
            else ⟨.ofToken kind, j, j + 1⟩ :: ts.nestedAggregates (j + 1) stop
          | none => ⟨.ofToken kind, j, j + 1⟩ :: ts.nestedAggregates (j + 1) stop
      else ts.nestedAggregates (j + 1) stop
  else []
termination_by stop - j
decreasing_by
  · have bounds := aggregate_stop_bounds body
    omega
  · have bounds := aggregate_stop_bounds body
    omega
  · have found := next_significant_bounds tag
    omega
  all_goals omega

/-- A variable and the `;` right after it, with nothing but white space before each:
what may follow the body of an aggregate. -/
def trailingVariable? (ts : TokenSeq) (i : Nat) : Option (Nat × Nat) := do
  let notSpace := fun j => !ts.hasKind j .space
  let name ← Position.firstIn? notSpace i ts.size
  guard (ts.hasKind name .identifier)
  let semi ← Position.firstIn? notSpace (name + 1) ts.size
  guard (ts.hasKind semi .semicolon)
  return (name, semi)

theorem trailing_variable_bounds {ts : TokenSeq} {i name semi : Nat}
    (hit : ts.trailingVariable? i = some (name, semi)) :
    i ≤ name ∧ name < semi ∧ semi < ts.size := by
  unfold trailingVariable? at hit
  obtain ⟨name', first, named⟩ := Option.bind_eq_some_iff.1 hit
  obtain ⟨_, _, behind⟩ := Option.bind_eq_some_iff.1 named
  obtain ⟨semi', second, ended⟩ := Option.bind_eq_some_iff.1 behind
  obtain ⟨_, _, same⟩ := Option.bind_eq_some_iff.1 ended
  cases same
  have front := Position.first_in_bounds first
  have back := Position.first_in_bounds second
  omega

/-- The end of the function at `i`, which only the start of a declaration can be. -/
def freshFunction? (ts : TokenSeq) (fresh : Bool) (i : Nat) : Option Nat :=
  if fresh then ts.functionStop? i else none

/-- The end of the aggregate with a body at `i`, if `kind` is its keyword. -/
def aggregateAt? (ts : TokenSeq) (kind : TokenKind) (i : Nat) : Option Nat :=
  if kind.isAggregate then ts.aggregateStop? i ts.size else none

theorem fresh_function_bounds {ts : TokenSeq} {fresh : Bool} {i stop : Nat}
    (hit : ts.freshFunction? fresh i = some stop) : i < stop ∧ stop ≤ ts.size := by
  cases fresh with
  | false => cases hit
  | true => exact function_stop_bounds hit

theorem aggregate_at_bounds {ts : TokenSeq} {kind : TokenKind} {i stop : Nat}
    (hit : ts.aggregateAt? kind i = some stop) : i < stop ∧ stop ≤ ts.size := by
  rw [aggregateAt?] at hit
  split at hit
  · have bounds := aggregate_stop_bounds hit
    omega
  · cases hit

/-- The items from `i` on. `found` holds the items before, the last one first;
`fresh` tells whether a declaration starts here, and `origin` is where the current
declaration started. A function whose return type defines an aggregate shows only
once that aggregate has been read: the items of its header then give way to it. -/
def outlineFrom (ts : TokenSeq) (found : List Item) (fresh : Bool) (origin i : Nat) :
    List Item :=
  if i < ts.size then
    match ts.kind? i with
    | none => found
    | some .space => ts.outlineFrom found fresh origin (i + 1)
    | some .comment => ts.outlineFrom (⟨.comment, i, i + 1⟩ :: found) fresh origin (i + 1)
    | some .directive => ts.outlineFrom (⟨.directive, i, i + 1⟩ :: found) fresh origin (i + 1)
    | some kind =>
      let origin := if fresh then i else origin
      match whole : ts.freshFunction? fresh i with
      | some stop => ts.outlineFrom (⟨.function, i, stop⟩ :: found) fresh origin stop
      | none =>
        match body : ts.aggregateAt? kind i with
        | none =>
          ts.outlineFrom (⟨.ofToken kind, i, i + 1⟩ :: found)
            (kind == .semicolon || kind == .closeBrace) origin (i + 1)
        | some stop =>
          let aggregate : Item := ⟨.ofToken kind, i, stop⟩
          let inner := (ts.nestedAggregates (i + 1) stop).reverse
          match trailing : ts.trailingVariable? stop with
          | some (name, semi) =>
            ts.outlineFrom (⟨.other, name, semi + 1⟩ :: (inner ++ aggregate :: found)) true
              origin (semi + 1)
          | none =>
            match header : ts.functionStop? stop with
            | some functionStop =>
              let kept := found.dropWhile (origin ≤ ·.start)
              ts.outlineFrom (inner ++ aggregate :: ⟨.function, origin, functionStop⟩ :: kept)
                true origin functionStop
            | none => ts.outlineFrom (inner ++ aggregate :: found) false origin stop
  else found
termination_by ts.size - i
decreasing_by
  · omega
  · omega
  · omega
  · have bounds := fresh_function_bounds whole
    omega
  · omega
  · have bounds := aggregate_at_bounds body
    have after := trailing_variable_bounds trailing
    omega
  · have bounds := aggregate_at_bounds body
    have after := function_stop_bounds header
    omega
  · have bounds := aggregate_at_bounds body
    omega

/-- The items of the whole source, by their first token. -/
def outline (ts : TokenSeq) : List Item :=
  (ts.outlineFrom [] true 0 0).reverse

end TokenSeq

namespace Outline

/-- The items that are functions. -/
def functions (items : List Item) : List Item :=
  items.filter (·.kind == .function)

/-- The items that do not lie inside the last one kept, `outer` being that one. -/
def topLevelFrom (outer : Option Item) : List Item → List Item
  | [] => []
  | item :: rest =>
    if outer.any (·.contains item) then topLevelFrom outer rest
    else item :: topLevelFrom (some item) rest

/-- The items that lie inside no other item. -/
def topLevel (items : List Item) : List Item :=
  topLevelFrom none items

end Outline

end AllocGuard
