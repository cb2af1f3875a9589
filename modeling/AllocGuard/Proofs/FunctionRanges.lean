import Mathlib.Data.Option.Basic
import AllocGuard.Hardening
import AllocGuard.Proofs.Significance

/-! Where the functions of a source file stand. The outline gives every function a range
of tokens of its own, in the order of the text, even when the return type defines an
aggregate and the header shows only afterwards. So a site lies in at most one function,
and it was found by looking through that function. -/
namespace AllocGuard

theorem to_option_some {α β : Type} {result : Except α β} {value : β} :
    result.toOption = some value ↔ result = .ok value := by
  cases result <;> simp [Except.toOption]

theorem of_token_not_function (kind : TokenKind) : ItemKind.ofToken kind ≠ .function := by
  cases kind <;> decide

theorem of_token_aggregate (kind : TokenKind) : (ItemKind.ofToken kind).isAggregate = kind.isAggregate := by
  cases kind <;> rfl

namespace Outline

variable {bound : Nat} {item : Item} {inner found : List Item}

theorem functions_cons_other (other : item.kind ≠ .function) (found : List Item) :
    functions (item :: found) = functions found := by
  simp [functions, other]

theorem functions_append_other (others : ∀ item ∈ inner, item.kind ≠ .function) (found : List Item) :
    functions (inner ++ found) = functions found := by
  have none : inner.filter (·.kind == .function) = [] := by
    simpa [List.filter_eq_nil_iff] using others
  rw [functions, List.filter_append, none]
  rfl

/-- The functions among the items, of which the last one comes first, stand apart from
each other, and none of them reaches beyond the bound. -/
structure FunctionsApart (bound : Nat) (found : List Item) : Prop where
  apart : (functions found).Pairwise fun later earlier => earlier.stop ≤ later.start
  inside : ∀ f ∈ functions found, f.start < f.stop ∧ f.stop ≤ bound

theorem apart_weaken {bound' : Nat} (apart : FunctionsApart bound found) (wider : bound ≤ bound') :
    FunctionsApart bound' found where
  apart := apart.apart
  inside := fun f member =>
    ⟨(apart.inside f member).1, Nat.le_trans (apart.inside f member).2 wider⟩

theorem apart_of_sublist {kept : List Item} (apart : FunctionsApart bound found) (part : kept.Sublist found) :
    FunctionsApart bound kept where
  apart := apart.apart.sublist (part.filter _)
  inside := fun f member => apart.inside f ((part.filter _).subset member)

theorem apart_other (apart : FunctionsApart bound found) (other : item.kind ≠ .function) :
    FunctionsApart bound (item :: found) := by
  constructor
  · rw [functions_cons_other other]
    exact apart.apart
  · rw [functions_cons_other other]
    exact apart.inside

theorem apart_others (apart : FunctionsApart bound found) (others : ∀ item ∈ inner, item.kind ≠ .function) :
    FunctionsApart bound (inner ++ found) := by
  constructor
  · rw [functions_append_other others]
    exact apart.apart
  · rw [functions_append_other others]
    exact apart.inside

/-- A function that starts at the bound may be added. -/
theorem apart_function {start stop : Nat} (apart : FunctionsApart start found) (nonempty : start < stop) :
    FunctionsApart stop (⟨.function, start, stop⟩ :: found) := by
  have added : functions (⟨.function, start, stop⟩ :: found) =
      ⟨.function, start, stop⟩ :: functions found := rfl
  constructor
  · rw [added, List.pairwise_cons]
    exact ⟨fun f member => (apart.inside f member).2, apart.apart⟩
  · rw [added]
    intro f member
    rcases List.mem_cons.1 member with rfl | member
    · exact ⟨nonempty, Nat.le_refl stop⟩
    · have bounds := apart.inside f member
      exact ⟨bounds.1, by omega⟩

end Outline

namespace TokenSeq
open Outline

variable {ts : TokenSeq} {registry : Registry} {entryPoint : String} {start i stop body : Nat} {f : Function}
  {site : Site}

theorem nested_aggregates_all (ts : TokenSeq) (j stop : Nat) :
    ∀ item ∈ ts.nestedAggregates j stop, item.kind.isAggregate = true := by
  fun_induction nestedAggregates ts j stop with
  | case1 j stop inside missing => simp
  | case2 j stop inside kind seen aggregate bodyStop body ihBody ihRest =>
    simpa [of_token_aggregate, aggregate, or_imp, forall_and] using ⟨ihBody, ihRest⟩
  | case3 j stop inside kind seen aggregate body k tag named ih =>
    simpa [of_token_aggregate, aggregate] using ih
  | case4 j stop inside kind seen aggregate body k tag unnamed ih =>
    simpa [of_token_aggregate, aggregate] using ih
  | case5 j stop inside kind seen aggregate body tag ih =>
    simpa [of_token_aggregate, aggregate] using ih
  | case6 j stop inside kind seen other ih => exact ih
  | case7 j stop outside => simp

theorem nested_aggregates_kind (ts : TokenSeq) (j stop : Nat) :
    ∀ item ∈ ts.nestedAggregates j stop, item.kind ≠ .function := by
  intro item member function
  have aggregate := ts.nested_aggregates_all j stop item member
  rw [function] at aggregate
  cases aggregate

/-- An aggregate and those inside it are no functions. -/
theorem apart_aggregate (ts : TokenSeq) {bound : Nat} {kind : TokenKind} {found : List Item}
    (apart : FunctionsApart bound found) :
    FunctionsApart bound
      ((ts.nestedAggregates (i + 1) stop).reverse ++ ⟨.ofToken kind, i, stop⟩ :: found) := by
  apply apart_others
  · exact apart_other apart (of_token_not_function kind)
  · exact fun item member => ts.nested_aggregates_kind (i + 1) stop item (List.mem_reverse.1 member)

theorem declaration_start_le {fresh : Bool} {origin : Nat} (reached : origin ≤ i) :
    (if fresh then i else origin) ≤ i := by
  split <;> omega

/-! ## The functions among the items -/

theorem function_stop_eq (ts : TokenSeq) (prev : Option TokenKind) (named : Bool) (j : Nat) :
    ts.functionStopFrom prev named j = (ts.kind? j).bind fun kind =>
      if kind.isTrivia then ts.functionStopFrom prev named (j + 1)
      else if endsHeader kind then none
      else if kind == .openBrace then
        if named && prev == some .closeParen then
          some (((ts.matchingClose j ts.size).map (· + 1)).getD ts.size)
        else none
      else if kind == .openParen || kind == .openBracket then
        (ts.matchingClose j ts.size).bind fun close =>
          ts.functionStopFrom (ts.kind? close)
            (named || (kind == .openParen && prev == some .identifier)) (close + 1)
      else ts.functionStopFrom (some kind) named (j + 1) := by
  rw [functionStopFrom]
  split
  · rename_i none
    rw [none]
    rfl
  · rename_i kind seen
    rw [seen, Option.bind_some]
    refine ite_congr rfl (fun _ => rfl) fun _ => ite_congr rfl (fun _ => rfl) fun _ =>
      ite_congr rfl (fun _ => rfl) fun _ => ite_congr rfl (fun _ => ?_) fun _ => rfl
    split
    · rename_i none
      rw [none]
      rfl
    · rename_i close closes
      rw [closes, Option.bind_some]

/-- The functions from `i` on, read without the other items: `fresh` and `origin` as in the
outline. -/
def functionItemsFrom (ts : TokenSeq) (fresh : Bool) (origin i : Nat) : List Item :=
  match seen : ts.kind? i with
  | none => []
  | some kind =>
    if kind.isTrivia || kind == .directive then ts.functionItemsFrom fresh origin (i + 1)
    else
      let origin := if fresh then i else origin
      match whole : ts.freshFunction? fresh i with
      | some stop => ⟨.function, i, stop⟩ :: ts.functionItemsFrom fresh origin stop
      | none =>
        match body : ts.aggregateAt? kind i with
        | none =>
          ts.functionItemsFrom (kind == .semicolon || kind == .closeBrace) origin (i + 1)
        | some stop =>
          match header : ts.functionStop? stop with
          | some functionStop =>
            ⟨.function, origin, functionStop⟩ :: ts.functionItemsFrom true origin functionStop
          | none => ts.functionItemsFrom false origin stop
termination_by ts.size - i
decreasing_by
  · have inside := lt_size_of_kind seen
    omega
  · have inside := lt_size_of_kind seen
    have bounds := fresh_function_bounds whole
    omega
  · have inside := lt_size_of_kind seen
    omega
  · have inside := lt_size_of_kind seen
    have bounds := aggregate_at_bounds body
    have after := function_stop_bounds header
    omega
  · have inside := lt_size_of_kind seen
    have bounds := aggregate_at_bounds body
    omega

section Items

variable {ts : TokenSeq} {j : Nat} {kind : TokenKind}

theorem kind_end (behind : ts.size ≤ j) : ts.kind? j = none := by
  rw [kind?, get?, Array.getElem?_eq_none behind]
  rfl

theorem function_items_none (missing : ts.kind? i = none) (fresh : Bool) (origin : Nat) :
    ts.functionItemsFrom fresh origin i = [] := by
  rw [functionItemsFrom]
  split
  · rfl
  · rename_i seen
    rw [missing] at seen
    cases seen

theorem function_items_skip (seen : ts.kind? i = some kind) (skipped : (kind.isTrivia || kind == .directive) = true)
    (fresh : Bool) (origin : Nat) :
    ts.functionItemsFrom fresh origin i = ts.functionItemsFrom fresh origin (i + 1) := by
  conv => lhs; rw [functionItemsFrom]
  split
  · rename_i missing
    rw [missing] at seen
    cases seen
  · rename_i kind' seen'
    rw [seen] at seen'
    cases seen'
    rw [if_pos skipped]

/-- One step on a token that belongs to a declaration. -/
theorem function_items_step (seen : ts.kind? i = some kind) (counts : (kind.isTrivia || kind == .directive) = false)
    (fresh : Bool) (origin : Nat) :
    ts.functionItemsFrom fresh origin i =
      match ts.freshFunction? fresh i with
      | some stop =>
        ⟨.function, i, stop⟩ :: ts.functionItemsFrom fresh (if fresh then i else origin) stop
      | none =>
        match ts.aggregateAt? kind i with
        | none =>
          ts.functionItemsFrom (kind == .semicolon || kind == .closeBrace)
            (if fresh then i else origin) (i + 1)
        | some stop =>
          match ts.functionStop? stop with
          | some functionStop =>
            ⟨.function, if fresh then i else origin, functionStop⟩ ::
              ts.functionItemsFrom true (if fresh then i else origin) functionStop
          | none => ts.functionItemsFrom false (if fresh then i else origin) stop := by
  conv => lhs; rw [functionItemsFrom]
  split
  · rename_i missing
    rw [missing] at seen
    cases seen
  · rename_i kind' seen'
    rw [seen] at seen'
    cases seen'
    rw [if_neg (by simp [counts])]
    dsimp only
    split
    · rename_i stop whole
      simp only [whole]
    · rename_i whole
      simp only [whole]
      split
      · rename_i body
        simp only [body]
      · rename_i stop body
        simp only [body]
        split
        · rename_i functionStop header
          simp only [header]
        · rename_i header
          simp only [header]

theorem function_items_spaces (ordered : i ≤ j) (spaces : ∀ q, i ≤ q → q < j → (!ts.hasKind q .space) = false)
    (fresh : Bool) (origin : Nat) : ts.functionItemsFrom fresh origin i = ts.functionItemsFrom fresh origin j := by
  refine Position.skip_range ordered fun q lower upper => ?_
  have space : ts.kind? q = some .space := has_kind_iff.1 (by simpa using spaces q lower upper)
  rw [function_items_skip space rfl]

theorem function_stop_spaces (ordered : i ≤ j) (spaces : ∀ q, i ≤ q → q < j → (!ts.hasKind q .space) = false)
    (prev : Option TokenKind) (named : Bool) :
    ts.functionStopFrom prev named i = ts.functionStopFrom prev named j := by
  refine Position.skip_range ordered fun q lower upper => ?_
  have space : ts.kind? q = some .space := has_kind_iff.1 (by simpa using spaces q lower upper)
  rw [function_stop_eq, space]
  rfl

/-- A variable right behind the body of an aggregate is no function, and reading it as the
tokens it is made of comes out behind it just the same. -/
theorem trailing_variable_items {name semi : Nat} (hit : ts.trailingVariable? stop = some (name, semi)) (origin : Nat) :
    ts.functionStop? stop = none ∧
      ts.functionItemsFrom false origin stop = ts.functionItemsFrom true origin (semi + 1) := by
  simp only [trailingVariable?, Option.bind_eq_bind, Option.bind_eq_some_iff, Option.guard_eq_some'] at hit
  obtain ⟨name', first, _, isName, semi', second, _, isSemi, same⟩ := hit
  cases same
  obtain ⟨front, _, _, before⟩ := Position.first_iff.1 first
  obtain ⟨back, _, _, between⟩ := Position.first_iff.1 second
  have isName := has_kind_iff.1 isName
  have isSemi := has_kind_iff.1 isSemi
  constructor
  · rw [functionStop?, function_stop_spaces front before, function_stop_eq, isName]
    change ts.functionStopFrom (some .identifier) false (name + 1) = none
    rw [function_stop_spaces back between, function_stop_eq, isSemi]
    rfl
  · rw [function_items_spaces front before, function_items_step isName rfl]
    change ts.functionItemsFrom false origin (name + 1) = _
    rw [function_items_spaces back between, function_items_step isSemi rfl]
    rfl

theorem functions_cons_function (start stop : Nat) (found : List Item) :
    functions (⟨.function, start, stop⟩ :: found) = ⟨.function, start, stop⟩ :: functions found :=
  rfl

theorem functions_aggregate (ts : TokenSeq) (i stop : Nat) (kind : TokenKind) (found : List Item) :
    functions ((ts.nestedAggregates (i + 1) stop).reverse ++ ⟨.ofToken kind, i, stop⟩ :: found) =
      functions found := by
  rw [functions_append_other, functions_cons_other (of_token_not_function kind)]
  exact fun item member => ts.nested_aggregates_kind (i + 1) stop item (List.mem_reverse.1 member)

/-- What a late header takes away from the items found is no function. -/
theorem functions_drop_while {origin : Nat} {found : List Item} (apart : FunctionsApart origin found) :
    functions (found.dropWhile (origin ≤ ·.start)) = functions found := by
  induction found with
  | nil => rfl
  | cons item rest ih =>
    by_cases late : origin ≤ item.start
    · have other : item.kind ≠ .function := by
        intro isFunction
        have bounds := apart.inside item (List.mem_filter.2 ⟨List.mem_cons_self, by simp [isFunction]⟩)
        omega
      rw [List.dropWhile_cons_of_pos (by simpa using late), functions_cons_other other]
      exact ih (apart_of_sublist apart (List.sublist_cons_self item rest))
    · rw [List.dropWhile_cons_of_neg (by simpa using late)]

end Items

/-- One item after the other, the functions stay apart, and they are those that are found without the other items.
While a declaration is being read, no function reaches beyond the place where it started, so a header that shows late
can still take everything from there on. A function that the outline finds is put in front of those found before, so
its list is the other way round. -/
theorem outline_from_functions (ts : TokenSeq) (found : List Item) (fresh : Bool) (origin i : Nat)
    (apart : FunctionsApart (if fresh then i else origin) found) (reached : origin ≤ i) (within : i ≤ ts.size) :
    FunctionsApart ts.size (ts.outlineFrom found fresh origin i) ∧
      (functions (ts.outlineFrom found fresh origin i)).reverse =
        (functions found).reverse ++ ts.functionItemsFrom fresh origin i := by
  have counts {kind : TokenKind} (notSpace : kind = .space → False) (notComment : kind = .comment → False)
      (notDirective : kind = .directive → False) : (kind.isTrivia || kind == .directive) = false := by
    cases kind <;> simp_all [TokenKind.isTrivia]
  fun_induction outlineFrom ts found fresh origin i with
  | case1 found fresh origin i inside missing =>
    rw [function_items_none missing, List.append_nil]
    exact ⟨apart_weaken apart (Nat.le_trans (declaration_start_le reached) within), rfl⟩
  | case2 found fresh origin i inside seen ih =>
    rw [function_items_skip seen rfl]
    refine ih (apart_weaken apart ?_) (by omega) inside
    split <;> omega
  | case3 found fresh origin i inside seen ih =>
    rw [function_items_skip seen rfl]
    refine ih (apart_other (apart_weaken apart ?_) ItemKind.noConfusion) (by omega) inside
    split <;> omega
  | case4 found fresh origin i inside seen ih =>
    rw [function_items_skip seen rfl]
    refine ih (apart_other (apart_weaken apart ?_) ItemKind.noConfusion) (by omega) inside
    split <;> omega
  | case5 found fresh origin i inside kind notSpace notComment notDirective seen start stop whole ih =>
    have bounds := fresh_function_bounds whole
    have step := function_items_step seen (counts notSpace notComment notDirective) fresh origin
    simp only [whole] at step
    cases fresh with
    | false => cases whole
    | true =>
      obtain ⟨settled, all⟩ := ih (apart_function apart bounds.1) (Nat.le_of_lt bounds.1) bounds.2
      rw [step]
      rw [functions_cons_function, List.reverse_cons, List.append_assoc] at all
      exact ⟨settled, all⟩
  | case6 found fresh origin i inside kind notSpace notComment notDirective seen start whole body ih =>
    have settled : FunctionsApart start found := apart
    have before : start ≤ i := declaration_start_le reached
    have step := function_items_step seen (counts notSpace notComment notDirective) fresh origin
    simp only [whole, body] at step
    have bound : start ≤ if (kind == .semicolon || kind == .closeBrace) = true then i + 1 else start := by
      split <;> omega
    obtain ⟨settled, all⟩ :=
      ih (apart_other (apart_weaken settled bound) (of_token_not_function kind)) (by omega) inside
    rw [functions_cons_other (of_token_not_function kind)] at all
    rw [step]
    exact ⟨settled, all⟩
  | case7 found fresh origin i inside kind notSpace notComment notDirective seen start whole stop body
      aggregate inner name semi trailing ih =>
    have settled : FunctionsApart start found := apart
    have before : start ≤ i := declaration_start_le reached
    have bounds := aggregate_at_bounds body
    have after := trailing_variable_bounds trailing
    have added : FunctionsApart (semi + 1) (inner ++ aggregate :: found) :=
      apart_weaken (ts.apart_aggregate settled) (by omega)
    obtain ⟨noHeader, behind⟩ := trailing_variable_items trailing start
    have step := function_items_step seen (counts notSpace notComment notDirective) fresh origin
    simp only [whole, body, noHeader] at step
    obtain ⟨settled, all⟩ := ih (apart_other added ItemKind.noConfusion) (by omega) (by omega)
    rw [functions_cons_other ItemKind.noConfusion, functions_aggregate, ← behind] at all
    rw [step]
    exact ⟨settled, all⟩
  | case8 found fresh origin i inside kind notSpace notComment notDirective seen start whole stop body
      aggregate inner trailing functionStop header kept ih =>
    have settled : FunctionsApart start found := apart
    have before : start ≤ i := declaration_start_le reached
    have bounds := aggregate_at_bounds body
    have after := function_stop_bounds header
    have rest : FunctionsApart start kept := apart_of_sublist settled (List.dropWhile_sublist _)
    have added := apart_function rest (show start < functionStop by omega)
    have step := function_items_step seen (counts notSpace notComment notDirective) fresh origin
    simp only [whole, body, header] at step
    obtain ⟨apart, all⟩ := ih (ts.apart_aggregate added) (by omega) after.2
    rw [functions_aggregate, functions_cons_function, functions_drop_while settled, List.reverse_cons,
      List.append_assoc] at all
    rw [step]
    exact ⟨apart, all⟩
  | case9 found fresh origin i inside kind notSpace notComment notDirective seen start whole stop body
      aggregate inner trailing header ih =>
    have settled : FunctionsApart start found := apart
    have before : start ≤ i := declaration_start_le reached
    have bounds := aggregate_at_bounds body
    have added : FunctionsApart start (inner ++ aggregate :: found) := ts.apart_aggregate settled
    have step := function_items_step seen (counts notSpace notComment notDirective) fresh origin
    simp only [whole, body, header] at step
    obtain ⟨settled, all⟩ := ih added (by omega) bounds.2
    rw [functions_aggregate] at all
    rw [step]
    exact ⟨settled, all⟩
  | case10 found fresh origin i outside =>
    rw [function_items_none (kind_end (Nat.le_of_not_lt outside)), List.append_nil]
    exact ⟨apart_weaken apart (Nat.le_trans (declaration_start_le reached) within), rfl⟩

theorem outline_from_start (ts : TokenSeq) : FunctionsApart ts.size (ts.outlineFrom [] true 0 0) ∧
    (functions (ts.outlineFrom [] true 0 0)).reverse = ts.functionItemsFrom true 0 0 :=
  ts.outline_from_functions [] true 0 0 ⟨List.Pairwise.nil, by simp [functions]⟩ (Nat.le_refl 0) (Nat.zero_le _)

theorem functions_outline (ts : TokenSeq) :
    functions ts.outline = (functions (ts.outlineFrom [] true 0 0)).reverse := by
  rw [outline, functions, functions, List.filter_reverse]

theorem outline_functions (ts : TokenSeq) : functions ts.outline = ts.functionItemsFrom true 0 0 :=
  ts.functions_outline.trans ts.outline_from_start.2

/-- The functions of the outline, in order, do not overlap, and lie in the text. -/
theorem outline_functions_apart (ts : TokenSeq) :
    (functions ts.outline).Pairwise (fun earlier later => earlier.stop ≤ later.start) ∧
      ∀ f ∈ functions ts.outline, f.start < f.stop ∧ f.stop ≤ ts.size := by
  have result := ts.outline_from_start.1
  rw [functions_outline, List.pairwise_reverse]
  exact ⟨result.apart, fun f member => result.inside f (List.mem_reverse.1 member)⟩

/-! ## The functions of the call graph -/

theorem parameter_list_bounds {aggregate : Bool} {opening : Nat}
    (hit : ts.parameterListFrom start stop aggregate i = some opening) : i ≤ opening ∧ opening < stop := by
  fun_induction parameterListFrom ts start stop aggregate i with
  | case1 | case3 | case5 | case7 | case9 | case11 => cases hit
  | case2 aggregate i inside kind seen _ ih =>
    have bounds := ih hit
    omega
  | case4 i inside kind seen _ _ close closes ih =>
    have closed := matching_close_bounds closes
    have bounds := ih hit
    omega
  | case6 aggregate i inside kind seen _ _ _ _ =>
    cases hit
    exact ⟨Nat.le_refl _, inside⟩
  | case8 aggregate i inside kind seen _ _ _ _ close closes ih =>
    have closed := matching_close_bounds closes
    have bounds := ih hit
    omega
  | case10 aggregate i inside kind seen _ _ _ _ ih =>
    have bounds := ih hit
    omega

private theorem brace_bounds {after : Nat} (behind : start ≤ after)
    (hit : Position.firstIn? (ts.hasKind · .openBrace) after (min stop ts.size) = some body) :
    start ≤ body ∧ body < stop ∧ ts.kind? body = some .openBrace := by
  obtain ⟨lower, upper, opens⟩ := Position.first_in_bounds hit
  exact ⟨by omega, by omega, has_kind_iff.1 opens⟩

/-- The body of a function lies in its range and starts with a brace. -/
theorem body_open_bounds (hit : ts.bodyOpen? start stop = some body) :
    start ≤ body ∧ body < stop ∧ ts.kind? body = some .openBrace := by
  rw [bodyOpen?] at hit
  cases list : ts.parameterList? start stop with
  | none =>
    rw [list] at hit
    exact brace_bounds (Nat.le_refl start) hit
  | some opening =>
    simp only [list, Option.bind_eq_bind, Option.bind_map, Option.bind_eq_some_iff] at hit
    obtain ⟨close, closes, brace⟩ := hit
    have opened := parameter_list_bounds list
    have closed := matching_close_bounds closes
    exact brace_bounds (show start ≤ close + 1 by omega) brace

/-- A function keeps the range it was read from, and its body is the one found there. -/
theorem function_range (hit : ts.function? entryPoint start stop = some f) :
    f.start = start ∧ f.stop = stop ∧ ts.bodyOpen? start stop = some f.body := by
  simp only [function?, Option.bind_eq_bind, Option.bind_eq_some_iff] at hit
  obtain ⟨body, opens, declared, _, ⟨name, nameToken⟩, _, type, _, made⟩ := hit
  cases made
  exact ⟨rfl, rfl, opens⟩

theorem add_function_cases (ts : TokenSeq) (entryPoint : String) (found : List Function) (item : Item) :
    ts.addFunction entryPoint found item = found ∨
      ∃ f, ts.function? entryPoint item.start item.stop = some f ∧
        ts.addFunction entryPoint found item = found ++ [f] := by
  rw [addFunction]
  split
  · rename_i f defined
    split
    · exact .inl rfl
    · exact .inr ⟨f, defined, rfl⟩
  · exact .inl rfl

private theorem add_functions_sublist (ts : TokenSeq) (entryPoint : String) (defined : List Item)
    (found : List Function) :
    (defined.foldl (ts.addFunction entryPoint) found).Sublist
      (found ++ defined.filterMap fun item => ts.function? entryPoint item.start item.stop) := by
  induction defined generalizing found with
  | nil => simp
  | cons item rest ih =>
    have later := ih (ts.addFunction entryPoint found item)
    rw [List.foldl_cons]
    rcases ts.add_function_cases entryPoint found item with same | ⟨f, reads, longer⟩
    · rw [same] at later ⊢
      exact later.trans (((List.sublist_cons_self item rest).filterMap _).append_left found)
    · rw [longer] at later ⊢
      rwa [List.append_assoc, List.singleton_append,
        ← List.filterMap_cons_some (f := fun item : Item => ts.function? entryPoint item.start item.stop)
          reads] at later

/-- The functions of the graph are, in order, some of those that the items define. -/
theorem functions_of_sublist (ts : TokenSeq) (entryPoint : String) (items : List Item) :
    (ts.functionsOf entryPoint items).Sublist
      ((functions items).filterMap fun item => ts.function? entryPoint item.start item.stop) :=
  ts.add_functions_sublist entryPoint (functions items) []

/-- The functions of the graph stand apart from each other, in order. -/
theorem functions_of_apart (ts : TokenSeq) (entryPoint : String) :
    (ts.functionsOf entryPoint ts.outline).Pairwise fun earlier later => earlier.stop ≤ later.start := by
  refine List.Pairwise.sublist (ts.functions_of_sublist entryPoint ts.outline) ?_
  refine List.Pairwise.filterMap _ ?_ ts.outline_functions_apart.1
  intro earlier later apart f reads g readsG
  rw [(function_range reads).2.1, (function_range readsG).1]
  exact apart

/-- Every function of the graph was read from a function of the outline. -/
theorem functions_of_item {items : List Item} (member : f ∈ ts.functionsOf entryPoint items) :
    ∃ item ∈ functions items, ts.function? entryPoint item.start item.stop = some f :=
  List.mem_filterMap.1 ((ts.functions_of_sublist entryPoint items).subset member)

/-- A range of tokens that may be the definition of a function: its body opens inside. -/
structure Placed (ts : TokenSeq) (f : Function) : Prop where
  opens : ts.kind? f.body = some .openBrace
  start_le : f.start ≤ f.body
  body_lt : f.body < f.stop
  stop_le : f.stop ≤ ts.size

theorem functions_of_placed (member : f ∈ ts.functionsOf entryPoint ts.outline) : ts.Placed f := by
  obtain ⟨item, defined, reads⟩ := functions_of_item member
  obtain ⟨start, stop, body⟩ := function_range reads
  obtain ⟨lower, upper, opens⟩ := body_open_bounds body
  have inside := (ts.outline_functions_apart.2 item defined).2
  exact ⟨opens, by omega, by omega, by omega⟩

/-- Functions of the outline that share a token are the same function. -/
theorem outline_functions_unique {one two : Item} (member : one ∈ functions ts.outline)
    (member' : two ∈ functions ts.outline) (inside : one.start ≤ i ∧ i < one.stop)
    (inside' : two.start ≤ i ∧ i < two.stop) : one = two := by
  have apart := ts.outline_functions_apart.1
  generalize functions ts.outline = items at member member' apart
  induction items with
  | nil => cases member
  | cons first rest ih =>
    obtain ⟨before, later⟩ := List.pairwise_cons.1 apart
    rcases List.mem_cons.1 member with rfl | behind
    · rcases List.mem_cons.1 member' with rfl | behind'
      · rfl
      · have gap := before two behind'
        omega
    · rcases List.mem_cons.1 member' with rfl | behind'
      · have gap := before one behind
        omega
      · exact ih behind behind' later

/-! ## Sites and the functions that hold them -/

/-- A site comes from a call of an allocator in the range that was looked through. -/
theorem site_call (found : site ∈ ts.sites registry start stop) :
    ∃ allocator call opening close arguments,
      start ≤ call ∧ call < min stop ts.size ∧ ts.kind? call = some .identifier ∧
        ts.nextSignificant (call + 1) (min stop ts.size) = some opening ∧
        ts.matchingClose opening (min stop ts.size) = some close ∧
        site = ts.classify allocator call close arguments start (min stop ts.size) := by
  simp only [sites, List.mem_filterMap, Position.mem_range] at found
  obtain ⟨call, ⟨lower, upper⟩, hit⟩ := found
  simp only [siteAt?, Option.bind_eq_bind, Option.bind_eq_some_iff, Option.guard_eq_some', Bool.and_eq_true] at hit
  obtain ⟨_, ⟨identifier, _⟩, opening, opens, _, _, close, closes, allocator, _, made⟩ := hit
  exact ⟨allocator, call, opening, close, _, lower, upper, has_kind_iff.1 identifier, opens, closes,
    (Option.some.inj made).symm⟩

theorem site_call_bounds (found : site ∈ ts.sites registry start stop) : start ≤ site.call ∧ site.call < stop := by
  obtain ⟨allocator, call, opening, close, arguments, lower, upper, _, _, _, rfl⟩ := site_call found
  exact ⟨lower, Nat.lt_of_lt_of_le upper (Nat.min_le_left _ _)⟩

/-- A site in the body of a function was found by looking through that body. -/
theorem function_site (member : f ∈ ts.functionsOf entryPoint ts.outline)
    (found : site ∈ ts.functionSites registry ts.outline) (holds : f.holds site.call = true) :
    site ∈ ts.sites registry f.body f.stop := by
  obtain ⟨item, defined, reads⟩ := functions_of_item member
  obtain ⟨start, stop, body⟩ := function_range reads
  obtain ⟨other, defined', inside⟩ := List.mem_flatMap.1 found
  have lower := (body_open_bounds body).1
  simp only [Function.holds, Bool.and_eq_true, decide_eq_true_eq] at holds
  cases opens : ts.bodyOpen? other.start other.stop with
  | none =>
    rw [opens] at inside
    cases inside
  | some body' =>
    rw [opens] at inside
    have bounds := site_call_bounds inside
    have lower' := (body_open_bounds opens).1
    have same : item = other := outline_functions_unique (i := site.call) defined defined'
      ⟨by omega, by omega⟩ ⟨by omega, by omega⟩
    subst same
    rw [body] at opens
    cases opens
    rw [stop]
    exact inside

end TokenSeq

end AllocGuard
