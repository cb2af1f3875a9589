import AllocGuard.Hardening
import AllocGuard.Proofs.BracketMatching
import AllocGuard.Proofs.EditRanges

/-! What the edit of a call replaces. It ends at the `;` right behind the call, and starts
at the call, at the lvalue that takes the value, or right behind that lvalue. Reading the
tokens in between leaves the open parentheses as they were, so an edit stands in the group
in which its call stands. Nothing looks at that group, or at what stands in front of the
lvalue beyond one token: a call in the head of a loop is edited there, and an assignment
inside another one is taken for a declaration. -/
namespace AllocGuard

namespace TokenSeq

variable {ts : TokenSeq} {assign floor limit start stop : Nat}

/-! ## Open parentheses -/

/-- The open parentheses after the token at `i`, the innermost first. -/
def parenStep (ts : TokenSeq) (stack : List Nat) (i : Nat) : List Nat :=
  match ts.kind? i with
  | some .openParen => i :: stack
  | some .closeParen => stack.tail
  | _ => stack

/-- The parentheses that are open in front of `i`, of those from `block` on. -/
def parensAt (ts : TokenSeq) (block i : Nat) : List Nat :=
  (Position.range block i).foldl ts.parenStep []

/-- Reading the tokens of `[start, stop)` leaves the open parentheses as they are. -/
structure KeepsParens (ts : TokenSeq) (start stop : Nat) : Prop where
  ordered : start ≤ stop
  keeps : ∀ stack, (Position.range start stop).foldl ts.parenStep stack = stack

section Parens

variable {ts : TokenSeq} {start middle stop depth i opening count close : Nat} {kind : TokenKind}

theorem paren_step_open (stack : List Nat) (opens : ts.hasKind i .openParen = true) :
    ts.parenStep stack i = i :: stack := by
  rw [parenStep, has_kind_iff.1 opens]

theorem paren_step_close (stack : List Nat) (closes : ts.hasKind i .closeParen = true) :
    ts.parenStep stack i = stack.tail := by
  rw [parenStep, has_kind_iff.1 closes]

theorem paren_step_other (stack : List Nat) (notOpen : ts.hasKind i .openParen = false)
    (notClose : ts.hasKind i .closeParen = false) : ts.parenStep stack i = stack := by
  rw [parenStep]
  split
  · rename_i seen
    rw [has_kind_iff.2 seen] at notOpen
    cases notOpen
  · rename_i seen
    rw [has_kind_iff.2 seen] at notClose
    cases notClose
  · rfl

theorem paren_step_token (stack : List Nat) (seen : ts.kind? i = some kind) (notOpen : (kind == .openParen) = false)
    (notClose : (kind == .closeParen) = false) : ts.parenStep stack i = stack :=
  paren_step_other stack (by rwa [has_kind_of_kind seen]) (by rwa [has_kind_of_kind seen])

theorem keeps_append (front : ts.KeepsParens start middle) (back : ts.KeepsParens middle stop) :
    ts.KeepsParens start stop := by
  refine ⟨Nat.le_trans front.ordered back.ordered, fun stack => ?_⟩
  rw [Position.range_append front.ordered back.ordered, List.foldl_append, front.keeps, back.keeps]

theorem keeps_token (seen : ts.kind? i = some kind) (notOpen : (kind == .openParen) = false)
    (notClose : (kind == .closeParen) = false) : ts.KeepsParens i (i + 1) := by
  refine ⟨Nat.le_succ i, fun stack => ?_⟩
  rw [Position.range_single, List.foldl_cons, List.foldl_nil, paren_step_token stack seen notOpen notClose]

theorem keeps_blank (ordered : start ≤ stop)
    (blank : ∀ q, start ≤ q → q < stop → ts.isSignificant q = false) : ts.KeepsParens start stop := by
  refine ⟨ordered, fun stack => ?_⟩
  have passes (positions : List Nat) (all : ∀ q ∈ positions, ts.isSignificant q = false) :
      positions.foldl ts.parenStep stack = stack := by
    induction positions with
    | nil => rfl
    | cons i rest ih =>
      have here := all i List.mem_cons_self
      rw [List.foldl_cons, paren_step_other stack (has_kind_blank here rfl) (has_kind_blank here rfl)]
      exact ih fun q member => all q (List.mem_cons_of_mem i member)
  refine passes _ fun q member => ?_
  have bounds := Position.mem_range.1 member
  exact blank q bounds.1 bounds.2

theorem keeps_next {next : Nat} (follows : ts.nextSignificant i limit = some next) : ts.KeepsParens i next := by
  obtain ⟨lower, _, _, blank⟩ := next_significant_iff.1 follows
  exact keeps_blank lower blank

theorem keeps_prev {prev : Nat} (precedes : ts.prevSignificant i floor = some prev) :
    ts.KeepsParens (prev + 1) i := by
  obtain ⟨_, upper, _, blank⟩ := prev_significant_iff.1 precedes
  exact keeps_blank upper fun q lower above => blank q lower above

/-- The search for a closing parenthesis reads as much as closes the `depth` innermost
ones. -/
theorem close_from_drops (inside : 0 < depth) (hit : ts.closeFrom .paren depth i count = some close)
    (stack : List Nat) : (Position.range i (close + 1)).foldl ts.parenStep stack = stack.drop depth := by
  induction count generalizing depth i stack with
  | zero => simp [closeFrom] at hit
  | succ count ih =>
    have bounds := close_from_bounds hit
    rw [Position.range_append (Nat.le_succ i) (by omega), Position.range_single, List.foldl_append,
      List.foldl_cons, List.foldl_nil]
    rw [closeFrom] at hit
    split at hit
    · rename_i opens
      rw [paren_step_open stack opens, ih (Nat.succ_pos depth) hit, List.drop_succ_cons]
    · rename_i notOpen
      split at hit
      · rename_i closes
        rw [paren_step_close stack closes]
        split at hit
        · cases hit
          obtain rfl : depth = 1 := by omega
          rw [Position.range, Nat.sub_self, List.range'_zero, List.foldl_nil, List.drop_one]
        · obtain ⟨depth, rfl⟩ := Nat.exists_eq_add_of_lt inside
          rw [ih (by omega) hit, List.drop_tail]
          congr 1
      · rename_i notClose
        rw [paren_step_other stack (Bool.eq_false_iff.2 notOpen) (Bool.eq_false_iff.2 notClose), ih inside hit]

theorem keeps_group (opens : ts.kind? opening = some .openParen)
    (closes : ts.matchingClose opening limit = some close) : ts.KeepsParens opening (close + 1) := by
  have bounds := matching_close_bounds closes
  refine ⟨by omega, fun stack => ?_⟩
  simp only [matchingClose, opens, Option.bind_some, Bracket.ofOpener?, Option.bind_eq_bind] at closes
  rw [Position.range_append (Nat.le_succ opening) (by omega), Position.range_single, List.foldl_append,
    List.foldl_cons, List.foldl_nil, paren_step_open stack (has_kind_iff.2 opens),
    close_from_drops Nat.one_pos closes, List.drop_one, List.tail_cons]

/-- The search backwards for an opening parenthesis reads as much as opens `depth` of them. -/
theorem open_from_pushes (inside : 0 < depth) (hit : ts.openFrom .paren depth floor count = some opening) :
    ∃ pushed, pushed.length = depth ∧ ∀ stack,
      (Position.range opening (floor + count)).foldl ts.parenStep stack = pushed ++ stack := by
  induction count generalizing depth with
  | zero => simp [openFrom] at hit
  | succ count ih =>
    have bounds := open_from_bounds hit
    have last (stack : List Nat) :
        (Position.range opening (floor + (count + 1))).foldl ts.parenStep stack =
          ts.parenStep ((Position.range opening (floor + count)).foldl ts.parenStep stack)
            (floor + count) := by
      have order : opening ≤ floor + count := by omega
      rw [← Nat.add_assoc, Position.range_append order (Nat.le_succ _), Position.range_single,
        List.foldl_append, List.foldl_cons, List.foldl_nil]
    rw [openFrom] at hit
    split at hit
    · rename_i closes
      obtain ⟨pushed, width, reads⟩ := ih (Nat.succ_pos depth) hit
      obtain ⟨top, pushed, rfl⟩ := List.exists_cons_of_length_eq_add_one width
      refine ⟨pushed, Nat.succ.inj width, fun stack => ?_⟩
      rw [last, reads, paren_step_close _ closes, List.cons_append, List.tail_cons]
    · split at hit
      · rename_i opens
        split at hit
        · cases hit
          refine ⟨[floor + count], by rw [List.length_singleton]; omega, fun stack => ?_⟩
          rw [last, paren_step_open _ opens, Position.range, Nat.sub_self, List.range'_zero,
            List.foldl_nil, List.singleton_append]
        · obtain ⟨pushed, width, reads⟩ := ih (by omega) hit
          refine ⟨(floor + count) :: pushed, by rw [List.length_cons]; omega, fun stack => ?_⟩
          rw [last, reads, paren_step_open _ opens, List.cons_append]
      · rename_i notClose notOpen
        obtain ⟨pushed, width, reads⟩ := ih inside hit
        refine ⟨pushed, width, fun stack => ?_⟩
        rw [last, reads, paren_step_other _ (Bool.eq_false_iff.2 notOpen) (Bool.eq_false_iff.2 notClose)]

theorem keeps_group_back (closes : ts.kind? close = some .closeParen)
    (opens : ts.matchingOpen close floor = some opening) : ts.KeepsParens opening (close + 1) := by
  have bounds := matching_open_bounds opens
  refine ⟨by omega, fun stack => ?_⟩
  simp only [matchingOpen, closes, Option.bind_some, Bracket.ofCloser?, Option.bind_eq_bind] at opens
  obtain ⟨pushed, width, reads⟩ := open_from_pushes Nat.one_pos opens
  obtain ⟨only, rfl⟩ := List.length_eq_one_iff.1 width
  have reach : floor + (close - floor) = close := by omega
  rw [reach] at reads
  have order : opening ≤ close := by omega
  rw [Position.range_append order (Nat.le_succ close), Position.range_single, List.foldl_append, reads,
    List.foldl_cons, List.foldl_nil, paren_step_close _ (has_kind_iff.2 closes), List.singleton_append,
    List.tail_cons]

end Parens

/-! ## Lvalues -/

/-- What stands between two square brackets leaves the open parentheses as they are. -/
def SubscriptsLevel (ts : TokenSeq) (floor limit : Nat) : Prop :=
  ∀ close opening, close < limit → ts.kind? close = some .closeBracket →
    ts.matchingOpen close floor = some opening → ts.KeepsParens opening (close + 1)

theorem postfix_keeps {j : Nat} (level : ts.SubscriptsLevel floor limit) (inside : j < limit)
    (hit : ts.postfixStart floor j = some start) : ts.KeepsParens start (j + 1) := by
  fun_induction postfixStart ts floor j with
  | case1 | case2 | case5 | case9 => cases hit
  | case3 j closes opening opens prev before ih =>
    have opened := matching_open_bounds opens
    have earlier := prev_significant_bounds before
    have target := ih (by omega) hit
    exact keeps_append (keeps_append target (keeps_prev before)) (level j opening inside closes opens)
  | case4 j identifier first =>
    cases hit
    exact keeps_token identifier rfl rfl
  | case6 j identifier p access member prev before ih =>
    have accessed := prev_significant_bounds access
    have earlier := prev_significant_bounds before
    have target := ih (by omega) hit
    have joined : ts.KeepsParens p (p + 1) := by
      obtain ⟨kind, seen, accesses⟩ := kind_is_iff.1 member
      rw [TokenKind.isMemberAccess, Bool.or_eq_true, beq_iff_eq, beq_iff_eq] at accesses
      rcases accesses with rfl | rfl
      · exact keeps_token seen rfl rfl
      · exact keeps_token seen rfl rfl
    have object := keeps_append (keeps_append target (keeps_prev before)) joined
    exact keeps_append (keeps_append object (keeps_prev access)) (keeps_token identifier rfl rfl)
  | case7 j identifier p access other =>
    cases hit
    exact keeps_token identifier rfl rfl
  | case8 j closes => exact keeps_group_back closes hit

theorem lvalue_keeps (inside : assign ≤ limit) (level : ts.SubscriptsLevel floor limit)
    (hit : ts.lvalueBefore assign floor = some (start, stop)) : ts.KeepsParens start stop := by
  obtain ⟨last, first, before, expression, rfl, begins⟩ := lvalue_before_cases hit
  have bounds := prev_significant_bounds before
  have target := postfix_keeps level (by omega) expression
  rcases begins with rfl | ⟨starred, isStar⟩
  · exact target
  · exact keeps_append (keeps_append (keeps_token isStar rfl rfl) (keeps_prev starred)) target

/-- Between an lvalue and its `=` nothing carries meaning. -/
theorem lvalue_stop_keeps (hit : ts.lvalueBefore assign floor = some (start, stop)) : ts.KeepsParens stop assign := by
  obtain ⟨last, first, before, _, rfl, _⟩ := lvalue_before_cases hit
  exact keeps_prev before

/-! ## Blocks -/

theorem region_next_parens (ts : TokenSeq) (region : Nat) (scan : RegionScan) (i : Nat) :
    (RegionScan.next ts region scan i).parens = ts.parenStep scan.parens i := by
  rw [RegionScan.next]
  split
  · rename_i seen
    exact (paren_step_open _ (has_kind_iff.2 seen)).symm
  · rename_i seen empty
    rw [paren_step_close _ (has_kind_iff.2 seen), empty, List.tail_nil]
  · rename_i opening seen single
    rw [paren_step_close _ (has_kind_iff.2 seen), single, List.tail_cons]
  · rename_i opening parens _ seen several
    rw [paren_step_close _ (has_kind_iff.2 seen), several, List.tail_cons]
  · rename_i seen _
    exact (paren_step_token _ seen rfl rfl).symm
  · rename_i seen _
    exact (paren_step_token _ seen rfl rfl).symm
  · rename_i seen _
    rw [paren_step_token _ seen rfl rfl]
    split <;> rfl
  · rename_i notOpen empty _ several _ _ _
    have opens : ts.hasKind i .openParen = false := Bool.eq_false_iff.2 fun seen => notOpen (has_kind_iff.1 seen)
    have closes : ts.hasKind i .closeParen = false := by
      rw [Bool.eq_false_iff]
      intro seen
      cases parens : scan.parens with
      | nil => exact empty (has_kind_iff.1 seen) parens
      | cons opening rest => exact several opening rest (has_kind_iff.1 seen) parens
    exact (paren_step_other _ opens closes).symm

theorem scan_parens (ts : TokenSeq) (region : Nat) (positions : List Nat) (scan : RegionScan) :
    (positions.foldl (RegionScan.next ts region) scan).parens =
      positions.foldl ts.parenStep scan.parens := by
  induction positions generalizing scan with
  | nil => rfl
  | cons i rest ih => rw [List.foldl_cons, List.foldl_cons, ih, region_next_parens]

/-- The context of a call holds the parentheses that are open in its block. -/
theorem call_context_parens (ts : TokenSeq) (call floor : Nat) :
    (ts.callContext call floor).parens = ts.parensAt (ts.callContext call floor).region call := by
  rw [callContext, parensAt]
  exact ts.scan_parens _ _ _

/-- Tokens that leave the open parentheses as they are do so in every block. -/
theorem parens_at_keeps {block : Nat} (above : block ≤ start) (keeps : ts.KeepsParens start stop) :
    ts.parensAt block stop = ts.parensAt block start := by
  rw [parensAt, Position.range_append above keeps.ordered, List.foldl_append, keeps.keeps, parensAt]

theorem call_context_region {call : Nat} (behind : floor ≤ call) : (ts.callContext call floor).region ≤ call := by
  simp only [callContext]
  generalize seen : Position.lastIn? _ floor call = brace
  cases brace with
  | none => exact behind
  | some last => exact (Position.last_in_bounds seen).2.1

end TokenSeq

/-! ## Edits of calls -/

namespace BodyTask
open TokenSeq

variable {t : BodyTask} {call opening close semi : Nat} {e : Edit}

/-- A call of a changed function, with a `;` right behind it. -/
structure ChangedCall (t : BodyTask) (call opening close semi : Nat) : Prop where
  name : t.ts.kind? call = some .identifier
  changed : ∃ shape, t.shapes.lookup (t.ts.spelling call) = some shape ∧
    ∀ isVoid, shape ≠ .unchanged isVoid
  opens : t.ts.nextSignificant (call + 1) t.function.stop = some opening
  isParen : t.ts.kind? opening = some .openParen
  closes : t.ts.matchingClose opening t.function.stop = some close
  ends : t.ts.nextSignificant (close + 1) t.function.stop = some semi
  isSemicolon : t.ts.kind? semi = some .semicolon

/-- What an edit puts in the place of a call, and from where on. The tokens in front of the
call that go with it leave the open parentheses as they are; where the lvalue goes, that
takes subscripts which do so. -/
inductive CallForm (t : BodyTask) (e : Edit) (call : Nat) : Prop where
  /-- The call starts a statement and gives way to a check of its status. -/
  | statement {before : Nat}
      (previous : t.ts.prevSignificant call t.function.body = some before)
      (edge : t.ts.endsStatement before t.function.body = true)
      (checks : ∃ block condition, e.text = braced block (t.failIf condition))
      (starts : e.start = call)
  /-- The lvalue starts a statement and gives way to the check together with the call. -/
  | assignment {assign stop before : Nat}
      (previous : t.ts.prevSignificant call t.function.body = some assign)
      (assigns : t.ts.kind? assign = some .assign)
      (lvalue : t.ts.lvalueBefore assign t.function.body = some (e.start, stop))
      (inFront : t.ts.prevSignificant e.start t.function.body = some before)
      (edge : t.ts.endsStatement before t.function.body = true)
      (checks : ∃ block condition, e.text = braced block (t.failIf condition))
      (group : t.ts.SubscriptsLevel t.function.body t.function.stop → t.ts.KeepsParens e.start call)
  /-- The lvalue starts no statement. It stays, and the check follows it. -/
  | kept {assign start : Nat}
      (previous : t.ts.prevSignificant call t.function.body = some assign)
      (assigns : t.ts.kind? assign = some .assign)
      (lvalue : t.ts.lvalueBefore assign t.function.body = some (start, e.start))
      (inside : ∀ before, t.ts.prevSignificant start t.function.body = some before →
        t.ts.endsStatement before t.function.body = false)
      (checks : ∃ condition, e.text = "; " ++ t.failIf condition)
      (group : t.ts.KeepsParens e.start call)

theorem changed_call_keeps (calls : t.ChangedCall call opening close semi) : t.ts.KeepsParens call (semi + 1) := by
  have name := keeps_append (keeps_token calls.name rfl rfl) (keeps_next calls.opens)
  have group := keeps_append name (keeps_group calls.isParen calls.closes)
  exact keeps_append (keeps_append group (keeps_next calls.ends)) (keeps_token calls.isSemicolon rfl rfl)

theorem status_call_form {before : Nat} (previous : t.ts.prevSignificant call t.function.body = some before)
    (hit : t.statusCallEdit? before call close semi = some e) : e.stop = semi + 1 ∧ t.CallForm e call := by
  rw [statusCallEdit?] at hit
  split at hit
  · rename_i edge
    cases hit
    exact ⟨rfl, .statement previous edge ⟨_, _, rfl⟩ rfl⟩
  · cases hit

theorem assigned_call_form {assign : Nat} (upper : call < t.function.stop)
    (previous : t.ts.prevSignificant call t.function.body = some assign) (assigns : t.ts.kind? assign = some .assign)
    (hit : t.assignedCallEdit? assign call opening close semi = some e) : e.stop = semi + 1 ∧ t.CallForm e call := by
  simp only [assignedCallEdit?, Option.bind_eq_bind, Option.bind_eq_some_iff] at hit
  obtain ⟨⟨start, stop⟩, lvalue, changes⟩ := hit
  have bounds := prev_significant_bounds previous
  have behind : t.ts.KeepsParens stop call :=
    keeps_append (keeps_append (lvalue_stop_keeps lvalue) (keeps_token assigns rfl rfl))
      (keeps_prev previous)
  have whole (level : t.ts.SubscriptsLevel t.function.body t.function.stop) :
      t.ts.KeepsParens start call :=
    keeps_append (lvalue_keeps (by omega) level lvalue) behind
  dsimp only at changes
  split at changes
  · rename_i before inFront
    split at changes
    · rename_i controlled
      cases changes
      -- behind the head of a control statement a statement starts as well
      have edge : t.ts.endsStatement before t.function.body = true := by
        rw [endsStatement, controlled, Bool.or_true]
      exact ⟨rfl, .assignment previous assigns lvalue inFront edge ⟨true, _, rfl⟩ whole⟩
    · split at changes
      · rename_i edge
        cases changes
        exact ⟨rfl, .assignment previous assigns lvalue inFront edge ⟨false, _, rfl⟩ whole⟩
      · rename_i notEdge
        cases changes
        refine ⟨rfl, .kept previous assigns lvalue (fun other there => ?_) ⟨_, rfl⟩ behind⟩
        cases Option.some.inj (inFront.symm.trans there)
        exact Bool.eq_false_iff.2 notEdge
  · rename_i nothing
    cases changes
    refine ⟨rfl, .kept previous assigns lvalue (fun other there => ?_) ⟨_, rfl⟩ behind⟩
    rw [nothing] at there
    cases there

theorem call_edit_form (upper : call < t.function.stop) (hit : t.callEdit? call = some e) :
    ∃ opening close semi, t.ChangedCall call opening close semi ∧ e.stop = semi + 1 ∧
      t.CallForm e call := by
  simp only [callEdit?, Option.bind_eq_bind, Option.bind_eq_some_iff, Option.guard_eq_some', Bool.and_eq_true] at hit
  obtain ⟨_, name, shape, known, opening, opens, _, ⟨isParen, _⟩, close, closes, before, previous, _, _,
    semi, ends, _, isSemicolon, changes⟩ := hit
  have calls (changed : ∀ isVoid, shape ≠ .unchanged isVoid) : t.ChangedCall call opening close semi :=
    ⟨has_kind_iff.1 name, ⟨shape, known, changed⟩, opens, has_kind_iff.1 isParen, closes, ends,
      has_kind_iff.1 isSemicolon⟩
  split at changes
  · cases changes
  · exact ⟨opening, close, semi, calls fun _ => ReturnShape.noConfusion, status_call_form previous changes⟩
  · split at changes
    · rename_i assigns
      exact ⟨opening, close, semi, calls fun _ => ReturnShape.noConfusion,
        assigned_call_form upper previous (has_kind_iff.1 assigns) changes⟩
    · cases changes

/-- Every edit of a call ends at the `;` right behind it and has one of three forms. It
stands in the group in which the call stands: where it ends, the parentheses that are open
in the block are those that are open at the call. -/
theorem call_edit_in_group (t : BodyTask) (e : Edit) (member : e ∈ t.calls) :
    ∃ call opening close semi, t.ChangedCall call opening close semi ∧ e.stop = semi + 1 ∧
      t.CallForm e call ∧ t.ts.KeepsParens call e.stop ∧
      t.ts.parensAt (t.ts.callContext call t.function.body).region e.stop =
        (t.ts.callContext call t.function.body).parens := by
  obtain ⟨call, range, hit⟩ := List.mem_filterMap.1 member
  have bounds := Position.mem_range.1 range
  obtain ⟨opening, close, semi, calls, stops, form⟩ := call_edit_form bounds.2 hit
  have keeps : t.ts.KeepsParens call e.stop := stops ▸ changed_call_keeps calls
  refine ⟨call, opening, close, semi, calls, stops, form, keeps, ?_⟩
  rw [parens_at_keeps (call_context_region (by omega)) keeps, call_context_parens]

theorem call_edit_in_group_loop_head :
    let t : BodyTask :=
      { ts := .ofSource "\x7bfor(p=mk();;);\x7d", function := ⟨"f", 0, 0, 13, true, false, "void", false⟩
        shape := .voidToInt, shapes := [("mk", .outParam "char *" "out")]
        failureCode := "-1", nullIsFailure := false }
    let e : Edit := ⟨4, 9, "; if (mk(&p) != 0) return -1;"⟩
    e ∈ t.calls ∧ ∃ call opening close semi, t.ChangedCall call opening close semi ∧
      e.stop = semi + 1 ∧ t.CallForm e call ∧ t.ts.KeepsParens call e.stop ∧
      t.ts.parensAt (t.ts.callContext call t.function.body).region e.stop =
        (t.ts.callContext call t.function.body).parens := by
  intro t e
  have member : e ∈ t.calls := by decide +kernel
  exact ⟨member, t.call_edit_in_group e member⟩

end BodyTask

/-- The value of one call is assigned in the head of a loop, and that of the other inside
a second assignment. Both calls are edited as if the lvalue had been declared there: the
first edit stands inside a parenthesis, and the second one cuts off an assignment that
comes before the call is made. -/
theorem nested_calls_edited :
    let ts := TokenSeq.ofSource <|
      "char *mk() \x7b return malloc(1); \x7d void f() \x7b for (p = mk(); ; ) ; a = b = mk(); \x7d"
    let a := ts.analyse {}
    let bodies := a.bodyChanges {} (Analysis.reshaped (a.headerChanges "out"))
    (bodies.map (·.2.edits)) =
        [[⟨9, 16, "\x7b *out = malloc(1); if (*out == NULL) return -1; return 0; \x7d"⟩],
          [⟨31, 38, "; if (mk(&p) != 0) return -1;"⟩, ⟨50, 57, "; if (mk(&b) != 0) return -1;"⟩,
            ⟨58, 58, "return 0; "⟩]] ∧
      ts.textRange 26 38 = " for (p = mk();" ∧ ts.parensAt 26 31 = [29] ∧
      ts.textRange 45 57 = "a = b = mk();" := by
  decide +kernel

end AllocGuard
