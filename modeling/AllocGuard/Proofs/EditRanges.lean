import AllocGuard.Proofs.BracketMatching
import AllocGuard.Proofs.FunctionRanges

/-! Every edit of a function stays inside that function. Edits of the header come from
scans that end before the body. Edits of the body come from scans with different floors
and limits, forwards for the end of a statement and backwards for its start or for an
lvalue; each of them stays behind the opening brace and in front of the end. -/
namespace AllocGuard

namespace TokenSeq

variable {ts : TokenSeq} {assign floor i start count stop semi : Nat}

/-! ## Scans inside a body -/

theorem statement_stop_bounds {depth : Int} (hit : ts.statementStopFrom depth i count = some semi) :
    i ≤ semi ∧ semi < i + count := by
  induction count generalizing depth i with
  | zero => simp [statementStopFrom] at hit
  | succ count ih =>
    have later {depth' : Int} (hit : ts.statementStopFrom depth' (i + 1) count = some semi) :
        i ≤ semi ∧ semi < i + (count + 1) := by
      have bounds := ih hit
      omega
    rw [statementStopFrom] at hit
    split at hit
    · exact later hit
    · exact later hit
    · exact later hit
    · exact later hit
    · split at hit
      · cases hit
        omega
      · exact later hit
    · split at hit
      · cases hit
      · exact later hit
    · split at hit
      · cases hit
      · exact later hit
    · exact later hit
    · cases hit

theorem semicolon_bounds {depth : Nat} (hit : ts.semicolonFrom depth i count = some semi) :
    i ≤ semi ∧ semi < i + count := by
  induction count generalizing depth i with
  | zero => simp [semicolonFrom] at hit
  | succ count ih =>
    have later {depth' : Nat} (hit : ts.semicolonFrom depth' (i + 1) count = some semi) :
        i ≤ semi ∧ semi < i + (count + 1) := by
      have bounds := ih hit
      omega
    rw [semicolonFrom] at hit
    split at hit
    · exact later hit
    · split at hit
      · split at hit
        · cases hit
        · exact later hit
      · split at hit
        · cases hit
          omega
        · exact later hit

/-- One token either leaves the last edge alone or is the new one. -/
theorem region_next_edge (ts : TokenSeq) (region : Nat) (scan : RegionScan) (i : Nat) :
    (RegionScan.next ts region scan i).edge = scan.edge ∨
      ∃ controlled, (RegionScan.next ts region scan i).edge = some (i, controlled) := by
  rw [RegionScan.next]
  split
  · exact .inl rfl
  · exact .inl rfl
  · dsimp only
    split
    · exact .inr ⟨true, rfl⟩
    · exact .inl rfl
  · exact .inl rfl
  · exact .inr ⟨false, rfl⟩
  · exact .inr ⟨false, rfl⟩
  · split
    · exact .inr ⟨true, rfl⟩
    · exact .inl rfl
  · exact .inl rfl

theorem region_edge_bound (ts : TokenSeq) {region : Nat} (positions : List Nat) (scan : RegionScan)
    (inside : ∀ i ∈ positions, region ≤ i) (known : ∀ edge ∈ scan.edge, region ≤ edge.1) :
    ∀ edge ∈ (positions.foldl (RegionScan.next ts region) scan).edge, region ≤ edge.1 := by
  induction positions generalizing scan with
  | nil => exact known
  | cons i rest ih =>
    refine ih _ (fun j member => inside j (List.mem_cons_of_mem i member)) ?_
    intro edge seen
    rcases region_next_edge ts region scan i with same | ⟨controlled, here⟩
    · rw [same] at seen
      exact known edge seen
    · rw [here] at seen
      cases seen
      exact inside i List.mem_cons_self

/-- The statement that holds a call starts behind the brace that opens the body, and not
behind the call. -/
theorem call_context_statement {call : Nat} (opens : ts.kind? floor = some .openBrace) (behind : floor < call) :
    floor < (ts.callContext call floor).statement ∧
      (ts.callContext call floor).statement ≤ call := by
  rw [callContext]
  generalize seen : Position.lastIn? _ floor call = brace
  cases brace with
  | none =>
    have open_brace := Position.last_none seen (Nat.le_refl floor) behind
    simp [has_kind_iff.2 opens] at open_brace
  | some last =>
    have bounds := Position.last_in_bounds seen
    have edges := region_edge_bound ts (Position.range (last + 1) call) ⟨[], none⟩
      (fun i member => (Position.mem_range.1 member).1) (by simp)
    simp only [Option.map_some, Option.getD_some]
    generalize (Position.range (last + 1) call).foldl _ _ = scan at edges ⊢
    have stop : last + 1 ≤ (scan.edge.map (·.1 + 1)).getD (last + 1) := by
      cases edge : scan.edge with
      | none => exact Nat.le_refl _
      | some found => exact Nat.le_succ_of_le (edges found edge)
    cases next : ts.nextSignificant ((scan.edge.map (·.1 + 1)).getD (last + 1)) (call + 1) with
    | none => exact ⟨behind, Nat.le_refl call⟩
    | some first =>
      have after := next_significant_bounds next
      simp only [Option.getD_some]
      omega

/-- A site's statement lies in the body that was looked through. -/
theorem site_statement_bounds {registry : Registry} {site : Site} {statement : SiteStatement}
    (opens : ts.kind? floor = some .openBrace) (found : site ∈ ts.sites registry floor stop)
    (stands : site.statement = some statement) :
    floor < statement.start ∧ statement.start ≤ statement.semi ∧ statement.semi < stop := by
  obtain ⟨allocator, call, opening, close, arguments, lower, upper, identifier, follows, closes, rfl⟩ :=
    site_call found
  have behind : floor < call := by
    apply Nat.lt_of_le_of_ne lower
    rintro rfl
    rw [opens] at identifier
    cases identifier
  simp only [classify] at stands
  split at stands
  · cases stands
  · obtain ⟨semi, ends, rfl⟩ := Option.map_eq_some_iff.1 stands
    have bounds := statement_stop_bounds ends
    have opened := next_significant_bounds follows
    have closed := matching_close_bounds closes
    have starts := call_context_statement opens behind
    exact ⟨starts.1, by dsimp only; omega, by dsimp only; omega⟩

/-! ## Lvalues -/

/-- An lvalue starts with a name, a group or a star, and never with a brace. -/
theorem postfix_start_found {j : Nat} (inside : floor ≤ j) (hit : ts.postfixStart floor j = some start) :
    floor ≤ start ∧ ts.kind? start ≠ some .openBrace := by
  fun_induction postfixStart ts floor j with
  | case1 | case2 | case5 | case9 => cases hit
  | case3 j closes opening opens prev before ih =>
    exact ih (prev_significant_bounds before).1 hit
  | case4 j identifier first =>
    cases hit
    exact ⟨inside, by simp [identifier]⟩
  | case6 j identifier p access member prev before ih =>
    exact ih (prev_significant_bounds before).1 hit
  | case7 j identifier p access other =>
    cases hit
    exact ⟨inside, by simp [identifier]⟩
  | case8 j closes =>
    have bounds := matching_open_bounds hit
    simp only [matchingOpen, closes, Option.bind_eq_bind, Option.bind_some, Bracket.ofCloser?] at hit
    exact ⟨bounds.1, by simp [open_from_kind hit, Bracket.opener]⟩

/-- An lvalue ends in front of its `=`, and starts with its postfix expression or with a
star in front of that. -/
theorem lvalue_before_cases (hit : ts.lvalueBefore assign floor = some (start, stop)) :
    ∃ last first, ts.prevSignificant assign floor = some last ∧
      ts.postfixStart floor last = some first ∧ stop = last + 1 ∧
      (start = first ∨
        ts.prevSignificant first floor = some start ∧ ts.kind? start = some .star) := by
  simp only [lvalueBefore, Option.bind_eq_bind, Option.bind_eq_some_iff] at hit
  obtain ⟨last, before, first, expression, taken⟩ := hit
  refine ⟨last, first, before, expression, ?_⟩
  split at taken
  · rename_i star starred
    split at taken
    · rename_i unary
      cases taken
      exact ⟨rfl, .inr ⟨starred, has_kind_iff.1 (Bool.and_eq_true_iff.1 unary).1⟩⟩
    · cases taken
      exact ⟨rfl, .inl rfl⟩
  · cases taken
    exact ⟨rfl, .inl rfl⟩

/-- What an `=` assigns to lies behind the brace that opens the body. -/
theorem lvalue_bounds (opens : ts.kind? floor = some .openBrace)
    (hit : ts.lvalueBefore assign floor = some (start, stop)) : floor < start ∧ floor < stop := by
  have apart {i : Nat} (above : floor ≤ i) (other : ts.kind? i ≠ some .openBrace) : floor < i := by
    apply Nat.lt_of_le_of_ne above
    rintro rfl
    exact other opens
  obtain ⟨last, first, before, expression, rfl, begins⟩ := lvalue_before_cases hit
  have lastBounds := prev_significant_bounds before
  refine ⟨?_, by omega⟩
  rcases begins with rfl | ⟨starred, isStar⟩
  · obtain ⟨above, other⟩ := postfix_start_found lastBounds.1 expression
    exact apart above other
  · exact apart (prev_significant_bounds starred).1 (by simp [isStar])

end TokenSeq

/-! ## Edits of a body -/

/-- The edit replaces tokens between these two and no others. -/
structure Edit.Within (lower upper : Nat) (e : Edit) : Prop where
  lower_le : lower ≤ e.start
  le_upper : e.stop ≤ upper

namespace BodyTask
open TokenSeq

variable {t : BodyTask} {registry : Registry} {site : Site} {sites : List Site} {call : Nat} {e : Edit}

/-- Where the edits of a body belong: behind its brace and in front of its end. -/
def Inside (t : BodyTask) (e : Edit) : Prop :=
  e.Within (t.function.body + 1) t.function.stop

theorem guard_behind_inside {statement : SiteStatement} {subject : Nat × Nat}
    (lower : t.function.body < statement.start) (ordered : statement.start ≤ statement.semi)
    (upper : statement.semi < t.function.stop) (member : e ∈ t.guardBehind site statement subject) : t.Inside e := by
  have after {text : String} : t.Inside (.insertion (statement.semi + 1) text) := ⟨Nat.succ_le_succ (by omega), upper⟩
  simp only [guardBehind] at member
  split at member
  · simp only [List.mem_cons, List.not_mem_nil, or_false] at member
    rcases member with rfl | rfl
    · exact ⟨lower, by simp only [Edit.insertion]; omega⟩
    · exact after
  · cases List.mem_singleton.1 member
    exact after

theorem guard_edits_inside {edits : List Edit} (placed : t.ts.Placed t.function)
    (found : site ∈ t.ts.sites registry t.function.body t.function.stop) (guarded : t.guardEdits? site = some edits) :
    ∀ e ∈ edits, t.Inside e := by
  rw [guardEdits?] at guarded
  split at guarded
  · rename_i statement subject stands _ _
    obtain ⟨lower, ordered, upper⟩ := site_statement_bounds placed.opens found stands
    cases guarded
    exact fun e => guard_behind_inside lower ordered upper
  · rename_i statement subject stands _ _
    obtain ⟨lower, ordered, upper⟩ := site_statement_bounds placed.opens found stands
    cases guarded
    exact fun e => guard_behind_inside lower ordered upper
  · rename_i statement stands _
    obtain ⟨lower, _, upper⟩ := site_statement_bounds placed.opens found stands
    cases guarded
    intro e member
    cases List.mem_singleton.1 member
    exact ⟨lower, upper⟩
  · cases guarded

theorem return_edit_inside {i : Nat} (placed : t.ts.Placed t.function) (above : t.function.body ≤ i)
    (hit : t.returnEdit? sites i = some e) : t.Inside e := by
  simp only [returnEdit?, Option.bind_eq_bind, Option.bind_eq_some_iff, Option.guard_eq_some',
    isIdent, Bool.and_eq_true] at hit
  obtain ⟨_, ⟨identifier, _⟩, semi, ends, changes⟩ := hit
  have behind : t.function.body < i := by
    apply Nat.lt_of_le_of_ne above
    intro here
    rw [← here, has_kind_iff, placed.opens] at identifier
    cases identifier
  have bounds := semicolon_bounds ends
  have upper : semi + 1 ≤ t.function.stop := by omega
  split at changes
  · cases changes
    exact ⟨behind, upper⟩
  · cases changes
    exact ⟨behind, upper⟩
  · cases changes

theorem assigned_call_inside {assign opening close semi : Nat} (placed : t.ts.Placed t.function)
    (upper : semi < t.function.stop) (hit : t.assignedCallEdit? assign call opening close semi = some e) :
    t.Inside e := by
  simp only [assignedCallEdit?, Option.bind_eq_bind, Option.bind_eq_some_iff] at hit
  obtain ⟨⟨start, stop⟩, assigned, changes⟩ := hit
  obtain ⟨startAbove, stopAbove⟩ := lvalue_bounds placed.opens assigned
  dsimp only at changes
  split at changes
  · split at changes
    · cases changes
      exact ⟨startAbove, upper⟩
    · split at changes
      · cases changes
        exact ⟨startAbove, upper⟩
      · cases changes
        exact ⟨stopAbove, upper⟩
  · cases changes
    exact ⟨stopAbove, upper⟩

theorem call_edit_inside (placed : t.ts.Placed t.function) (behind : t.function.body < call)
    (hit : t.callEdit? call = some e) : t.Inside e := by
  simp only [callEdit?, Option.bind_eq_bind, Option.bind_eq_some_iff, Option.guard_eq_some'] at hit
  obtain ⟨_, _, shape, _, opening, _, _, _, close, _, before, _, _, _, semi, ends, _, _, changes⟩ := hit
  have upper := (next_significant_bounds ends).2.1
  split at changes
  · cases changes
  · rw [statusCallEdit?] at changes
    split at changes
    · cases changes
      exact ⟨behind, upper⟩
    · cases changes
  · split at changes
    · exact assigned_call_inside placed upper changes
    · cases changes

theorem tail_inside (hit : t.tail? = some e) : t.Inside e := by
  simp only [tail?, Option.ite_none_right_eq_some, Bool.and_eq_true, decide_eq_true_eq] at hit
  obtain ⟨⟨⟨⟨_, behind⟩, _⟩, _⟩, made⟩ := hit
  cases made
  exact ⟨behind, by simp only [Edit.insertion]; omega⟩

/-- Every edit of a body stays in that body. -/
theorem run_inside (placed : t.ts.Placed t.function)
    (found : ∀ site ∈ sites, site ∈ t.ts.sites registry t.function.body t.function.stop) :
    ∀ e ∈ (t.run sites).edits, t.Inside e := by
  intro e member
  simp only [run, List.mem_append, List.mem_flatten, Option.mem_toList] at member
  rcases member with ((⟨edits, guarding, inside⟩ | returning) | calling) | ending
  · obtain ⟨site, kept, guarded⟩ := List.mem_filterMap.1 guarding
    exact guard_edits_inside placed (found site (List.mem_filter.1 kept).1) guarded e inside
  · obtain ⟨i, range, hit⟩ := List.mem_filterMap.1 returning
    exact return_edit_inside placed (Position.mem_range.1 range).1 hit
  · obtain ⟨call, range, hit⟩ := List.mem_filterMap.1 calling
    exact call_edit_inside placed (Position.mem_range.1 range).1 hit
  · exact tail_inside ending

end BodyTask

/-! ## Edits of a header -/

namespace TokenSeq

variable {ts : TokenSeq} {f : Function} {outParam : String} {shape : ReturnShape} {change : Option Edit}

theorem skip_storage_le (ts : TokenSeq) {i limit : Nat} (before : i ≤ limit) : i ≤ ts.skipStorage i limit := by
  fun_induction skipStorage ts i limit with
  | case1 i => omega
  | case2 i k next storage ih =>
    have found := next_significant_bounds next
    have later := ih (by omega)
    omega
  | case3 i k next other attributed unclosed => exact (next_significant_bounds next).1
  | case4 i k next other attributed close closes ih =>
    obtain ⟨opening, opens, closing⟩ := Option.bind_eq_some_iff.1 closes
    have found := next_significant_bounds next
    have after := next_significant_bounds opens
    have closed := matching_close_bounds closing
    have later := ih (by omega)
    omega
  | case5 i k next other plain => exact (next_significant_bounds next).1

theorem return_type_start {start typeStart nameToken newStart : Nat} {lead returnType : String}
    (below : start ≤ typeStart)
    (hit : ts.returnTypeParts start typeStart nameToken = .ok (newStart, lead, returnType)) : start ≤ newStart := by
  rw [returnTypeParts] at hit
  split at hit
  · rw [Except.ok.injEq, Prod.mk.injEq] at hit
    exact hit.1 ▸ below
  · split at hit
    · cases hit
    · split at hit
      · rw [Except.ok.injEq, Prod.mk.injEq] at hit
        exact Nat.le_of_eq hit.1
      · cases hit

/-- The part of a header that is replaced lies in front of the body. -/
theorem header_bounds {start stop : Nat} {h : Header} (hit : ts.header start stop = .ok h) :
    start ≤ h.typeStart ∧ h.paramsClose < stop := by
  rw [header] at hit
  split at hit
  · rename_i paramsOpen list
    dsimp only at hit
    split at hit
    · rename_i nameToken named
      have above := (prev_significant_bounds (Option.filter_eq_some_iff.1 named).1).1
      split at hit
      · cases hit
      · split at hit
        · rename_i paramsClose closes
          cases parts : ts.returnTypeParts start (ts.skipStorage start nameToken) nameToken with
          | error reason =>
            rw [parts] at hit
            cases hit
          | ok type =>
            rw [parts] at hit
            cases hit
            exact ⟨return_type_start (ts.skip_storage_le above) parts, (matching_close_bounds closes).2.1⟩
        · cases hit
    · cases hit
  · cases hit

/-- What can become of a header: the entry point keeps it, one that returned nothing
returns a status, a plain `int` stays, and any other value goes out through a parameter. -/
theorem reshape_cases (hit : ts.reshape f outParam = .ok (shape, change)) :
    f.isEntry = true ∧ shape = .unchanged f.returnsVoid ∧ change = none ∨
      f.isEntry = false ∧ ∃ h, ts.header f.start f.body = .ok h ∧
        (f.returnsVoid = true ∧ shape = .voidToInt ∧ change = some (headerEdit h h.params) ∨
          f.returnsVoid = false ∧ (f.returnsPointer = false ∧ Word.isPlainInt h.returnType = true) ∧
            shape = .unchanged false ∧ change = none ∨
          f.returnsVoid = false ∧ ¬ (f.returnsPointer = false ∧ Word.isPlainInt h.returnType = true) ∧
            ∃ name, shape = .outParam h.returnType name ∧
              change = some (headerEdit h (paramsWith h name))) := by
  rw [reshape] at hit
  split at hit
  · rename_i entry
    cases hit
    exact .inl ⟨entry, rfl, rfl⟩
  · rename_i notEntry
    cases read : ts.header f.start f.body with
    | error reason =>
      rw [read] at hit
      cases hit
    | ok h =>
      rw [read] at hit
      refine .inr ⟨Bool.eq_false_iff.2 notEntry, h, rfl, ?_⟩
      change (if _ then _ else _) = _ at hit
      split at hit
      · rename_i isVoid
        cases hit
        exact .inl ⟨isVoid, rfl, rfl⟩
      · rename_i notVoid
        split at hit
        · rename_i plain
          rw [Bool.and_eq_true, Bool.not_eq_true'] at plain
          cases hit
          exact .inr (.inl ⟨Bool.eq_false_iff.2 notVoid, plain, rfl, rfl⟩)
        · rename_i other
          rw [Bool.and_eq_true, Bool.not_eq_true'] at other
          cases hit
          exact .inr (.inr ⟨Bool.eq_false_iff.2 notVoid, other, _, rfl, rfl⟩)

/-- An edit of a header lies in front of the body, and there is none where the way of
returning does not change. -/
theorem reshape_within {e : Edit} (hit : ts.reshape f outParam = .ok (shape, some e)) :
    e.Within f.start f.body ∧ ∀ isVoid, shape ≠ .unchanged isVoid := by
  rcases reshape_cases hit with ⟨_, _, stays⟩ | ⟨_, h, read, changes⟩
  · cases stays
  · have bounds := header_bounds read
    rcases changes with ⟨_, rfl, made⟩ | ⟨_, _, _, stays⟩ | ⟨_, _, name, rfl, made⟩
    · cases made
      exact ⟨⟨bounds.1, bounds.2⟩, fun _ => ReturnShape.noConfusion⟩
    · cases stays
    · cases made
      exact ⟨⟨bounds.1, bounds.2⟩, fun _ => ReturnShape.noConfusion⟩

/-- A header stays for the entry point, and for a function that returns a plain `int`. -/
theorem reshape_unchanged_iff (hit : ts.reshape f outParam = .ok (shape, change)) :
    (∃ isVoid, shape = .unchanged isVoid) ↔
      f.isEntry = true ∨ f.returnsVoid = false ∧ f.returnsPointer = false ∧
        ∃ h, ts.header f.start f.body = .ok h ∧ Word.isPlainInt h.returnType = true := by
  rcases reshape_cases hit with ⟨entry, rfl, _⟩ | ⟨notEntry, h, read, changes⟩
  · exact ⟨fun _ => .inl entry, fun _ => ⟨_, rfl⟩⟩
  · rcases changes with ⟨isVoid, rfl, _⟩ | ⟨notVoid, plain, rfl, _⟩ | ⟨notVoid, other, name, rfl, _⟩
    · simp [notEntry, isVoid]
    · exact ⟨fun _ => .inr ⟨notVoid, plain.1, h, read, plain.2⟩, fun _ => ⟨_, rfl⟩⟩
    · simp only [reduceCtorEq, exists_false, notEntry, read, Except.ok.injEq, false_or, false_iff, Bool.false_eq_true]
      rintro ⟨_, value, h', rfl, plain⟩
      exact other ⟨value, plain⟩

end TokenSeq

end AllocGuard
