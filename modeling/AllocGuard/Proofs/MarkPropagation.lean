import Mathlib.Data.Set.Card
import AllocGuard.CallGraph
import AllocGuard.Proofs.Significance

/-! Which functions are marked. The marks are the least set of functions that holds the
seeds and, with every function other than the entry point, the functions whose bodies
call it. The argument follows the list of functions that wait: whatever is marked has
its callers marked or still waits, and nothing is marked without a reason, so an empty
list leaves exactly the least set. Calls are read off the tokens of a body. -/
namespace AllocGuard

namespace CallGraph

variable {g : CallGraph} {i j : Nat}

/-! ## The list of functions that wait -/

namespace Marking

/-- The function at `i` has a mark. -/
def Marked (m : Marking) (i : Nat) : Prop :=
  m.marks[i]? = some true

theorem visit_width (m : Marking) (i : Nat) : (m.visit i).marks.length = m.marks.length := by
  rw [visit]
  split
  · exact List.length_set
  · rfl

theorem visit_all_width (m : Marking) (functions : List Nat) :
    (m.visitAll functions).marks.length = m.marks.length := by
  induction functions generalizing m with
  | nil => rfl
  | cons i rest ih => rw [visitAll, List.foldl_cons, ← visitAll, ih, visit_width]

theorem visit_marked (m : Marking) (i j : Nat) :
    (m.visit i).Marked j ↔ m.Marked j ∨ (j = i ∧ i < m.marks.length) := by
  rw [visit]
  split
  · rename_i unmarked
    obtain ⟨inside, _⟩ := List.getElem?_eq_some_iff.1 unmarked
    by_cases same : j = i
    · subst j
      simp [Marked, inside]
    · simp [Marked, List.getElem?_set_ne (Ne.symm same), same]
  · rename_i kept
    refine ⟨Or.inl, ?_⟩
    rintro (marked | ⟨rfl, inside⟩)
    · exact marked
    · have there := List.getElem?_eq_getElem inside
      cases value : m.marks[j] with
      | true => rwa [value] at there
      | false =>
        rw [value] at there
        exact absurd there kept

/-- Visits mark what they visit and take no mark away. -/
theorem visit_all_marked (m : Marking) (functions : List Nat) (j : Nat) :
    (m.visitAll functions).Marked j ↔
      m.Marked j ∨ (j ∈ functions ∧ j < m.marks.length) := by
  induction functions generalizing m with
  | nil => simp [visitAll]
  | cons i rest ih =>
    rw [visitAll, List.foldl_cons, ← visitAll, ih, visit_marked, visit_width, List.mem_cons]
    grind

theorem visit_pending (m : Marking) (i j : Nat) :
    j ∈ (m.visit i).pending ↔ j ∈ m.pending ∨ ((m.visit i).Marked j ∧ ¬ m.Marked j) := by
  rw [visit_marked, visit]
  split
  · rename_i unmarked
    have inside := (List.getElem?_eq_some_iff.1 unmarked).1
    have fresh : ¬ m.Marked i := by simp [Marked, unmarked]
    rw [List.mem_cons]
    grind
  · rename_i kept
    have known : i < m.marks.length → m.Marked i := by
      intro inside
      have visited := (visit_marked m i i).2 (Or.inr ⟨rfl, inside⟩)
      rwa [visit, if_neg kept] at visited
    grind

/-- A function waits after the visits when it waited before or has just got its mark. -/
theorem visit_all_pending (m : Marking) (functions : List Nat) (j : Nat) :
    j ∈ (m.visitAll functions).pending ↔
      j ∈ m.pending ∨ ((m.visitAll functions).Marked j ∧ ¬ m.Marked j) := by
  induction functions generalizing m with
  | nil => simp [visitAll]
  | cons i rest ih =>
    have kept : m.Marked j → (m.visit i).Marked j := fun marked => (visit_marked m i j).2 (.inl marked)
    have keptAfter : (m.visit i).Marked j → ((m.visit i).visitAll rest).Marked j :=
      fun marked => (visit_all_marked _ rest j).2 (.inl marked)
    rw [visitAll, List.foldl_cons, ← visitAll, ih, visit_pending]
    tauto

/-- Visits to functions that have their marks change nothing. -/
theorem visit_all_known (m : Marking) (functions : List Nat)
    (known : ∀ i ∈ functions, m.Marked i) : m.visitAll functions = m := by
  induction functions with
  | nil => rfl
  | cons i rest ih =>
    have marked : m.marks[i]? = some true := known i List.mem_cons_self
    have here : m.visit i = m := by
      rw [visit, marked]
      rfl
    rw [visitAll, List.foldl_cons, here]
    exact ih fun j member => known j (List.mem_cons_of_mem i member)

end Marking

/-- What holds of the marks while functions wait: those that wait are marked, and those
that do not wait any more have their dependents marked. -/
structure Pursued (g : CallGraph) (m : Marking) : Prop where
  waiting : ∀ i ∈ m.pending, m.Marked i
  settled : ∀ i, m.Marked i → i ∉ m.pending →
    ∀ j ∈ g.dependents i, j < m.marks.length → m.Marked j

/-- Looking at the callers of one function keeps this up. -/
theorem pursued_step {m : Marking} {rest : List Nat} (pursued : g.Pursued m) (next : m.pending = i :: rest) :
    g.Pursued (Marking.visitAll ⟨m.marks, rest⟩ (g.dependents i)) where
  waiting := by
    intro k waits
    rcases (Marking.visit_all_pending _ _ k).1 waits with before | ⟨marked, _⟩
    · have marked := pursued.waiting k (by rw [next]; exact List.mem_cons_of_mem i before)
      exact (Marking.visit_all_marked _ _ k).2 (.inl marked)
    · exact marked
  settled := by
    intro k marked done j depends inside
    rw [Marking.visit_all_pending] at done
    rw [Marking.visit_all_width] at inside
    rw [Marking.visit_all_marked]
    by_cases same : k = i
    · subst k
      exact .inr ⟨depends, inside⟩
    · have before : m.Marked k := by
        by_contra fresh
        exact done (.inr ⟨marked, fresh⟩)
      have off : k ∉ m.pending := by
        rw [next, List.mem_cons]
        rintro (same' | waits)
        · exact same same'
        · exact done (.inl waits)
      exact .inl (pursued.settled k before off j depends inside)

theorem spread_width (g : CallGraph) (m : Marking) : (g.spread m).length = m.marks.length := by
  fun_induction spread g m with
  | case1 m done => rfl
  | case2 m i rest next ih => rw [ih, Marking.visit_all_width]

theorem spread_keeps (g : CallGraph) (m : Marking) (j : Nat) (marked : m.Marked j) :
    (g.spread m)[j]? = some true := by
  fun_induction spread g m with
  | case1 m done => exact marked
  | case2 m i rest next ih => exact ih ((Marking.visit_all_marked _ _ j).2 (.inl marked))

/-- When nothing waits any more, the dependents of whatever is marked are marked. -/
theorem spread_closed (g : CallGraph) (m : Marking) (pursued : g.Pursued m) (i j : Nat)
    (marked : (g.spread m)[i]? = some true) (depends : j ∈ g.dependents i)
    (inside : j < m.marks.length) : (g.spread m)[j]? = some true := by
  fun_induction spread g m with
  | case1 m done => exact pursued.settled i marked (by simp [done]) j depends inside
  | case2 m k rest next ih =>
    exact ih (pursued_step pursued next) marked (by rwa [Marking.visit_all_width])

/-- Nothing is marked that a set closed under dependents would not have to hold. -/
theorem spread_within (g : CallGraph) (m : Marking) (allowed : Nat → Prop)
    (pursued : g.Pursued m) (given : ∀ i, m.Marked i → allowed i)
    (closed : ∀ i, allowed i → ∀ j ∈ g.dependents i, j < m.marks.length → allowed j) (i : Nat)
    (marked : (g.spread m)[i]? = some true) : allowed i := by
  fun_induction spread g m with
  | case1 m done => exact given i marked
  | case2 m k rest next ih =>
    have waits : m.Marked k := pursued.waiting k (by rw [next]; exact List.mem_cons_self)
    refine ih (pursued_step pursued next) ?_ (by rwa [Marking.visit_all_width]) marked
    intro j visited
    rcases (Marking.visit_all_marked _ _ j).1 visited with before | ⟨depends, inside⟩
    · exact given j before
    · exact closed k (given k waits) j depends inside

/-! ## The marks by position -/

theorem mem_seeds : i ∈ g.seeds ↔ ∃ f, g.nodes[i]? = some f ∧ f.isSeed = true := by
  rw [seeds, List.mem_filter, Position.mem_range, Option.any_eq_true]
  constructor
  · rintro ⟨_, seed⟩
    exact seed
  · rintro ⟨f, there, seed⟩
    exact ⟨⟨Nat.zero_le i, (List.getElem?_eq_some_iff.1 there).1⟩, f, there, seed⟩

theorem mem_dependents : j ∈ g.dependents i ↔ ∃ f, g.nodes[i]? = some f ∧ f.isEntry = false ∧ j ∈ f.callers := by
  rw [dependents]
  cases there : g.nodes[i]? with
  | none => simp
  | some f =>
    cases entry : f.isEntry with
    | true => simp [entry]
    | false => simp [entry]

theorem unmarked_width (g : CallGraph) : g.unmarked.length = g.nodes.length := by
  rw [unmarked, List.length_map]

theorem unmarked_none (g : CallGraph) (i : Nat) : ¬ (⟨g.unmarked, []⟩ : Marking).Marked i := by
  rw [Marking.Marked, unmarked, List.getElem?_map]
  cases g.nodes[i]? <;> simp

/-- Before the marks are spread, the seeds are marked and all of them wait. -/
theorem pursued_seeds (g : CallGraph) : g.Pursued (Marking.visitAll ⟨g.unmarked, []⟩ g.seeds) where
  waiting := by
    intro i waits
    rcases (Marking.visit_all_pending _ _ i).1 waits with before | ⟨marked, _⟩
    · cases before
    · exact marked
  settled := by
    intro i marked done
    rw [Marking.visit_all_pending] at done
    exact absurd (.inr ⟨marked, g.unmarked_none i⟩) done

theorem marks_width (g : CallGraph) : g.marks.length = g.nodes.length := by
  rw [marks, markFrom, spread_width, Marking.visit_all_width, unmarked_width]

theorem marks_seed (g : CallGraph) (seed : i ∈ g.seeds) : g.marks[i]? = some true := by
  obtain ⟨f, there, _⟩ := mem_seeds.1 seed
  have inside := (List.getElem?_eq_some_iff.1 there).1
  refine spread_keeps g _ i ((Marking.visit_all_marked _ _ i).2 (.inr ⟨seed, ?_⟩))
  rwa [unmarked_width]

theorem marks_closed (g : CallGraph) (marked : g.marks[i]? = some true) (depends : j ∈ g.dependents i)
    (inside : j < g.nodes.length) : g.marks[j]? = some true := by
  refine spread_closed g _ g.pursued_seeds i j marked depends ?_
  rwa [Marking.visit_all_width, unmarked_width]

theorem marks_within (g : CallGraph) (allowed : Nat → Prop) (seeds : ∀ i ∈ g.seeds, allowed i)
    (closed : ∀ i, allowed i → ∀ j ∈ g.dependents i, j < g.nodes.length → allowed j)
    (marked : g.marks[i]? = some true) : allowed i := by
  refine spread_within g _ allowed g.pursued_seeds ?_ ?_ i marked
  · intro k visited
    rcases (Marking.visit_all_marked _ _ k).1 visited with before | ⟨seed, _⟩
    · exact absurd before (g.unmarked_none k)
    · exact seeds k seed
  · rwa [Marking.visit_all_width, unmarked_width]

/-- Spreading the marks once more adds none. -/
theorem mark_from_marks (g : CallGraph) : g.markFrom g.marks = g.marks := by
  have known : ∀ i ∈ g.seeds, (⟨g.marks, []⟩ : Marking).Marked i := fun i seed => g.marks_seed seed
  rw [markFrom, Marking.visit_all_known _ _ known, spread]

end CallGraph

/-! ## Calls in the tokens of a body -/

namespace TokenSeq

variable {ts : TokenSeq} {i start stop : Nat}

/-- The name is called at `i` in the tokens `[start, stop)`: an identifier with this
spelling stands there, the next token that carries meaning opens a parenthesis, and the
one before it is neither `.` nor `->`. -/
structure CallAt (ts : TokenSeq) (start stop : Nat) (name : String) (i : Nat) : Prop where
  lower : start ≤ i
  upper : i < stop
  identifier : ts.kind? i = some .identifier
  spelled : ts.spelling i = name
  opens : ∃ p, i < p ∧ p < stop ∧ ts.kind? p = some .openParen ∧
    ∀ q, i < q → q < p → ts.isSignificant q = false
  free : ∀ p, start ≤ p → p < i → (∀ q, p < q → q < i → ts.isSignificant q = false) →
    ts.kind? p ≠ some .dot ∧ ts.kind? p ≠ some .arrow

private theorem opens_iff :
    (ts.nextSignificant (i + 1) stop).any (ts.hasKind · .openParen) = true ↔
      ∃ p, i < p ∧ p < stop ∧ ts.kind? p = some .openParen ∧
        ∀ q, i < q → q < p → ts.isSignificant q = false := by
  rw [Option.any_eq_true]
  constructor
  · rintro ⟨p, next, paren⟩
    obtain ⟨lower, upper, _, between⟩ := next_significant_iff.1 next
    exact ⟨p, lower, upper, has_kind_iff.1 paren, fun q above => between q above⟩
  · rintro ⟨p, lower, upper, paren, between⟩
    have carries := significant_of_kind paren rfl
    exact ⟨p, next_significant_iff.2 ⟨lower, upper, carries, fun q above => between q above⟩, has_kind_iff.2 paren⟩

private theorem member_iff :
    ts.isMember i start = true ↔
      ∃ p, start ≤ p ∧ p < i ∧ (ts.kind? p = some .dot ∨ ts.kind? p = some .arrow) ∧
        ∀ q, p < q → q < i → ts.isSignificant q = false := by
  rw [isMember, Option.any_eq_true]
  constructor
  · rintro ⟨p, prev, access⟩
    obtain ⟨lower, upper, _, between⟩ := prev_significant_iff.1 prev
    obtain ⟨kind, seen, isAccess⟩ := kind_is_iff.1 access
    refine ⟨p, lower, upper, ?_, between⟩
    rw [seen]
    simpa [TokenKind.isMemberAccess] using isAccess
  · rintro ⟨p, lower, upper, access, between⟩
    have known : ∃ kind, ts.kind? p = some kind ∧ kind.isMemberAccess = true ∧
        kind.isTrivia = false := by
      rcases access with seen | seen
      · exact ⟨_, seen, rfl, rfl⟩
      · exact ⟨_, seen, rfl, rfl⟩
    obtain ⟨kind, seen, isAccess, meaning⟩ := known
    have carries := significant_of_kind seen meaning
    exact ⟨p, prev_significant_iff.2 ⟨lower, upper, carries, between⟩, kind_is_iff.2 ⟨kind, seen, isAccess⟩⟩

/-- The names that are read off a body are those that its tokens call. -/
theorem mem_called_names {name : String} : name ∈ ts.calledNames start stop ↔ ∃ i, ts.CallAt start stop name i := by
  simp only [calledNames, List.mem_map, List.mem_filter, Position.mem_range, isCall,
    Bool.and_eq_true, Bool.not_eq_true', has_kind_iff, opens_iff]
  constructor
  · rintro ⟨i, ⟨⟨lower, upper⟩, ⟨identifier, opens⟩, free⟩, spelled⟩
    refine ⟨i, lower, upper, identifier, spelled, opens, ?_⟩
    intro p above below between
    have absent := Bool.eq_false_iff.1 free
    exact ⟨fun dot => absent (member_iff.2 ⟨p, above, below, .inl dot, between⟩),
      fun arrow => absent (member_iff.2 ⟨p, above, below, .inr arrow, between⟩)⟩
  · rintro ⟨i, call⟩
    refine ⟨i, ⟨⟨call.lower, call.upper⟩, ⟨call.identifier, call.opens⟩, ?_⟩, call.spelled⟩
    rw [Bool.eq_false_iff, ne_eq, member_iff]
    rintro ⟨p, above, below, access, between⟩
    have free := call.free p above below between
    exact access.elim free.1 free.2

/-! ## The functions of the graph -/

theorem add_function_names {entryPoint : String} {found : List Function} (distinct : (found.map Function.name).Nodup)
    (item : Item) : ((ts.addFunction entryPoint found item).map Function.name).Nodup := by
  rw [addFunction]
  split
  · rename_i f _
    split
    · exact distinct
    · rename_i fresh
      rw [List.map_append, List.nodup_append]
      refine ⟨distinct, by simp, ?_⟩
      intro name known other new same
      simp only [List.map_cons, List.map_nil, List.mem_singleton] at new
      subst new same
      obtain ⟨g, member, named⟩ := List.mem_map.1 known
      exact fresh (List.any_eq_true.2 ⟨g, member, by simp [named]⟩)
  · exact distinct

/-- No two functions of the graph have the same name. -/
theorem functions_of_names (ts : TokenSeq) (entryPoint : String) (items : List Item) :
    ((ts.functionsOf entryPoint items).map Function.name).Nodup := by
  have kept : ∀ (defined : List Item) (found : List Function), (found.map Function.name).Nodup →
      ((defined.foldl (ts.addFunction entryPoint) found).map Function.name).Nodup := by
    intro defined
    induction defined with
    | nil => exact fun found distinct => distinct
    | cons item rest ih => exact fun found distinct => ih _ (add_function_names distinct item)
  exact kept _ [] List.nodup_nil

end TokenSeq

namespace CallGraph

section Build

variable (ts : TokenSeq) (items : List Item) (sites : List Site) (entryPoint : String)

theorem build_functions :
    (build ts items sites entryPoint).nodes.map FunctionNode.toFunction =
      ts.functionsOf entryPoint items := by
  rw [build, List.map_map]
  exact List.map_id _

end Build

theorem mem_callers_of {calls : List (String × List String)} {name : String} {j : Nat} :
    j ∈ callersOf calls name ↔
      ∃ caller called, calls[j]? = some (caller, called) ∧ caller ≠ name ∧ name ∈ called := by
  simp only [callersOf, List.mem_filterMap, List.mem_zipIdx_iff_getElem?, Prod.exists]
  constructor
  · rintro ⟨caller, called, position, there, chosen⟩
    split at chosen
    · rename_i calls
      cases chosen
      simp only [Bool.and_eq_true, bne_iff_ne, List.contains_iff_mem] at calls
      exact ⟨caller, called, there, calls⟩
    · cases chosen
  · rintro ⟨caller, called, there, other, calls⟩
    exact ⟨caller, called, j, there, by simp [other, calls]⟩

end CallGraph

/-- Some token in the body of the caller calls the other function by its name. -/
def Function.Calls (ts : TokenSeq) (caller called : Function) : Prop :=
  ∃ i, ts.CallAt caller.body caller.stop called.name i

/-- A function in which marking starts: it returns nothing or a pointer, and an unsafe
site lies in its body, one that can be guarded if it is the entry point. -/
def Function.IsSeed (sites : List Site) (f : Function) : Prop :=
  (f.returnsVoid = true ∨ f.returnsPointer = true) ∧
    ∃ site ∈ sites, f.body ≤ site.call ∧ site.call < f.stop ∧ site.isUnsafe = true ∧
      (f.isEntry = true → site.isGuardable = true)

/-- A set of functions that holds the seeds and, with each of its functions that is not
the entry point, all other functions that call it. -/
structure MarkClosed (ts : TokenSeq) (sites : List Site) (functions : List Function)
    (marked : Set Function) : Prop where
  graph : ∀ f ∈ marked, f ∈ functions
  seeds : ∀ f ∈ functions, f.IsSeed sites → f ∈ marked
  callers : ∀ f ∈ marked, f.isEntry = false →
    ∀ g ∈ functions, g ≠ f → Function.Calls ts g f → g ∈ marked

namespace CallGraph

section Build

variable {ts : TokenSeq} {items : List Item} {sites : List Site} {entryPoint : String}

theorem counted_iff (f : Function) :
    sites.any (countsFor f) = true ↔ ∃ site ∈ sites, f.body ≤ site.call ∧ site.call < f.stop ∧
      site.isUnsafe = true ∧ (f.isEntry = true → site.isGuardable = true) := by
  simp only [countsFor, Function.holds, Bool.and_eq_true, Bool.or_eq_true, List.any_eq_true,
    decide_eq_true_eq, Bool.not_eq_true', and_assoc]
  refine exists_congr fun site => ?_
  cases f.isEntry <;> simp

theorem build_seed {i : Nat} :
    i ∈ (build ts items sites entryPoint).seeds ↔
      ∃ f, (ts.functionsOf entryPoint items)[i]? = some f ∧ f.IsSeed sites := by
  have seed_iff (f : Function) : (sites.any (countsFor f) && (f.returnsVoid || f.returnsPointer)) = true ↔
      f.IsSeed sites := by
    rw [Bool.and_eq_true, counted_iff, Bool.or_eq_true, and_comm, Function.IsSeed]
  rw [mem_seeds]
  simp only [build, List.getElem?_map, Option.map_eq_some_iff]
  constructor
  · rintro ⟨node, ⟨f, there, rfl⟩, seed⟩
    exact ⟨f, there, (seed_iff f).1 seed⟩
  · rintro ⟨f, there, seed⟩
    exact ⟨_, ⟨f, there, rfl⟩, (seed_iff f).2 seed⟩

/-- The edges of the graph are the calls that the bodies hold. -/
theorem build_dependents {i j : Nat} :
    j ∈ (build ts items sites entryPoint).dependents i ↔
      ∃ f g, (ts.functionsOf entryPoint items)[i]? = some f ∧ f.isEntry = false ∧
        (ts.functionsOf entryPoint items)[j]? = some g ∧ g ≠ f ∧ Function.Calls ts g f := by
  have distinct := ts.functions_of_names entryPoint items
  rw [mem_dependents]
  simp only [build, List.getElem?_map, Option.map_eq_some_iff, Function.Calls, ← TokenSeq.mem_called_names]
  constructor
  · rintro ⟨node, ⟨f, there, rfl⟩, notEntry, calls⟩
    obtain ⟨caller, called, entry, other, member⟩ := mem_callers_of.1 calls
    rw [List.getElem?_map, Option.map_eq_some_iff] at entry
    obtain ⟨g, thereG, same⟩ := entry
    cases same
    exact ⟨f, g, there, notEntry, thereG, fun equal => other (by rw [equal]), member⟩
  · rintro ⟨f, g, there, notEntry, thereG, other, member⟩
    refine ⟨_, ⟨f, there, rfl⟩, notEntry, mem_callers_of.2 ⟨g.name, _, ?_, ?_, member⟩⟩
    · rw [List.getElem?_map, thereG]
      rfl
    · -- functions of the same name would be the same function
      intro same
      exact other (List.inj_on_of_nodup_map distinct (List.mem_of_getElem? thereG)
        (List.mem_of_getElem? there) same)

end Build

/-- The functions with a mark, and where they stand. -/
theorem mem_marked {g : CallGraph} {f : Function} :
    f ∈ (g.marked g.marks).map FunctionNode.toFunction ↔
      ∃ i : Nat, (g.nodes.map FunctionNode.toFunction)[i]? = some f ∧ g.marks[i]? = some true := by
  have paired (node : FunctionNode) (mark : Bool) : (node, mark) ∈ g.nodes.zip g.marks ↔
      ∃ i : Nat, g.nodes[i]? = some node ∧ g.marks[i]? = some mark := by
    rw [List.mem_iff_getElem?]
    exact exists_congr fun i => List.getElem?_zip_eq_some
  simp only [marked, List.map_map, List.mem_map, List.mem_filter, List.getElem?_map, Option.map_eq_some_iff]
  constructor
  · rintro ⟨⟨node, mark⟩, ⟨member, rfl⟩, rfl⟩
    obtain ⟨i, there, marked⟩ := (paired node true).1 member
    exact ⟨i, ⟨node, there, rfl⟩, marked⟩
  · rintro ⟨i, ⟨node, there, rfl⟩, marked⟩
    exact ⟨(node, true), ⟨(paired node true).2 ⟨i, there, marked⟩, rfl⟩, rfl⟩

/-- There are as many functions with a mark as there are marks. -/
theorem marked_length (g : CallGraph) : (g.marked g.marks).length = g.marks.count true := by
  have seconds : (g.nodes.zip g.marks).map Prod.snd = g.marks := List.map_snd_zip (Nat.le_of_eq g.marks_width)
  calc (g.marked g.marks).length
      = ((g.nodes.zip g.marks).map Prod.snd).countP (· == true) := by
        rw [marked, List.length_map, ← List.countP_eq_length_filter, List.countP_map]
        exact List.countP_congr fun pair _ => by simp
    _ = g.marks.count true := by rw [seconds, List.count]

/-- The marked functions keep the order of the text. -/
theorem marked_sublist (g : CallGraph) : (g.marked g.marks).Sublist g.nodes := by
  have firsts : (g.nodes.zip g.marks).map Prod.fst = g.nodes := List.map_fst_zip (Nat.le_of_eq g.marks_width.symm)
  conv_rhs => rw [← firsts]
  exact List.Sublist.map _ List.filter_sublist

theorem marked_nodup {g : CallGraph} (distinct : (g.nodes.map FunctionNode.toFunction).Nodup) :
    ((g.marked g.marks).map FunctionNode.toFunction).Nodup :=
  distinct.sublist (g.marked_sublist.map _)

/-- The marked functions are the least set closed under the rules of marking among the functions that
are defined in the text, the number of marks is the size of that set, and marking again changes
nothing. -/
theorem marked_functions_least (ts : TokenSeq) (items : List Item) (sites : List Site)
    (entryPoint : String) :
    let g := build ts items sites entryPoint
    let functions := ts.functionsOf entryPoint items
    let marked : Set Function := {f | f ∈ (g.marked g.marks).map FunctionNode.toFunction}
    g.nodes.map FunctionNode.toFunction = functions ∧ IsLeast {s | MarkClosed ts sites functions s} marked ∧
      g.marks.count true = marked.ncard ∧
      g.markFrom g.marks = g.marks ∧ (g.markFrom g.marks).count true = g.marks.count true := by
  intro g functions marked
  have listed : g.nodes.map FunctionNode.toFunction = functions := build_functions ts items sites entryPoint
  have position {f : Function} : f ∈ marked ↔
      ∃ i : Nat, functions[i]? = some f ∧ g.marks[i]? = some true := by
    rw [← listed]
    exact mem_marked
  have same {i : Nat} {f f' : Function} (one : functions[i]? = some f)
      (two : functions[i]? = some f') : f = f' := Option.some.inj (one.symm.trans two)
  have names : (functions.map Function.name).Nodup := ts.functions_of_names entryPoint items
  refine ⟨listed, ⟨?_, ?_⟩, ?_, g.mark_from_marks, by rw [g.mark_from_marks]⟩
  · refine ⟨?_, ?_, ?_⟩
    · intro f member
      obtain ⟨i, there, _⟩ := position.1 member
      exact List.mem_of_getElem? there
    · intro f member seed
      obtain ⟨i, there⟩ := List.mem_iff_getElem?.1 member
      have isSeed : i ∈ g.seeds := build_seed.2 ⟨f, there, seed⟩
      exact position.2 ⟨i, there, g.marks_seed isSeed⟩
    · intro f member notEntry caller known other calls
      obtain ⟨i, there, marked⟩ := position.1 member
      obtain ⟨j, thereCaller⟩ := List.mem_iff_getElem?.1 known
      have depends : j ∈ g.dependents i := build_dependents.2 ⟨f, caller, there, notEntry, thereCaller, other, calls⟩
      have inside : j < g.nodes.length := by
        rw [← List.length_map FunctionNode.toFunction, listed]
        exact (List.getElem?_eq_some_iff.1 thereCaller).1
      exact position.2 ⟨j, thereCaller, g.marks_closed marked depends inside⟩
  · intro closed isClosed f member
    obtain ⟨i, there, mark⟩ := position.1 member
    have allowed : ∀ f, functions[i]? = some f → f ∈ closed := by
      refine g.marks_within (fun i => ∀ f, functions[i]? = some f → f ∈ closed) ?_ ?_ mark
      · intro i isSeed f there
        obtain ⟨f', there', seed⟩ := build_seed.1 isSeed
        cases same there (there')
        exact isClosed.seeds f (List.mem_of_getElem? there) seed
      · intro i held j depends _ caller thereCaller
        obtain ⟨f', caller', there', notEntry, thereCaller', other, calls⟩ := build_dependents.1 depends
        cases same thereCaller (thereCaller')
        exact isClosed.callers f' (held f' (there')) notEntry caller
          (List.mem_of_getElem? thereCaller) other calls
    exact allowed f there
  · have distinct := marked_nodup (g := g) (listed ▸ List.Nodup.of_map _ names)
    have asFinset : marked = ↑((g.marked g.marks).map FunctionNode.toFunction).toFinset := by
      ext f
      simp [marked]
    rw [asFinset, Set.ncard_coe_finset, List.toFinset_card_of_nodup distinct, List.length_map, marked_length]

end CallGraph

end AllocGuard
