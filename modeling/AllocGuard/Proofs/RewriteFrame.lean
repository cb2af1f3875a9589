import AllocGuard.Proofs.EditRanges
import AllocGuard.Proofs.MarkPropagation
import AllocGuard.Proofs.SourcePartition

/-! What hardening leaves alone. Every edit belongs to a function that is rewritten and
stays inside it, the ranges of functions stand apart, and edits that are taken follow
each other. So the text between those functions is copied as it is, and so is the
header of a function that goes on returning as before. -/
namespace AllocGuard

/-! ## Edits that are taken -/

namespace Edit

/-- The edits stand one behind the other, from `cursor` on, in a sequence of this size. -/
def Follow (size cursor : Nat) : List Edit → Prop
  | [] => True
  | e :: rest => cursor ≤ e.start ∧ e.start ≤ e.stop ∧ e.stop ≤ size ∧ Follow size e.stop rest

theorem select_follow (size cursor : Nat) (edits : List Edit) : Follow size cursor (select size cursor edits) := by
  induction edits generalizing cursor with
  | nil => trivial
  | cons e rest ih =>
    rw [select]
    split
    · rename_i fit
      simp only [fits, Bool.and_eq_true, decide_eq_true_eq] at fit
      exact ⟨fit.1.1, fit.1.2, fit.2, ih e.stop⟩
    · exact ih cursor

theorem select_sublist (size cursor : Nat) (edits : List Edit) : (select size cursor edits).Sublist edits := by
  induction edits generalizing cursor with
  | nil => exact List.Sublist.refl []
  | cons e rest ih =>
    rw [select]
    split
    · exact (ih e.stop).cons_cons e
    · exact (ih cursor).cons e

theorem follow_bounds {size cursor : Nat} {edits : List Edit} (follow : Follow size cursor edits)
    {e : Edit} (member : e ∈ edits) : cursor ≤ e.start ∧ e.start ≤ e.stop := by
  induction edits generalizing cursor with
  | nil => cases member
  | cons first rest ih =>
    obtain ⟨lower, ordered, _, later⟩ := follow
    rcases List.mem_cons.1 member with rfl | behind
    · exact ⟨lower, ordered⟩
    · have bounds := ih later behind
      exact ⟨by omega, bounds.2⟩

/-- What follows a position also follows any other that no edit starts before. -/
theorem follow_from {size cursor cursor' : Nat} {edits : List Edit} (follow : Follow size cursor edits)
    (above : ∀ e ∈ edits, cursor' ≤ e.start) : Follow size cursor' edits := by
  cases edits with
  | nil => trivial
  | cons e rest => exact ⟨above e List.mem_cons_self, follow.2⟩

end Edit

namespace TokenSeq

variable {ts : TokenSeq} {cursor stop : Nat} {edits : List Edit}

/-- The text in front of all edits is copied. -/
theorem splice_skip {position : Nat} (ordered : cursor ≤ position) (inside : position ≤ ts.size)
    (above : ∀ e ∈ edits, position ≤ e.start) :
    ts.splice cursor edits = ts.textRange cursor position ++ ts.splice position edits := by
  cases edits with
  | nil => exact (ts.text_range_append ordered inside).symm
  | cons e rest =>
    have start := above e List.mem_cons_self
    rw [splice, splice, ← ts.text_range_append ordered start]
    simp only [String.append_assoc]

/-- The text from token `cursor` up to token `stop`, with edits that follow each other put in. -/
def spliceUpTo (ts : TokenSeq) (stop cursor : Nat) : List Edit → String
  | [] => ts.textRange cursor stop
  | e :: rest => ts.textRange cursor e.start ++ e.text ++ ts.spliceUpTo stop e.stop rest

theorem splice_at (ts : TokenSeq) (cursor : Nat) (earlier : List Edit) (e : Edit) (later : List Edit) :
    ts.splice cursor (earlier ++ e :: later) =
      ts.spliceUpTo e.start cursor earlier ++ e.text ++ ts.splice e.stop later := by
  induction earlier generalizing cursor with
  | nil => rfl
  | cons first earlier ih =>
    rw [List.cons_append, splice, ih, spliceUpTo]
    simp only [String.append_assoc]

/-- The text in front of a position that the edits do not reach is copied up to it. -/
theorem splice_up_to_append {middle : Nat} (ordered : cursor ≤ middle) (upper : middle ≤ stop)
    (before : ∀ e ∈ edits, e.stop ≤ middle) :
    ts.spliceUpTo stop cursor edits = ts.spliceUpTo middle cursor edits ++ ts.textRange middle stop := by
  induction edits generalizing cursor with
  | nil => exact (ts.text_range_append ordered upper).symm
  | cons e rest ih =>
    obtain ⟨here, later⟩ := List.forall_mem_cons.1 before
    rw [spliceUpTo, spliceUpTo, ih here later]
    simp only [String.append_assoc]

/-- Edits that do not reach across a position are those in front of it and those behind,
and the text behind depends on the latter alone. -/
theorem splice_cut (follow : Edit.Follow ts.size cursor edits) (ordered : cursor ≤ stop) (inside : stop ≤ ts.size)
    (across : ∀ e ∈ edits, e.stop ≤ stop ∨ stop ≤ e.start) :
    ∃ chunk outer, ts.splice cursor edits = chunk ++ ts.splice stop outer ∧
      outer.Sublist edits ∧ Edit.Follow ts.size stop outer ∧ ∀ e ∈ outer, stop < e.stop := by
  induction edits generalizing cursor with
  | nil =>
    exact ⟨ts.textRange cursor stop, [], splice_skip ordered inside (by simp), List.Sublist.refl [], trivial, by simp⟩
  | cons e rest ih =>
    have later := follow.2.2.2
    by_cases before : e.stop ≤ stop
    · obtain ⟨chunk, outer, split, part, follow', beyond⟩ :=
        ih later before (fun e member => across e (List.mem_cons_of_mem _ member))
      refine ⟨ts.textRange cursor e.start ++ e.text ++ chunk, outer, ?_, part.cons e, follow', beyond⟩
      rw [splice, split]
      simp only [String.append_assoc]
    · have behind : ∀ e' ∈ e :: rest, stop ≤ e'.start ∧ stop < e'.stop := by
        intro e' member
        have start := (across e List.mem_cons_self).resolve_left before
        rcases List.mem_cons.1 member with rfl | member
        · exact ⟨start, by omega⟩
        · have bounds := Edit.follow_bounds later member
          exact ⟨by omega, by omega⟩
      exact ⟨ts.textRange cursor stop, e :: rest,
        splice_skip ordered inside (fun e member => (behind e member).1), List.Sublist.refl _,
        Edit.follow_from follow (fun e member => (behind e member).1), fun e member => (behind e member).2⟩

/-! ## The frame -/

/-- Two texts that differ in the chunks of some functions only: in front of the first
function, between two of them, and behind the last one, both read as the sequence does
from `cursor` on. Where the way of returning stays, the chunk starts with the header and
the brace of the first text. -/
inductive Reframed (ts : TokenSeq) :
    Nat → List (FunctionNode × ReturnShape) → String → String → Prop where
  | rest {cursor : Nat} :
      Reframed ts cursor [] (ts.textRange cursor ts.size) (ts.textRange cursor ts.size)
  | chunk {cursor : Nat} {f : FunctionNode} {shape : ReturnShape}
      {functions : List (FunctionNode × ReturnShape)} {before after : String} (chunk : String)
      (ordered : cursor ≤ f.start ∧ f.start ≤ f.body ∧ f.body < f.stop ∧ f.stop ≤ ts.size)
      (keeps : ∀ isVoid, shape = .unchanged isVoid →
        ∃ inner, chunk = ts.textRange f.start (f.body + 1) ++ inner)
      (behind : Reframed ts f.stop functions before after) :
      Reframed ts cursor ((f, shape) :: functions)
        (ts.textRange cursor f.start ++ ts.textRange f.start f.stop ++ before)
        (ts.textRange cursor f.start ++ chunk ++ after)

/-- An edit that a function brings about: it stays in the function, and behind the brace
of its body where the way of returning stays. -/
structure Owned (f : FunctionNode) (shape : ReturnShape) (e : Edit) : Prop where
  within : e.Within f.start f.stop
  keeps : ∀ isVoid, shape = .unchanged isVoid → f.body + 1 ≤ e.start

/-- The chunk of the first function ends where the function does, and the text behind it
is made by the edits that reach beyond the function. -/
theorem splice_function {f : FunctionNode} {shape : ReturnShape} (placed : ts.Placed f.toFunction)
    (above : cursor ≤ f.start) (follow : Edit.Follow ts.size cursor edits)
    (owner : ∀ e ∈ edits, Owned f shape e ∨ f.stop ≤ e.start) :
    ∃ chunk outer, ts.splice cursor edits = ts.textRange cursor f.start ++ chunk ++ ts.splice f.stop outer ∧
      (∀ isVoid, shape = .unchanged isVoid →
        ∃ inner, chunk = ts.textRange f.start (f.body + 1) ++ inner) ∧
      outer.Sublist edits ∧ Edit.Follow ts.size f.stop outer ∧ ∀ e ∈ outer, f.stop < e.stop := by
  have body := placed.start_le
  have stop := placed.body_lt
  have size := placed.stop_le
  have across : ∀ e ∈ edits, e.stop ≤ f.stop ∨ f.stop ≤ e.start := fun e member =>
    (owner e member).imp_left fun mine => mine.within.le_upper
  have beyond : ∀ e ∈ edits, f.start ≤ e.start := by
    intro e member
    rcases owner e member with mine | behind
    · exact mine.within.lower_le
    · omega
  have lead : ts.splice cursor edits = ts.textRange cursor f.start ++ ts.splice f.start edits :=
    splice_skip above (by omega) beyond
  by_cases stays : ∃ isVoid, shape = .unchanged isVoid
  · obtain ⟨isVoid, same⟩ := stays
    have inBody : ∀ e ∈ edits, f.body + 1 ≤ e.start := by
      intro e member
      rcases owner e member with mine | behind
      · exact mine.keeps isVoid same
      · omega
    obtain ⟨inner, outer, split, rest⟩ := splice_cut (Edit.follow_from follow inBody) stop size across
    refine ⟨ts.textRange f.start (f.body + 1) ++ inner, outer, ?_, fun _ _ => ⟨inner, rfl⟩, rest⟩
    rw [lead, splice_skip (show f.start ≤ f.body + 1 by omega) (by omega) inBody, split]
    simp only [String.append_assoc]
  · obtain ⟨chunk, outer, split, rest⟩ :=
      splice_cut (Edit.follow_from follow beyond) (by omega) size across
    refine ⟨chunk, outer, ?_, fun isVoid same => absurd ⟨isVoid, same⟩ stays, rest⟩
    rw [lead, split, String.append_assoc]

/-- Putting in the edits of functions that stand apart changes the chunks of these
functions only. The induction is on the functions: what reaches beyond the first one is
left for the rest. -/
theorem splice_reframed {functions : List (FunctionNode × ReturnShape)}
    (apart : functions.Pairwise fun one two => one.1.stop ≤ two.1.start)
    (placed : ∀ one ∈ functions, ts.Placed one.1.toFunction) (above : ∀ one ∈ functions, cursor ≤ one.1.start)
    (follow : Edit.Follow ts.size cursor edits) (owned : ∀ e ∈ edits, ∃ one ∈ functions, Owned one.1 one.2 e) :
    Reframed ts cursor functions (ts.textRange cursor ts.size) (ts.splice cursor edits) := by
  induction functions generalizing cursor edits with
  | nil =>
    have none : edits = [] := by
      apply List.eq_nil_iff_forall_not_mem.2
      intro e member
      obtain ⟨one, impossible, _⟩ := owned e member
      cases impossible
    rw [none]
    exact .rest
  | cons one rest ih =>
    obtain ⟨f, shape⟩ := one
    obtain ⟨later, apart'⟩ := List.pairwise_cons.1 apart
    have place : ts.Placed f.toFunction := placed (f, shape) List.mem_cons_self
    have start : cursor ≤ f.start := above (f, shape) List.mem_cons_self
    have body := place.start_le
    have stop := place.body_lt
    have size := place.stop_le
    have owner : ∀ e ∈ edits, Owned f shape e ∨ f.stop ≤ e.start := by
      intro e member
      obtain ⟨one, known, mine⟩ := owned e member
      rcases List.mem_cons.1 known with rfl | behind
      · exact .inl mine
      · exact .inr (Nat.le_trans (later one behind) mine.within.lower_le)
    obtain ⟨chunk, outer, split, keeps, part, follow', past⟩ := splice_function place start follow owner
    have owned' : ∀ e ∈ outer, ∃ one ∈ rest, Owned one.1 one.2 e := by
      intro e member
      obtain ⟨one, known, mine⟩ := owned e (part.subset member)
      rcases List.mem_cons.1 known with rfl | behind
      · exact absurd mine.within.le_upper (Nat.not_le.2 (past e member))
      · exact ⟨one, behind, mine⟩
    rw [split, ← ts.text_range_append start (by omega : f.start ≤ ts.size),
      ← ts.text_range_append (by omega : f.start ≤ f.stop) size, ← String.append_assoc]
    refine .chunk chunk ⟨start, body, stop, size⟩ keeps (ih apart' ?_ later follow' owned')
    exact fun one behind => placed one (List.mem_cons_of_mem _ behind)

end TokenSeq

/-! ## Hardening -/

namespace Analysis
open TokenSeq

variable {a : Analysis} {outParam : String} {e : Edit}

theorem reshaped_of_marked (a : Analysis) (outParam : String) :
    reshaped (a.headerChanges outParam) = a.marked.filterMap fun f =>
      (a.ts.reshape f.toFunction outParam).toOption.map fun change => (f, change.1) := by
  rw [reshaped, headerChanges, List.filterMap_map]
  rfl

/-- The functions that are rewritten are the marked ones whose header can be dealt with. -/
theorem mem_reshaped {f : FunctionNode} {shape : ReturnShape} :
    (f, shape) ∈ reshaped (a.headerChanges outParam) ↔
      f ∈ a.marked ∧ ∃ change, a.ts.reshape f.toFunction outParam = .ok (shape, change) := by
  simp only [reshaped_of_marked, List.mem_filterMap, Option.map_eq_some_iff, to_option_some,
    Prod.mk.injEq, Prod.exists]
  constructor
  · rintro ⟨f, marked, shape, change, reshapes, rfl, rfl⟩
    exact ⟨marked, change, reshapes⟩
  · rintro ⟨marked, change, reshapes⟩
    exact ⟨f, marked, shape, change, reshapes, rfl, rfl⟩

theorem header_edit_owned (placed : ∀ f ∈ a.marked, a.ts.Placed f.toFunction)
    (member : e ∈ headerEdits (a.headerChanges outParam)) :
    ∃ one ∈ reshaped (a.headerChanges outParam), Owned one.1 one.2 e := by
  simp only [headerEdits, headerChanges, List.mem_filterMap, List.mem_map, Option.bind_eq_some_iff,
    to_option_some] at member
  obtain ⟨_, ⟨f, marked, rfl⟩, ⟨shape, change⟩, reshapes, rfl⟩ := member
  obtain ⟨within, changes⟩ := reshape_within reshapes
  have stop := (placed f marked).body_lt
  refine ⟨(f, shape), mem_reshaped.2 ⟨marked, some e, reshapes⟩, ?_, ?_⟩
  · exact ⟨within.lower_le, Nat.le_trans within.le_upper (Nat.le_of_lt stop)⟩
  · exact fun isVoid same => absurd same (changes isVoid)

theorem body_edit_owned {settings : Settings} (registry : Registry) {functions : List (FunctionNode × ReturnShape)}
    (placed : ∀ one ∈ functions, a.ts.Placed one.1.toFunction)
    (sites : ∀ one ∈ functions, ∀ site ∈ a.sitesIn one.1.toFunction, site ∈ a.ts.sites registry one.1.body one.1.stop)
    (member : e ∈ (a.bodyChanges settings functions).flatMap (·.2.edits)) :
    ∃ one ∈ functions, Owned one.1 one.2 e := by
  simp only [bodyChanges, List.mem_flatMap, List.mem_map] at member
  obtain ⟨_, ⟨one, known, rfl⟩, edits⟩ := member
  have place := placed one known
  let task : BodyTask :=
    { ts := a.ts, function := one.1.toFunction, shape := one.2
      shapes := functions.map fun one => (one.1.name, one.2)
      failureCode := settings.failureCode, nullIsFailure := settings.nullIsFailure }
  have inside : task.Inside e := BodyTask.run_inside (t := task) place (sites one known) e edits
  have behind : one.1.body + 1 ≤ e.start := inside.lower_le
  have start := place.start_le
  exact ⟨one, known, ⟨by omega, inside.le_upper⟩, fun _ _ => behind⟩

end Analysis

namespace TokenSeq

/-- The marked functions of a source file are some of the functions of its call graph,
in order. -/
theorem analyse_marked (ts : TokenSeq) (settings : Settings) :
    ((ts.analyse settings).marked.map FunctionNode.toFunction).Sublist
      (ts.functionsOf settings.entryPoint ts.outline) := by
  rw [← CallGraph.build_functions ts ts.outline (ts.functionSites settings.registry ts.outline)]
  exact (CallGraph.marked_sublist _).map _

theorem analyse_marked_function {ts : TokenSeq} {settings : Settings} {f : FunctionNode}
    (marked : f ∈ (ts.analyse settings).marked) : f.toFunction ∈ ts.functionsOf settings.entryPoint ts.outline :=
  (ts.analyse_marked settings).subset (List.mem_map_of_mem marked)

/-- The functions that are rewritten stand apart, in order. -/
theorem reshaped_apart (ts : TokenSeq) (settings : Settings) :
    (Analysis.reshaped ((ts.analyse settings).headerChanges settings.outParam)).Pairwise
      fun one two => one.1.stop ≤ two.1.start := by
  have apart := (ts.functions_of_apart settings.entryPoint).sublist (ts.analyse_marked settings)
  rw [Analysis.reshaped_of_marked]
  refine List.Pairwise.filterMap _ ?_ (List.pairwise_map.1 apart)
  intro f g before one fromF two fromG
  obtain ⟨_, _, rfl⟩ := Option.map_eq_some_iff.1 fromF
  obtain ⟨_, _, rfl⟩ := Option.map_eq_some_iff.1 fromG
  exact before

/-- Every edit of the hardening is owned by a function that is rewritten. -/
theorem harden_edit_owned {ts : TokenSeq} {settings : Settings} {e : Edit}
    (member : e ∈ Analysis.headerEdits ((ts.analyse settings).headerChanges settings.outParam) ++
      ((ts.analyse settings).bodyChanges settings
        (Analysis.reshaped ((ts.analyse settings).headerChanges settings.outParam))).flatMap
          (·.2.edits)) :
    ∃ one ∈ Analysis.reshaped ((ts.analyse settings).headerChanges settings.outParam), Owned one.1 one.2 e := by
  have placed : ∀ f ∈ (ts.analyse settings).marked, ts.Placed f.toFunction := fun f marked =>
    functions_of_placed (analyse_marked_function marked)
  rcases List.mem_append.1 member with header | body
  · exact Analysis.header_edit_owned placed header
  · refine Analysis.body_edit_owned settings.registry ?_ ?_ body
    · intro one known
      exact placed one.1 (Analysis.mem_reshaped.1 known).1
    · intro one known site held
      have marked := (Analysis.mem_reshaped.1 known).1
      obtain ⟨found, holds⟩ := List.mem_filter.1 held
      exact function_site (analyse_marked_function marked) found holds

end TokenSeq

/-- Hardening replaces, in order, the chunks of the marked functions whose header can be
dealt with. All other text stays as it is, and so does the header of a function that goes
on returning as before: the entry point, and one that returns a plain `int`. -/
theorem harden_frame (settings : Settings) (source : String) :
    let ts := TokenSeq.ofSource source
    let a := ts.analyse settings
    let rewritten := Analysis.reshaped (a.headerChanges settings.outParam)
    (∀ f shape, (f, shape) ∈ rewritten ↔
      f ∈ a.marked ∧ ∃ change, ts.reshape f.toFunction settings.outParam = .ok (shape, change)) ∧
    (∀ f shape, (f, shape) ∈ rewritten → ((∃ isVoid, shape = .unchanged isVoid) ↔
      f.isEntry = true ∨ f.returnsVoid = false ∧ f.returnsPointer = false ∧
        ∃ h, ts.header f.start f.body = .ok h ∧ Word.isPlainInt h.returnType = true)) ∧
    ts.Reframed 0 rewritten source (harden settings source).text := by
  intro ts a rewritten
  refine ⟨fun f shape => Analysis.mem_reshaped, ?_, ?_⟩
  · intro f shape known
    obtain ⟨_, change, reshapes⟩ := Analysis.mem_reshaped.1 known
    exact TokenSeq.reshape_unchanged_iff reshapes
  · have whole : source = ts.textRange 0 ts.size := (TokenSeq.text_range_of_source source).symm
    have placed : ∀ one ∈ rewritten, ts.Placed one.1.toFunction := fun one known =>
      TokenSeq.functions_of_placed
        (TokenSeq.analyse_marked_function (Analysis.mem_reshaped.1 known).1)
    rw [harden]
    dsimp only
    split
    · have edited := TokenSeq.splice_reframed (ts.reshaped_apart settings) placed
        (fun _ _ => Nat.zero_le _) (Edit.select_follow ts.size 0 (Edit.sorted _))
        (fun e taken => TokenSeq.harden_edit_owned
          (List.mem_mergeSort.1 ((Edit.select_sublist _ _ _).subset taken)))
      rwa [← whole] at edited
    · rename_i unmarked
      have marked : a.marked = [] := by
        apply List.eq_nil_of_length_eq_zero
        have count : a.marked.length = a.marks.count true := a.graph.marked_length
        rw [count, List.count_eq_zero]
        simpa using unmarked
      have none : rewritten = [] := by
        rw [show rewritten = _ from a.reshaped_of_marked settings.outParam, marked]
        rfl
      have text : ts.Reframed 0 [] (ts.textRange 0 ts.size) (ts.textRange 0 ts.size) := .rest
      rwa [← whole, ← none] at text

end AllocGuard
