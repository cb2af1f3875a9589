import Mathlib.Data.List.TakeWhile
import AllocGuard.Proofs.ForwardedResults

/-! Null constants: `NULL` or a literal zero, in groups and behind casts. The test for one takes
every group that something follows for a cast and never looks into it. So it finds every null
constant, whatever the type names are. It also finds a call whose function is a group and whose
arguments are null, such as `(*g)(0)`, and where returning null is a failure, the `return` of such
a call is replaced by one that makes no call. -/
namespace AllocGuard

namespace TokenSeq

variable {ts : TokenSeq} {opening close : Nat} {isType : List Nat → Prop} {positions inner rest behind : List Nat}
  {passed : List (List Nat)}

/-- A group: the parenthesis at `opening`, the positions `inner`, and the parenthesis that
closes it. -/
structure Group (ts : TokenSeq) (opening : Nat) (inner : List Nat) (close : Nat) : Prop where
  opens : ts.kind? opening = some .openParen
  closes : ts.matchingClose opening ts.size = some close
  inside : close ∉ inner

/-- A null constant, where `isType` tells which groups hold the name of a type. -/
inductive NullConstant (ts : TokenSeq) (isType : List Nat → Prop) : List Nat → Prop
  | token {i : Nat} (null : ts.isNullToken i = true) : NullConstant ts isType [i]
  | group {opening close : Nat} {inner : List Nat} (group : ts.Group opening inner close)
      (null : NullConstant ts isType inner) : NullConstant ts isType (opening :: (inner ++ [close]))
  | cast {opening close : Nat} {inner rest : List Nat} (group : ts.Group opening inner close)
      (named : isType inner) (null : NullConstant ts isType rest) :
      NullConstant ts isType (opening :: (inner ++ close :: rest))

/-- `NULL` or a literal zero, in groups and behind the groups that hold `passed`, outermost
first. -/
inductive NullBehind (ts : TokenSeq) : List (List Nat) → List Nat → Prop
  | token {i : Nat} (null : ts.isNullToken i = true) : NullBehind ts [] [i]
  | group {opening close : Nat} {inner : List Nat} {passed : List (List Nat)}
      (group : ts.Group opening inner close) (null : NullBehind ts passed inner) :
      NullBehind ts passed (opening :: (inner ++ [close]))
  | behind {opening close : Nat} {inner rest : List Nat} {passed : List (List Nat)}
      (group : ts.Group opening inner close) (null : NullBehind ts passed rest) :
      NullBehind ts (inner :: passed) (opening :: (inner ++ close :: rest))

theorem NullBehind.ne_nil (null : ts.NullBehind passed positions) : positions ≠ [] := by
  cases null <;> simp

/-! ## What the test answers -/

theorem Group.before_close (group : ts.Group opening inner close) : ∀ i ∈ inner, (i != close) = true := by
  intro i member
  rw [bne_iff_ne]
  rintro rfl
  exact group.inside member

theorem Group.take (group : ts.Group opening inner close) (rest : List Nat) :
    (inner ++ close :: rest).takeWhile (· != close) = inner := by
  rw [List.takeWhile_append_of_pos group.before_close]
  simp

theorem Group.drop (group : ts.Group opening inner close) (rest : List Nat) :
    (inner ++ close :: rest).dropWhile (· != close) = close :: rest := by
  rw [List.dropWhile_append_of_pos group.before_close]
  simp

/-- The first group decides where the test goes on, and nothing in a group that something
follows is looked at. -/
theorem is_null_group (group : ts.Group opening inner close) (rest : List Nat) :
    ts.isNullExpression (opening :: (inner ++ close :: rest)) =
      ts.isNullExpression (if rest = [] then inner else rest) := by
  have taken := group.take rest
  have dropped := group.drop rest
  rw [isNullExpression]
  · rw [if_pos (has_kind_iff.2 group.opens), group.closes]
    dsimp only
    cases rest with
    | nil => split <;> simp_all
    | cons next behind => split <;> simp_all
  · simp

theorem is_null_unopened {first : Nat} (more : rest ≠ []) (other : ts.kind? first ≠ some .openParen) :
    ts.isNullExpression (first :: rest) = false := by
  rw [isNullExpression]
  · exact if_neg (mt has_kind_iff.1 other)
  · exact more

/-- The positions up to the first `close` and those behind it. -/
theorem split_at_close {c : Nat} (after : rest.dropWhile (· != close) = c :: behind) :
    rest = rest.takeWhile (· != close) ++ close :: behind ∧ close ∉ rest.takeWhile (· != close) := by
  have same : c = close := by
    have stops := List.head?_dropWhile_not (· != close) rest
    rw [after] at stops
    simpa using stops
  subst same
  refine ⟨?_, fun member => ?_⟩
  · conv_lhs => rw [← List.takeWhile_append_dropWhile (p := (· != c)) (l := rest), after]
  · simpa using List.mem_takeWhile_imp member

theorem null_behind_of_test (null : ts.isNullExpression positions = true) :
    ∃ passed, ts.NullBehind passed positions := by
  fun_induction isNullExpression ts positions with
  | case1 => cases null
  | case2 only => exact ⟨[], .token null⟩
  | case3 => cases null
  | case4 => cases null
  | case5 first rest _ opens close closes last after ih =>
    obtain ⟨passed, inner⟩ := ih null
    obtain ⟨cut, inside⟩ := split_at_close after
    rw [cut]
    exact ⟨passed, .group ⟨has_kind_iff.1 opens, closes, inside⟩ inner⟩
  | case6 first rest _ opens close closes last next behind after ih =>
    obtain ⟨passed, null⟩ := ih null
    obtain ⟨cut, inside⟩ := split_at_close after
    rw [cut]
    exact ⟨_, .behind ⟨has_kind_iff.1 opens, closes, inside⟩ null⟩
  | case7 => cases null

theorem NullBehind.test (null : ts.NullBehind passed positions) : ts.isNullExpression positions = true := by
  induction null with
  | token null => rwa [isNullExpression]
  | group group _ ih => rwa [is_null_group group, if_pos rfl]
  | behind group null ih => rwa [is_null_group group, if_neg null.ne_nil]

theorem is_null_iff : ts.isNullExpression positions = true ↔ ∃ passed, ts.NullBehind passed positions :=
  ⟨null_behind_of_test, fun ⟨_, null⟩ => null.test⟩

/-! ## Which answers are right -/

theorem Group.unique {last : Nat} {other : List Nat} (group : ts.Group opening inner close)
    (again : ts.Group opening other last) (same : inner ++ close :: rest = other ++ last :: behind) :
    inner = other ∧ rest = behind := by
  have ends : close = last := Option.some.inj (group.closes.symm.trans again.closes)
  subst ends
  have inners : inner = other := by rw [← group.take rest, same, again.take behind]
  have rests : close :: rest = close :: behind := by
    rw [← group.drop rest, same, again.drop behind]
  exact ⟨inners, List.tail_eq_of_cons_eq rests⟩

/-- What stands behind the groups that were passed over is in the first group if nothing follows
it, and behind it otherwise. -/
theorem NullBehind.inv (group : ts.Group opening inner close)
    (null : ts.NullBehind passed (opening :: (inner ++ close :: rest))) :
    (rest = [] ∧ ts.NullBehind passed inner) ∨
      ∃ more, passed = inner :: more ∧ ts.NullBehind more rest := by
  generalize whole : opening :: (inner ++ close :: rest) = positions at null
  cases null with
  | token _ => simp at whole
  | group again null =>
    obtain ⟨rfl, tokens⟩ := List.cons.inj whole
    obtain ⟨rfl, rfl⟩ := group.unique again tokens
    exact .inl ⟨rfl, null⟩
  | behind again null =>
    obtain ⟨rfl, tokens⟩ := List.cons.inj whole
    obtain ⟨rfl, rfl⟩ := group.unique again tokens
    exact .inr ⟨_, rfl, null⟩

theorem NullBehind.passed_unique {other : List (List Nat)} (null : ts.NullBehind passed positions)
    (again : ts.NullBehind other positions) : passed = other := by
  induction null generalizing other with
  | @token i _ =>
    generalize whole : [i] = positions at again
    cases again <;> simp_all
  | group group null ih =>
    rcases again.inv group with ⟨_, again⟩ | ⟨_, _, again⟩
    · exact ih again
    · exact absurd rfl again.ne_nil
  | behind group behind ih =>
    rcases again.inv group with ⟨ends, _⟩ | ⟨more, rfl, null⟩
    · exact absurd ends behind.ne_nil
    · rw [ih null]

theorem null_constant_iff :
    ts.NullConstant isType positions ↔
      ∃ passed, ts.NullBehind passed positions ∧ ∀ inner ∈ passed, isType inner := by
  constructor
  · intro constant
    induction constant with
    | token null => exact ⟨[], .token null, by simp⟩
    | group group _ ih =>
      obtain ⟨passed, null, types⟩ := ih
      exact ⟨passed, .group group null, types⟩
    | cast group named _ ih =>
      obtain ⟨passed, null, types⟩ := ih
      exact ⟨_, .behind group null, List.forall_mem_cons.2 ⟨named, types⟩⟩
  · rintro ⟨passed, null, types⟩
    induction null with
    | token null => exact .token null
    | group group _ ih => exact .group group (ih types)
    | behind group _ ih =>
      obtain ⟨named, types⟩ := List.forall_mem_cons.1 types
      exact .cast group named (ih types)

/-- The answer is right exactly if every group that was passed over holds the name of a type. -/
theorem NullBehind.constant_iff (null : ts.NullBehind passed positions) :
    ts.NullConstant isType positions ↔ ∀ inner ∈ passed, isType inner := by
  rw [null_constant_iff]
  constructor
  · rintro ⟨other, again, types⟩
    rwa [null.passed_unique again]
  · exact fun types => ⟨passed, null, types⟩

end TokenSeq

/-! ## Returns of null -/

namespace BodyTask

/-- The text still has the expression of the tokens `[start, semi)`: as it was, or as a call that
hands the out parameter on. -/
def Keeps (t : BodyTask) (out : String) (start semi : Nat) (text : String) : Prop :=
  (∃ front back, text = front ++ Text.trim (t.ts.textRange start semi) ++ back) ∨
    ∃ opening close, t.HandsOn start opening close semi ∧
      text = "return " ++ t.callWith start opening close out ++ ";"

theorem deliver_null {t : BodyTask} {start semi : Nat} (failing : t.nullIsFailure = true)
    (pointer : t.function.returnsPointer = true) (null : t.ts.isNullExpression (t.ts.significant start semi) = true)
    (sites : List Site) (out : String) : t.deliver sites out start semi = t.failStatement := by
  unfold deliver
  simp [failing, pointer, null]

theorem deliver_keeps {t : BodyTask} {start semi : Nat}
    (other : ¬ t.ts.isNullExpression (t.ts.significant start semi) = true) (sites : List Site)
    (out : String) : t.Keeps out start semi (t.deliver sites out start semi) := by
  have delivery := t.deliver_delivery sites out start semi
  generalize t.deliver sites out start semi = text at delivery
  cases delivery with
  | failure null => exact absurd null other
  | checked allocator =>
    refine .inl ⟨"\x7b *" ++ out ++ " = ",
      "; " ++ t.failIf (allocator.failure.condition ("*" ++ out)) ++ " return 0; \x7d", ?_⟩
    simp [braced, ← String.toList_inj]
  | handedOn call => exact .inr ⟨_, _, call, rfl⟩
  | stored _ =>
    refine .inl ⟨"\x7b *" ++ out ++ " = ", "; return 0; \x7d", ?_⟩
    simp [braced, ← String.toList_inj]

/-- The test for null is true exactly of `NULL` or a literal zero in groups and behind any groups
at all. It misses no null constant, and it is right exactly if every group that was passed over
holds the name of a type. So a call whose function is a group is taken for what its arguments are,
while a call whose function is a name is never taken for null. Where returning null is a failure,
the edit of a `return` drops its expression exactly if the test is true of it. -/
theorem null_returns_dropped (t : BodyTask) (type out : String) (isType : List Nat → Prop)
    (shape : t.shape = .outParam type out) (failing : t.nullIsFailure = true)
    (pointer : t.function.returnsPointer = true) :
    (∀ positions, (t.ts.isNullExpression positions = true ↔ ∃ passed, t.ts.NullBehind passed positions) ∧
      (t.ts.NullConstant isType positions → t.ts.isNullExpression positions = true) ∧
      ∀ passed, t.ts.NullBehind passed positions →
        (t.ts.NullConstant isType positions ↔ ∀ inner ∈ passed, isType inner)) ∧
    (∀ opening inner close arguments, t.ts.Group opening inner close → arguments ≠ [] →
      t.ts.isNullExpression (opening :: (inner ++ close :: arguments)) =
        t.ts.isNullExpression arguments) ∧
    (∀ callee arguments, t.ts.kind? callee = some .identifier → arguments ≠ [] →
      t.ts.isNullExpression (callee :: arguments) = false) ∧
    ∀ sites, ∀ e ∈ t.returns sites, ∃ start semi, e.stop = semi + 1 ∧
      t.ts.nextSignificant (e.start + 1) semi = some start ∧
      (∀ passed, t.ts.NullBehind passed (t.ts.significant start semi) → e.text = t.failStatement) ∧
      ((∀ passed, ¬ t.ts.NullBehind passed (t.ts.significant start semi)) →
        t.Keeps out start semi e.text) := by
  refine ⟨fun positions => ⟨TokenSeq.is_null_iff, fun constant => ?_, fun passed null =>
    null.constant_iff⟩, fun opening inner close arguments group given => ?_,
    fun callee arguments named given => ?_, fun sites e edit => ?_⟩
  · obtain ⟨passed, null, _⟩ := TokenSeq.null_constant_iff.1 constant
    exact null.test
  · rw [TokenSeq.is_null_group group, if_neg given]
  · exact TokenSeq.is_null_unopened given (by simp [named])
  · obtain ⟨start, semi, stop, value, text⟩ := return_edit_text shape edit
    refine ⟨start, semi, stop, value, fun passed null => ?_, fun other => ?_⟩
    · rw [text, deliver_null failing pointer null.test]
    · rw [text]
      refine deliver_keeps (fun null => ?_) sites out
      obtain ⟨passed, null⟩ := TokenSeq.is_null_iff.1 null
      exact other passed null

theorem null_returns_dropped_cast :
    let source := "char*f()\x7bmalloc(1);return(void*)0;\x7d"
    let settings : Settings := { nullIsFailure := true }
    let a := (TokenSeq.ofSource source).analyse settings
    let f : FunctionNode := ⟨⟨"f", 0, 5, 19, false, true, "char*", false⟩, true, []⟩
    let t := a.bodyTask settings (Analysis.reshaped (a.headerChanges "out")) (f, .outParam "char*" "out")
    (f, .outParam "char*" "out") ∈ Analysis.reshaped (a.headerChanges "out") ∧
      t.shape = .outParam "char*" "out" ∧ t.nullIsFailure = true ∧ t.function.returnsPointer = true ∧
      t.ts.NullConstant (· = [13, 14]) (t.ts.significant 12 17) ∧
      ∃ e ∈ t.returns (a.sitesIn f.toFunction), e.start = 11 ∧ e.text = "return -1;" := by
  intro source settings a f t
  obtain ⟨opens, closes, zero, whole, found⟩ : t.ts.kind? 12 = some .openParen ∧
      t.ts.matchingClose 12 t.ts.size = some 15 ∧ t.ts.isNullToken 16 = true ∧
      t.ts.significant 12 17 = [12, 13, 14, 15, 16] ∧ t.ts.nextSignificant 12 17 = some 12 := by
    decide +kernel
  obtain ⟨member, edit, status⟩ :
      (f, .outParam "char*" "out") ∈ Analysis.reshaped (a.headerChanges "out") ∧
      (⟨11, 18, "return -1;"⟩ : Edit) ∈ t.returns (a.sitesIn f.toFunction) ∧
      t.failStatement = "return -1;" := by
    decide +kernel
  have null : t.ts.NullBehind [[13, 14]] (t.ts.significant 12 17) := by
    rw [whole]
    exact .behind ⟨opens, closes, by decide⟩ (.token zero)
  obtain ⟨tests, _, _, edits⟩ := null_returns_dropped t "char*" "out" (· = [13, 14]) rfl rfl rfl
  obtain ⟨start, semi, stop, value, drops, _⟩ := edits _ _ edit
  obtain rfl : 17 = semi := Nat.succ.inj stop
  obtain rfl : 12 = start := Option.some.inj (found.symm.trans value)
  exact ⟨member, rfl, rfl, rfl, ((tests _).2.2 _ null).2 (by simp), _, edit, rfl, (drops _ null).trans status⟩

end BodyTask

/-- The call `(*g)(0)` passes for a null constant behind a cast to `*g`, though no name of a type
starts with a star, and the call is gone. -/
theorem call_taken_for_null :
    let source := "char *f(char *(*g)(int)) \x7b char *p = malloc(1); return (*g)(0); \x7d\n"
    let ts := TokenSeq.ofSource source
    ts.spellRange 34 41 = "(*g)(0)" ∧ ts.isNullExpression (ts.significant 34 41) = true ∧
      (∀ isType : List Nat → Prop, (∀ first rest, ts.kind? first = some .star → ¬ isType (first :: rest)) →
          ¬ ts.NullConstant isType (ts.significant 34 41)) ∧
      (harden { nullIsFailure := true } source).text =
        "int f(char *(*g)(int), char * *out) \x7b char *p = malloc(1); " ++
          "if (p == NULL) return -1; return -1; \x7d\n" := by
  intro source ts
  obtain ⟨opens, closes, opens', closes', zero, star⟩ : ts.kind? 34 = some .openParen ∧
      ts.matchingClose 34 ts.size = some 37 ∧ ts.kind? 38 = some .openParen ∧
      ts.matchingClose 38 ts.size = some 40 ∧ ts.isNullToken 39 = true ∧ ts.kind? 35 = some .star := by
    decide +kernel
  obtain ⟨whole, spelled⟩ : ts.significant 34 41 = [34, 35, 36, 37, 38, 39, 40] ∧
      ts.spellRange 34 41 = "(*g)(0)" := by
    decide +kernel
  have null : ts.NullBehind [[35, 36]] (ts.significant 34 41) := by
    rw [whole]
    exact .behind ⟨opens, closes, by decide⟩ (.group ⟨opens', closes', by decide⟩ (.token zero))
  let a := ts.analyse { nullIsFailure := true }
  let edits : List Edit := [⟨0, 16, "int f(char *(*g)(int), char * *out)"⟩,
    .insertion 31 " if (p == NULL) return -1;", ⟨32, 42, "return -1;"⟩]
  obtain ⟨marked, made⟩ : a.marks.contains true = true ∧
      Analysis.headerEdits (a.headerChanges "out") ++
        (a.bodyChanges { nullIsFailure := true } (Analysis.reshaped (a.headerChanges "out"))).flatMap
          (·.2.edits) = edits := by
    decide +kernel
  have order : Edit.sorted edits = edits := List.mergeSort_of_pairwise (by decide)
  have text : (ts.edit edits).text = "int f(char *(*g)(int), char * *out) \x7b char *p = malloc(1); " ++
      "if (p == NULL) return -1; return -1; \x7d\n" := by
    rw [TokenSeq.edit, order]
    decide +kernel
  refine ⟨spelled, null.test, fun isType unstarred constant => ?_, ?_⟩
  · rw [null.constant_iff] at constant
    exact unstarred 35 [36] star (constant _ List.mem_cons_self)
  · rw [harden, if_pos marked, ← text, ← made]
    rfl

end AllocGuard
