import AllocGuard.Hardening
import AllocGuard.Proofs.HardenedSources
import AllocGuard.Proofs.MarkPropagation

/-! When a pass over a hardened text leaves it alone. Marks start in functions that return
nothing or a pointer and hold an allocation that the analysis takes for unsafe. The first
pass makes every such function return `int`, except for the entry point, and the functions it
passes over stay as they are, so a second pass finds nothing to do in a text whose marked
functions can be rewritten where they stand. Not every text is of that kind: the lvalue that
a guard checks is written without its spaces, and where two operators run together the next
pass reads another lvalue and does not know the guard for a check. -/
namespace AllocGuard

open TokenSeq Edit Outline

variable {settings : Settings} {source : String}

namespace CallGraph

end CallGraph

namespace TokenSeq

variable {ts : TokenSeq} {entryPoint : String} {f : Function}

/-- A function in which marking starts is marked. -/
theorem analyse_seed_marked (known : f ∈ ts.functionsOf settings.entryPoint ts.outline)
    (seed : f.IsSeed (ts.functionSites settings.registry ts.outline)) :
    f ∈ (ts.analyse settings).marked.map FunctionNode.toFunction := by
  obtain ⟨i, there⟩ := List.mem_iff_getElem?.1 known
  refine CallGraph.mem_marked.2 ⟨i, ?_, CallGraph.marks_seed _ (CallGraph.build_seed.2 ⟨f, there, seed⟩)⟩
  exact (congrArg (·[i]?) (CallGraph.build_functions ts ts.outline _ settings.entryPoint)).trans there

/-- The header of a function that returns nothing or a pointer changes, if it can be taken apart. -/
theorem reshape_changes {h : Header} (notEntry : f.isEntry = false)
    (returns : f.returnsVoid = true ∨ f.returnsPointer = true) (read : ts.header f.start f.body = .ok h)
    (outParam : String) : ∃ shape e, ts.reshape f outParam = .ok (shape, some e) := by
  rw [reshape, notEntry, read]
  rcases Bool.eq_false_or_eq_true f.returnsVoid with isVoid | notVoid
  · rw [isVoid]
    exact ⟨_, _, rfl⟩
  · rw [notVoid] at returns ⊢
    rw [returns.resolve_left Bool.false_ne_true]
    exact ⟨_, _, rfl⟩

/-- A function of the graph is one of the outline. -/
theorem function_outlined (known : f ∈ ts.functionsOf entryPoint ts.outline) :
    ⟨.function, f.start, f.stop⟩ ∈ functions ts.outline ∧ ts.function? entryPoint f.start f.stop = some f := by
  obtain ⟨item, defined, reads⟩ := functions_of_item known
  obtain ⟨start, stop, _⟩ := function_range reads
  have kind : item.kind = .function := eq_of_beq (List.mem_filter.1 defined).2
  rw [start, stop]
  refine ⟨?_, reads⟩
  rwa [← kind]

/-- Whether marking starts in a function can be seen from the sites of its body. -/
theorem seed_iff {registry : Registry} (known : f ∈ ts.functionsOf entryPoint ts.outline) :
    f.IsSeed (ts.functionSites registry ts.outline) ↔ (f.returnsVoid = true ∨ f.returnsPointer = true) ∧
      ∃ site ∈ ts.sites registry f.body f.stop,
        site.isUnsafe = true ∧ (f.isEntry = true → site.isGuardable = true) := by
  refine and_congr_right fun _ => ⟨?_, ?_⟩
  · rintro ⟨site, found, lower, upper, open'⟩
    exact ⟨site, function_site known found (by simp [Function.holds, lower, upper]), open'⟩
  · rintro ⟨site, found, open'⟩
    obtain ⟨outlined, reads⟩ := function_outlined known
    obtain ⟨_, call, _, _, _, lower, upper, _, _, _, rfl⟩ := site_call found
    refine ⟨_, List.mem_flatMap.2 ⟨_, outlined, ?_⟩, ?_, ?_, open'⟩
    · dsimp only
      rw [(function_range reads).2.2]
      exact found
    · exact lower
    · exact Nat.lt_of_lt_of_le upper (Nat.min_le_left _ _)

end TokenSeq

/-- Marking starts nowhere in the hardened text. A new header returns `int`. A header that was kept returns what it
did: it is that of an entry point, which returns a plain value, or of a function that was not marked and has the same
body as before. -/
theorem Hardenable.quiet (hardenable : Hardenable settings source)
    (follow : Follow (ofSource source).size 0 (passEdits settings source)) {ts' : TokenSeq}
    (written : ts'.faces = (ofSource source).part (passEdits settings source) 0 (ofSource source).size) :
    ∀ g ∈ ts'.functionsOf settings.entryPoint ts'.outline,
      ¬ g.IsSeed (ts'.functionSites settings.registry ts'.outline) := by
  intro g found seed
  obtain ⟨returns, site, listed, isUnsafe, guardable⟩ := (seed_iff found).1 seed
  have rewrites := hardenable.rewrites follow written
  obtain ⟨f, known, body, stop, shown⟩ := rewrites.function hardenable.laid found
  obtain ⟨there, _, there', place, _⟩ := rewrites.parts known
  rcases hardenable.header follow known with kept | ⟨f, marked, rfl, shape, e, hit, edited⟩
  · rw [part_untouched kept] at there shown
    have placed := functions_of_placed known
    have start := placed.start_le
    have upper := placed.body_lt
    obtain ⟨_, reads⟩ := function_outlined known
    have view := (ofSource source).function_view settings.entryPoint f.start f.stop
    have length := @faces_in_length (ofSource source) f.start f.body (Nat.le_trans (Nat.le_of_lt upper) placed.stop_le)
    rw [reads, (function_range reads).2.2, Option.map_some, Option.bind_some] at view
    rw [((ofSource source).faces_in_there f.start f.body).function there _ f.start f.body f.stop, length,
      Nat.add_sub_cancel' start, ← view, Option.map_some, Option.some.injEq] at shown
    simp only [Function.untyped, Function.mk.injEq] at shown
    obtain ⟨_, _, _, _, isVoid, isPointer, _, isEntry⟩ := shown
    rw [← isVoid, ← isPointer] at returns
    rw [← isEntry] at guardable
    by_cases marked : f ∈ ((ofSource source).analyse settings).marked.map FunctionNode.toFunction
    · obtain ⟨f, isMarked, rfl⟩ := List.mem_map.1 marked
      cases entry : f.isEntry with
      | true =>
        rcases hardenable.entry f isMarked entry with ⟨notVoid, notPointer⟩ | guards
        · rw [notVoid, notPointer] at returns
          exact returns.elim Bool.false_ne_true Bool.false_ne_true
        · rw [body, stop, place] at listed
          exact absurd isUnsafe (Bool.eq_false_iff.1 (guards.safe placed.stop_le there' listed))
      | false =>
        obtain ⟨h, formed, copied⟩ := hardenable.parts f isMarked entry
        obtain ⟨_, _, _, type, _⟩ := formed.type_starts
        obtain ⟨shape, e, hit⟩ :=
          reshape_changes entry returns (formed.header_read type copied.params) settings.outParam
        have bounds := (hardenable.header_edit isMarked hit).1
        have behind := kept e (mem_header_edit isMarked hit) (by omega)
        omega
    · refine marked (analyse_seed_marked known ((seed_iff known).2 ⟨returns, ?_⟩))
      have none : ∀ e ∈ passEdits settings source, f.body < e.stop → f.stop < e.stop := fun e member lower =>
        Nat.lt_of_not_le fun inside => by
          obtain ⟨g, marked', rfl, _⟩ := hardenable.edit_in follow member known (by omega) (.inl inside)
          exact marked (List.mem_map_of_mem marked')
      rw [part_untouched none] at there' place
      rw [body, stop, place] at listed
      obtain ⟨site', listed', same, same'⟩ := ((ofSource source).faces_in_there f.body f.stop).site there' listed
      rw [faces_in_length placed.stop_le, Nat.add_sub_cancel' (Nat.le_of_lt upper)] at listed'
      exact ⟨site', listed', same.trans isUnsafe, fun entry => same'.trans (guardable entry)⟩
  · obtain ⟨h, formed, copied⟩ := hardenable.parts f marked (header_changes hit)
    obtain ⟨name, isEntry, int⟩ := (formed.new_header_shown copied hardenable.named hit
      ((hardenable.headers _ known).starts (faces_in_there _ _ _)) edited).2 ts' _ there settings.entryPoint _ _ _
    rw [shown, Option.some.injEq] at int
    simp only [Function.untyped, Function.mk.injEq] at int
    rw [int.2.2.2.2.1, int.2.2.2.2.2.1] at returns
    exact returns.elim Bool.false_ne_true Bool.false_ne_true

end AllocGuard
