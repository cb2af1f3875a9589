import Mathlib.Data.List.Basic
import AllocGuard.Proofs.DeclarationBlindness

/-! The call graph of a source is that of its core, up to the texts of the headers. The same
functions are found under the same names, each of them calls the same names and holds the same
unsafe sites, and it returns a pointer or does not. Only whether it returns `void` is read from
text. The marks follow from the nodes: from which of them are seeds, which is the entry point,
and who calls whom. -/
namespace AllocGuard

/-- The function without the text of its return type. -/
def Function.untyped (f : Function) : Function :=
  { f with returnType := "" }

/-- The function at other positions, without what is read from its text. -/
def Function.bare (place : Nat → Nat) (f : Function) : Function :=
  { f with
    start := place f.start, body := place f.body, stop := place f.stop
    returnsVoid := false, returnType := "" }

/-- The function that a view of its header shows. -/
def DeclarationView.function? (v : DeclarationView) (entryPoint : String) (start body stop : Nat) :
    Option Function := do
  let r ← v.reading
  let pivot ← r.pivot
  match r.layers with
  | .function _ :: inner => some {
      name := v.spelling pivot, start, body, stop, returnType := ""
      returnsPointer := CType.isPointer ⟨inner, ""⟩
      returnsVoid := inner.isEmpty && Word.typeWords (v.spanText 0 r.base) == ["void"]
      isEntry := v.spelling pivot == entryPoint }
  | _ => none

theorem CType.is_pointer_bare (layers : List Layer) (specifiers specifiers' : String) :
    CType.isPointer ⟨layers.map Layer.bare, specifiers⟩ = CType.isPointer ⟨layers, specifiers'⟩ := by
  cases layers with
  | nil => rfl
  | cons layer rest => cases layer <;> rfl

namespace TokenSeq

/-- What a function is comes from the view of its header, apart from the text of its return type. -/
theorem function_view (ts : TokenSeq) (entryPoint : String) (start stop : Nat) :
    (ts.function? entryPoint start stop).map Function.untyped =
      (ts.bodyOpen? start stop).bind fun body =>
        (ts.declarationView start body).function? entryPoint start body stop := by
  rw [function?]
  cases ts.bodyOpen? start stop with
  | none => rfl
  | some body =>
    have reads := (ts.declarationView start body).read_reading
    rw [← declaration_view] at reads
    simp only [Option.bind_eq_bind, Option.bind_some, DeclarationView.function?]
    cases declared : (ts.declaration start body).toOption with
    | none =>
      rw [declared, Option.map_none] at reads
      rw [Option.map_eq_none_iff.1 reads.symm]
      rfl
    | some d =>
      rw [declared, Option.map_some] at reads
      obtain ⟨r, reading, same⟩ := Option.map_eq_some_iff.1 reads.symm
      simp only [Prod.mk.injEq] at same
      obtain ⟨named, layers, specifiers⟩ := same
      rw [reading, Option.bind_some, Option.bind_some, ← named, layers, specifiers]
      cases r.pivot with
      | none => rfl
      | some pivot =>
        obtain ⟨name, ⟨ls, text⟩⟩ := d
        cases ls with
        | nil => rfl
        | cons layer inner =>
          cases layer with
          | function params =>
            simp only [Option.map_some, Option.bind_some, List.map_cons, Layer.bare, CType.returnType?,
              CType.is_pointer_bare inner "" text, List.isEmpty_map]
            rfl
          | pointer _ => rfl
          | array _ => rfl

end TokenSeq

theorem map_bare_untyped (place : Nat → Nat) (found : Option Function) :
    (found.map Function.untyped).map (Function.bare place) = found.map (Function.bare place) := by
  cases found <;> rfl

theorem DeclarationView.Alike.function {v w : DeclarationView} (alike : v.Alike w) (place : Nat → Nat)
    (entryPoint : String) (start body stop : Nat) :
    (v.function? entryPoint start body stop).map (Function.bare place) =
      (w.function? entryPoint (place start) (place body) (place stop)).map (Function.bare id) := by
  rw [DeclarationView.function?, DeclarationView.function?, ← alike.reading]
  cases v.reading with
  | none => rfl
  | some r =>
    simp only [Option.bind_eq_bind, Option.bind_some]
    cases r.pivot with
    | none => rfl
    | some pivot =>
      simp only [Option.bind_some, ← alike.spelling]
      split
      · rfl
      · rfl

namespace TokenSeq

section Graph

variable {ts : TokenSeq} {a b : Nat} {found found' : List Function}

/-- A function is that of the core, up to its texts. -/
theorem function_core (entryPoint : String) {start stop : Nat} (above : a ≤ start) (below : stop ≤ b) :
    (ts.function? entryPoint start stop).map (Function.bare (ts.rank a)) =
      ((ts.core a b).function? entryPoint (ts.rank a start) (ts.rank a stop)).map (Function.bare id) := by
  rw [← map_bare_untyped, ← map_bare_untyped id, function_view, function_view, ← body_open_core above below]
  cases opens : ts.bodyOpen? start stop with
  | none => rfl
  | some body =>
    have bounds := body_open_bounds opens
    exact (declaration_view_alike above (by omega)).function _ _ _ _ _

theorem bare_names {place : Nat → Nat} (same : found.map (Function.bare place) = found'.map (Function.bare id))
    (name : String) : found.any (·.name == name) = found'.any (·.name == name) := by
  have names := congrArg (List.any · (·.name == name)) same
  simpa [List.any_map, Function.comp_def, Function.bare] using names

theorem add_function_core (entryPoint : String) {item : Item} (inside : item.stop ≤ ts.size)
    (same : found.map (Function.bare (ts.rank 0)) = found'.map (Function.bare id)) :
    (ts.addFunction entryPoint found item).map (Function.bare (ts.rank 0)) =
      ((ts.core 0 ts.size).addFunction entryPoint found' (item.relocate (ts.rank 0))).map
        (Function.bare id) := by
  have reads := @function_core ts 0 ts.size entryPoint item.start item.stop (Nat.zero_le _) inside
  rw [addFunction, addFunction, Item.relocate]
  dsimp only
  generalize ts.function? entryPoint item.start item.stop = f at reads ⊢
  generalize (ts.core 0 ts.size).function? entryPoint (ts.rank 0 item.start) (ts.rank 0 item.stop) = f'
    at reads ⊢
  cases f with
  | none =>
    cases f' with
    | none => exact same
    | some f' => cases reads
  | some f =>
    cases f' with
    | none => cases reads
    | some f' =>
      have twin := Option.some.inj reads
      have names := twin
      simp only [Function.bare, Function.mk.injEq] at names
      obtain ⟨name, _⟩ := names
      simp only [bare_names same, name]
      split
      · exact same
      · rw [List.map_append, List.map_append, same, List.map_cons, List.map_cons, twin]
        rfl

theorem add_functions_core (entryPoint : String) {items : List Item} (inside : ∀ item ∈ items, item.stop ≤ ts.size)
    (same : found.map (Function.bare (ts.rank 0)) = found'.map (Function.bare id)) :
    (items.foldl (ts.addFunction entryPoint) found).map (Function.bare (ts.rank 0)) =
      ((items.map (Item.relocate (ts.rank 0))).foldl ((ts.core 0 ts.size).addFunction entryPoint)
        found').map (Function.bare id) := by
  induction items generalizing found found' with
  | nil => exact same
  | cons item rest ih =>
    rw [List.foldl_cons, List.map_cons, List.foldl_cons]
    exact ih (fun later member => inside later (List.mem_cons_of_mem _ member))
      (add_function_core entryPoint (inside item List.mem_cons_self) same)

/-- The functions of a source are those of its core, up to their texts. -/
theorem functions_core (ts : TokenSeq) (entryPoint : String) :
    (ts.functionsOf entryPoint ts.outline).map (Function.bare (ts.rank 0)) =
      ((ts.core 0 ts.size).functionsOf entryPoint (ts.core 0 ts.size).outline).map
        (Function.bare id) := by
  rw [functionsOf, functionsOf, ← outline_functions_core]
  exact add_functions_core entryPoint (fun item member => (ts.outline_functions_apart.2 item member).2) rfl

/-- The sites in functions are those of the core. -/
theorem function_sites_core (ts : TokenSeq) (registry : Registry) :
    (ts.functionSites registry ts.outline).map (Site.relocate (ts.rank 0)) =
      (ts.core 0 ts.size).functionSites registry (ts.core 0 ts.size).outline := by
  rw [functionSites, functionSites, ← outline_functions_core, List.map_flatMap, List.flatMap_map]
  refine List.flatMap_congr fun item member => ?_
  have inside := (ts.outline_functions_apart.2 item member).2
  rw [Item.relocate]
  dsimp only
  rw [← body_open_core (Nat.zero_le _) inside]
  cases opens : ts.bodyOpen? item.start item.stop with
  | none => rfl
  | some body => exact sites_core (Nat.zero_le _) inside

end Graph

end TokenSeq

/-! ## Nodes -/

/-- The function of the graph at other positions, without what is read from its text. -/
def FunctionNode.bare (place : Nat → Nat) (f : FunctionNode) : FunctionNode :=
  { f with toFunction := f.toFunction.bare place }

theorem Site.unsafe_relocate (place : Nat → Nat) (site : Site) : (site.relocate place).isUnsafe = site.isUnsafe :=
  rfl

theorem Site.guardable_relocate (place : Nat → Nat) (site : Site) :
    (site.relocate place).isGuardable = site.isGuardable := by
  rw [isGuardable, isGuardable, relocate]
  simp

namespace TokenSeq

/-- A site lies in the same function of the core, and makes it unsafe there too. -/
theorem counts_for_core {ts : TokenSeq} {site : Site} (f : Function) (carries : ts.isSignificant site.call = true) :
    CallGraph.countsFor (f.bare (ts.rank 0)) (site.relocate (ts.rank 0)) =
      CallGraph.countsFor f site := by
  have lower : ts.rank 0 f.body ≤ ts.rank 0 site.call ↔ f.body ≤ site.call := by
    rw [← Nat.not_lt, ← Nat.not_lt, rank_lt_iff (Nat.zero_le _) carries]
  have upper : ts.rank 0 site.call < ts.rank 0 f.stop ↔ site.call < f.stop := rank_lt_iff (Nat.zero_le _) carries
  have holds : (f.bare (ts.rank 0)).holds (ts.rank 0 site.call) = f.holds site.call := by
    simp only [Function.holds, Function.bare, lower, upper]
  rw [CallGraph.countsFor, CallGraph.countsFor, Site.unsafe_relocate, Site.guardable_relocate, ← holds]
  rfl

theorem function_sites_significant {ts : TokenSeq} {registry : Registry} {items : List Item} {site : Site}
    (found : site ∈ ts.functionSites registry items) : ts.isSignificant site.call = true := by
  obtain ⟨item, _, inside⟩ := List.mem_flatMap.1 found
  split at inside
  · obtain ⟨_, call, _, _, _, _, _, identifier, _, _, rfl⟩ := site_call inside
    exact significant_of_kind identifier rfl
  · cases inside

theorem calls_core (ts : TokenSeq) (entryPoint : String) :
    (((ts.core 0 ts.size).functionsOf entryPoint (ts.core 0 ts.size).outline).map fun f =>
        (f.name, (ts.core 0 ts.size).calledNames f.body f.stop)) =
      (ts.functionsOf entryPoint ts.outline).map fun f => (f.name, ts.calledNames f.body f.stop) := by
  have same := congrArg (List.map fun f : Function =>
    (f.name, (ts.core 0 ts.size).calledNames f.body f.stop)) (ts.functions_core entryPoint)
  rw [List.map_map, List.map_map] at same
  refine same.symm.trans (List.map_congr_left fun f member => ?_)
  have placed := functions_of_placed member
  exact congrArg (f.name, ·) (called_names_core (Nat.zero_le _) placed.stop_le)

/-- The call graph of a source is that of its core, up to the texts of the headers. -/
theorem build_core (ts : TokenSeq) (registry : Registry) (entryPoint : String) :
    (CallGraph.build ts ts.outline (ts.functionSites registry ts.outline) entryPoint).nodes.map
        (FunctionNode.bare (ts.rank 0)) =
      (CallGraph.build (ts.core 0 ts.size) (ts.core 0 ts.size).outline
        ((ts.core 0 ts.size).functionSites registry (ts.core 0 ts.size).outline)
        entryPoint).nodes.map (FunctionNode.bare id) := by
  rw [CallGraph.build, CallGraph.build, ← function_sites_core]
  dsimp only
  rw [calls_core, List.map_map, List.map_map]
  generalize (ts.functionsOf entryPoint ts.outline).map
    (fun f => (f.name, ts.calledNames f.body f.stop)) = calls
  -- a node is made from what is left of its function
  have same := congrArg (List.map fun f : Function => (⟨f,
    ((ts.functionSites registry ts.outline).map (Site.relocate (ts.rank 0))).any (CallGraph.countsFor f),
    CallGraph.callersOf calls f.name⟩ : FunctionNode)) (ts.functions_core entryPoint)
  rw [List.map_map, List.map_map] at same
  refine Eq.trans (List.map_congr_left fun f _ => ?_) same
  have unsafeIn : (ts.functionSites registry ts.outline).any (CallGraph.countsFor f) =
      ((ts.functionSites registry ts.outline).map (Site.relocate (ts.rank 0))).any
        (CallGraph.countsFor (f.bare (ts.rank 0))) := by
    rw [List.any_map, Bool.eq_iff_iff, List.any_eq_true, List.any_eq_true]
    refine exists_congr fun site => and_congr_right fun found => ?_
    rw [Function.comp_apply, counts_for_core f (function_sites_significant found)]
  simp only [Function.comp_apply, FunctionNode.bare, unsafeIn]
  rfl

end TokenSeq

/-! ## Marks -/

namespace CallGraph

/-- What the marks depend on. -/
def markKey (f : FunctionNode) : Bool × Bool × List Nat :=
  (f.isSeed, f.isEntry, f.callers)

section Marks

variable {g g' : CallGraph} (same : g.nodes.map markKey = g'.nodes.map markKey)

include same

theorem node_key (i : Nat) : g.nodes[i]?.map markKey = g'.nodes[i]?.map markKey := by
  rw [← List.getElem?_map, same, List.getElem?_map]

theorem dependents_key (i : Nat) : g.dependents i = g'.dependents i := by
  have key := node_key same i
  rw [dependents, dependents]
  cases there : g.nodes[i]? with
  | none =>
    rw [there] at key
    rw [Option.map_eq_none_iff.1 key.symm]
  | some f =>
    rw [there] at key
    obtain ⟨f', there', twin⟩ := Option.map_eq_some_iff.1 key.symm
    simp only [markKey, Prod.mk.injEq] at twin
    simp only [there', twin.2.1, twin.2.2]

theorem seeds_key : g.seeds = g'.seeds := by
  have length : g.nodes.length = g'.nodes.length := by
    simpa using congrArg List.length same
  rw [seeds, seeds, length]
  refine List.filter_congr fun i _ => ?_
  have key := congrArg (Option.any (·.1)) (node_key same i)
  simpa [Option.any_map, Function.comp_def, markKey] using key

theorem spread_key (m : Marking) : g.spread m = g'.spread m := by
  fun_induction spread g m with
  | case1 m done =>
    rw [spread]
    split
    · rfl
    · rename_i waiting
      rw [done] at waiting
      cases waiting
  | case2 m i rest waiting ih =>
    rw [ih, dependents_key same]
    conv => rhs; rw [spread]
    split
    · rename_i done
      rw [done] at waiting
      cases waiting
    · rename_i waiting'
      rw [waiting] at waiting'
      cases waiting'
      rfl

/-- Graphs with the same seeds, the same entry point and the same callers have the same marks. -/
theorem marks_key : g.marks = g'.marks := by
  have unmarked : g.unmarked = g'.unmarked := by
    have blank := congrArg (List.map fun _ => false) same
    simpa [unmarked, List.map_map, Function.comp_def] using blank
  rw [marks, marks, markFrom, markFrom, seeds_key same, unmarked, spread_key same]

end Marks

end CallGraph

end AllocGuard
