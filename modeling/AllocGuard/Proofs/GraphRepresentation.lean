import AllocGuard.Proofs.FunctionRanges
import AllocGuard.Proofs.MarkPropagation

/-! What a call graph holds, whatever the source is. Its nodes are the first definitions of their
names among those whose headers can be read. They stand one behind the other in the text, each with a
header in front of its body, a name leads to the node that has it, and a list of callers names exactly
the other functions that call the function, each once. -/
namespace AllocGuard

namespace TokenSeq

/-! ## Definitions -/

/-- The functions that the items define, in order, as far as their headers can be read. -/
def definitions (ts : TokenSeq) (entryPoint : String) (items : List Item) : List Function :=
  (Outline.functions items).filterMap fun item => ts.function? entryPoint item.start item.stop

/-- There is nothing to declare in front of the first token. -/
theorem declaration_nonempty {ts : TokenSeq} {start stop : Nat} {declared : Declaration}
    (read : ts.declaration start stop = .ok declared) : start < stop := by
  by_contra reached
  have none : ts.significant start (min stop ts.size) = [] := by
    have empty : min (min stop ts.size) ts.size - start = 0 := by omega
    rw [significant, Position.range, empty]
    rfl
  rw [declaration, none] at read
  cases read

/-- A function has a header in front of its body, and it is the entry point if it has that name. -/
theorem function_header {ts : TokenSeq} {entryPoint : String} {start stop : Nat} {f : Function}
    (hit : ts.function? entryPoint start stop = some f) :
    f.start < f.body ∧ (f.isEntry = true ↔ f.name = entryPoint) := by
  simp only [function?, Option.bind_eq_bind, Option.bind_eq_some_iff] at hit
  obtain ⟨body, _, declared, read, ⟨name, nameToken⟩, _, type, _, made⟩ := hit
  cases made
  exact ⟨declaration_nonempty (to_option_some.1 read), beq_iff_eq⟩

/-- A definition is taken for its name unless there is one already, so the first one of each name
counts. -/
theorem add_function_find (ts : TokenSeq) (entryPoint : String) (found : List Function) (item : Item) (name : String) :
    (ts.addFunction entryPoint found item).find? (·.name == name) =
      (found ++ (ts.function? entryPoint item.start item.stop).toList).find? (·.name == name) := by
  rw [addFunction]
  split
  · rename_i f reads
    rw [reads, Option.toList_some]
    split
    · rename_i known
      obtain ⟨g, member, same⟩ := List.any_eq_true.1 known
      rw [List.find?_append]
      by_cases named : (f.name == name) = true
      · have there : (found.find? (·.name == name)).isSome = true := by
          rw [List.find?_isSome]
          exact ⟨g, member, by rw [beq_iff_eq] at *; rw [same, named]⟩
        rw [Option.or_of_isSome there]
      · have other : [f].find? (·.name == name) = none := List.find?_singleton.trans (if_neg named)
        rw [other, Option.or_none]
    · rfl
  · rename_i missing
    rw [missing, Option.toList_none, List.append_nil]

theorem functions_of_find (ts : TokenSeq) (entryPoint : String) (items : List Item) (name : String) :
    (ts.functionsOf entryPoint items).find? (·.name == name) =
      (ts.definitions entryPoint items).find? (·.name == name) := by
  have found : ∀ (defined : List Item) (found : List Function),
      (defined.foldl (ts.addFunction entryPoint) found).find? (·.name == name) =
        (found ++ defined.filterMap fun item => ts.function? entryPoint item.start item.stop).find?
          (·.name == name) := by
    intro defined
    induction defined with
    | nil => simp
    | cons item rest ih =>
      intro found
      rw [List.foldl_cons, ih, List.find?_append, add_function_find, ← List.find?_append, List.append_assoc]
      congr 2
      rw [List.filterMap_cons]
      cases ts.function? entryPoint item.start item.stop <;> rfl
  exact found (Outline.functions items) []

end TokenSeq

namespace CallGraph

section Build

variable {ts : TokenSeq} {items : List Item} {sites : List Site} {entryPoint : String} {i : Nat} {f : FunctionNode}

theorem callers_of_ordered (calls : List (String × List String)) (name : String) :
    (callersOf calls name).Pairwise (· < ·) := by
  have positions : calls.zipIdx.Pairwise fun one two => one.2 < two.2 := by
    apply List.pairwise_map.1
    rw [List.zipIdx_map_snd]
    exact List.pairwise_lt_range'
  refine positions.filterMap _ ?_
  intro one two before i first j second
  obtain ⟨_, rfl⟩ : _ ∧ one.2 = i := by simpa using first
  obtain ⟨_, rfl⟩ : _ ∧ two.2 = j := by simpa using second
  exact before

/-- What a node adds to its function. -/
theorem build_node (there : (build ts items sites entryPoint).nodes[i]? = some f) :
    (ts.functionsOf entryPoint items)[i]? = some f.toFunction ∧
      f.hasUnsafeSite = sites.any (countsFor f.toFunction) ∧
      f.callers = callersOf ((ts.functionsOf entryPoint items).map fun g =>
        (g.name, ts.calledNames g.body g.stop)) f.name := by
  simp only [build, List.getElem?_map, Option.map_eq_some_iff] at there
  obtain ⟨g, there, rfl⟩ := there
  exact ⟨there, rfl, rfl⟩

theorem node_of_function (sites : List Site) {f : Function} :
    (ts.functionsOf entryPoint items)[i]? = some f ↔
      ∃ node, (build ts items sites entryPoint).nodes[i]? = some node ∧ node.toFunction = f := by
  rw [← build_functions ts items sites entryPoint, List.getElem?_map, Option.map_eq_some_iff]

/-- Functions of the graph with the same name stand at the same place. -/
theorem same_place {j : Nat} {f g : Function} (there : (ts.functionsOf entryPoint items)[i]? = some f)
    (there' : (ts.functionsOf entryPoint items)[j]? = some g) : f.name = g.name ↔ i = j := by
  constructor
  · intro same
    refine (List.getElem?_inj ?_ (ts.functions_of_names entryPoint items)).1 ?_
    · rw [List.length_map]
      exact (List.getElem?_eq_some_iff.1 there).1
    · rw [List.getElem?_map, List.getElem?_map, there, there', Option.map_some, Option.map_some, same]
  · rintro rfl
    rw [there] at there'
    cases there'
    rfl

/-- The callers of a function are the other functions that call it, by position. -/
theorem build_callers (there : (build ts items sites entryPoint).nodes[i]? = some f) (j : Nat) :
    j ∈ f.callers ↔ j ≠ i ∧ ∃ g, (build ts items sites entryPoint).nodes[j]? = some g ∧
      Function.Calls ts g.toFunction f.toFunction := by
  obtain ⟨here, _, callers⟩ := build_node there
  rw [callers, mem_callers_of]
  constructor
  · rintro ⟨caller, called, entry, other, member⟩
    rw [List.getElem?_map, Option.map_eq_some_iff] at entry
    obtain ⟨g, thereG, same⟩ := entry
    cases same
    obtain ⟨node, place, rfl⟩ := (node_of_function sites).1 thereG
    refine ⟨fun same => other ((same_place thereG here).2 same), node, place, ?_⟩
    exact TokenSeq.mem_called_names.1 member
  · rintro ⟨other, g, place, calls⟩
    have thereG := (build_node place).1
    refine ⟨g.name, _, ?_, fun same => other ((same_place thereG here).1 same), TokenSeq.mem_called_names.2 calls⟩
    rw [List.getElem?_map, thereG, Option.map_some]

theorem node_names : ((build ts items sites entryPoint).nodes.map (·.name)).Nodup := by
  have distinct := ts.functions_of_names entryPoint items
  rw [← build_functions ts items sites entryPoint, List.map_map] at distinct
  exact distinct

theorem find_iff {name : String} :
    (build ts items sites entryPoint).find? name = some f ↔
      f ∈ (build ts items sites entryPoint).nodes ∧ f.name = name := by
  constructor
  · intro hit
    exact ⟨List.mem_of_find?_eq_some hit, eq_of_beq (List.find?_some hit :)⟩
  · rintro ⟨member, rfl⟩
    cases hit : (build ts items sites entryPoint).find? f.name with
    | none =>
      have other := List.find?_eq_none.1 hit f member
      exact absurd (beq_self_eq_true f.name) other
    | some g =>
      have same : g.name = f.name := eq_of_beq (List.find?_some hit :)
      rw [List.inj_on_of_nodup_map node_names (List.mem_of_find?_eq_some hit) member same]

end Build

/-- The call graph of any source, with any sites and any entry point. Its functions have different
names and stand one behind the other, each with a header in front of a brace that opens its body. A
name finds the one function of this name, which is the first definition in the text that can be read.
Callers are listed in order, none twice: they are the other functions that call the function. A
function is unsafe exactly if an unsafe site lies in its body, for the entry point one that can be
guarded. -/
theorem build_represents (ts : TokenSeq) (sites : List Site) (entryPoint : String) :
    let graph := build ts ts.outline sites entryPoint
    (graph.nodes.map (·.name)).Nodup ∧
    graph.nodes.Pairwise (fun earlier later => earlier.start < later.start ∧ earlier.stop ≤ later.start) ∧
    (∀ f ∈ graph.nodes, f.start < f.body ∧ f.body < f.stop ∧ f.stop ≤ ts.size ∧
      ts.kind? f.body = some .openBrace) ∧
    (∀ name f, graph.find? name = some f ↔ f ∈ graph.nodes ∧ f.name = name) ∧
    (∀ name, (graph.find? name).map FunctionNode.toFunction =
      (ts.definitions entryPoint ts.outline).find? (·.name == name)) ∧
    (∀ (i : Nat) (f : FunctionNode), graph.nodes[i]? = some f → f.callers.Pairwise (· < ·) ∧
      ∀ j, j ∈ f.callers ↔ j ≠ i ∧ ∃ g : FunctionNode, graph.nodes[j]? = some g ∧
        Function.Calls ts g.toFunction f.toFunction) ∧
    ∀ f ∈ graph.nodes, f.hasUnsafeSite = true ↔ ∃ site ∈ sites,
      f.body ≤ site.call ∧ site.call < f.stop ∧ site.isUnsafe = true ∧
        (f.name = entryPoint → site.isGuardable = true) := by
  intro graph
  have functions := build_functions ts ts.outline sites entryPoint
  have function {f : FunctionNode} (member : f ∈ graph.nodes) :
      f.toFunction ∈ ts.functionsOf entryPoint ts.outline := by
    rw [← functions]
    exact List.mem_map_of_mem member
  have header {f : FunctionNode} (member : f ∈ graph.nodes) :
      f.start < f.body ∧ (f.isEntry = true ↔ f.name = entryPoint) := by
    obtain ⟨item, _, reads⟩ := TokenSeq.functions_of_item (function member)
    exact TokenSeq.function_header reads
  refine ⟨?_, ?_, fun f member => ?_, fun name f => find_iff, fun name => ?_, fun i f there => ?_, fun f member => ?_⟩
  · exact node_names
  · have apart := ts.functions_of_apart entryPoint
    rw [← functions, List.pairwise_map] at apart
    refine apart.imp_of_mem fun earlier _ behind => ⟨?_, behind⟩
    have before := (header earlier).1
    have inside := (TokenSeq.functions_of_placed (function earlier)).body_lt
    omega
  · have placed := TokenSeq.functions_of_placed (function member)
    exact ⟨(header member).1, placed.body_lt, placed.stop_le, placed.opens⟩
  · rw [← TokenSeq.functions_of_find, ← functions, List.find?_map]
    rfl
  · refine ⟨?_, build_callers there⟩
    rw [(build_node there).2.2]
    exact callers_of_ordered _ _
  · obtain ⟨i, there⟩ := List.getElem?_of_mem member
    rw [(build_node there).2.1, counted_iff, (header member).2]

/-- A name is defined twice, its header cannot be read once, and a function calls itself and another
one twice. -/
theorem build_represents_repeated :
    let ts := TokenSeq.ofSource "int b()\x7ba();b();a();\x7da()\x7bb();\x7dvoid a()\x7bb();\x7dchar a()\x7b\x7d"
    let graph := build ts ts.outline [] "a"
    graph.nodes.map (fun f => (f.name, f.returnsVoid, f.callers)) = [("b", false, [1]), ("a", true, [0])] ∧
      ∃ f, graph.nodes[0]? = some f ∧ f.callers.Pairwise (· < ·) ∧
        ∀ j, j ∈ f.callers ↔ j ≠ 0 ∧ ∃ g : FunctionNode, graph.nodes[j]? = some g ∧
          Function.Calls ts g.toFunction f.toFunction := by
  intro ts graph
  have facts : graph.nodes.map (fun f => (f.name, f.returnsVoid, f.callers)) =
      [("b", false, [1]), ("a", true, [0])] ∧ graph.nodes[0]?.isSome = true := by
    decide +kernel
  obtain ⟨f, there⟩ := Option.isSome_iff_exists.1 facts.2
  obtain ⟨_, _, _, _, _, callers, _⟩ := build_represents ts [] "a"
  exact ⟨facts.1, f, there, callers 0 f there⟩

end CallGraph

end AllocGuard
