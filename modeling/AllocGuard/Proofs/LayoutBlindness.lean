import AllocGuard.Proofs.HeaderBlindness

/-! Sources that differ in layout only. The tokens that carry meaning decide which functions there
are, what they are called, who calls whom and where the unsafe sites stand, whatever is written
between them. How a function is changed is read from the text of its header as well: white space
there is of no account, but a comment is taken for a part of the type or of the parameters. -/
namespace AllocGuard

/-- How a function returns, without the texts of a parameter for its value. -/
def ReturnShape.bare : ReturnShape → ReturnShape
  | .outParam _ _ => .outParam "" ""
  | shape => shape

/-- Two functions that stand at the same tokens and have the same header, up to its texts. -/
structure Function.Twin (ts ts' : TokenSeq) (f f' : Function) : Prop where
  placed : ts.Placed f
  placed' : ts'.Placed f'
  start : ts.rank 0 f.start = ts'.rank 0 f'.start
  body : ts.rank 0 f.body = ts'.rank 0 f'.body
  returnsPointer : f'.returnsPointer = f.returnsPointer
  isEntry : f'.isEntry = f.isEntry

namespace TokenSeq

variable {ts ts' : TokenSeq} {f : Function} {settings : Settings}

/-- The header of a function is written without comments, trigraphs and joined lines. -/
def hasPlainHeader (ts : TokenSeq) (f : Function) : Bool :=
  ts.isPlainRange f.start (ts.headerStop f.start f.body)

/-- What a function of the sequence returns is read from the view of its header. -/
theorem function_reading {entryPoint : String} (member : f ∈ ts.functionsOf entryPoint ts.outline) :
    ∃ r pivot params inner, (ts.declarationView f.start f.body).reading = some r ∧
      r.pivot = some pivot ∧ r.layers = .function params :: inner ∧
      f.returnsVoid = (inner.isEmpty &&
        Word.typeWords ((ts.declarationView f.start f.body).spanText 0 r.base) == ["void"]) := by
  obtain ⟨item, _, reads⟩ := functions_of_item member
  obtain ⟨start, _, opens⟩ := function_range reads
  have view := ts.function_view entryPoint item.start item.stop
  rw [reads, opens, Option.map_some, Option.bind_some, ← start] at view
  simp only [DeclarationView.function?, Option.bind_eq_bind] at view
  obtain ⟨r, reading, rest⟩ := Option.bind_eq_some_iff.1 view.symm
  obtain ⟨pivot, named, made⟩ := Option.bind_eq_some_iff.1 rest
  split at made
  · rename_i params inner layers
    have void := congrArg Function.returnsVoid (Option.some.inj made)
    exact ⟨r, pivot, params, inner, reading, named, layers, void.symm⟩
  · cases made

/-- How a function with a header returns afterwards, up to the texts. -/
theorem reshape_read {h : Header} (outParam : String) (notEntry : f.isEntry = false)
    (read : ts.header f.start f.body = .ok h) :
    ∃ shape change, ts.reshape f outParam = .ok (shape, change) ∧ shape.bare =
      if f.returnsVoid then .voidToInt
      else if !f.returnsPointer && Word.isPlainInt h.returnType then .unchanged false
      else .outParam "" "" := by
  rw [reshape, if_neg (Bool.eq_false_iff.1 notEntry), read]
  simp only [bind, Except.bind, pure, Except.pure]
  split
  · exact ⟨_, _, rfl, rfl⟩
  · split
    · exact ⟨_, _, rfl, rfl⟩
    · exact ⟨_, _, rfl, rfl⟩

theorem header_written {source : String} (placed : (ofSource source).Placed f)
    (plain : (ofSource source).hasPlainHeader f = true) :
    (ofSource source).PlainlyWritten f.start ((ofSource source).headerStop f.start f.body) := by
  have body := (ofSource source).header_stop_le placed.start_le
  have inside := Nat.le_trans (Nat.le_of_lt placed.body_lt) placed.stop_le
  exact plainly_written plain (Nat.le_trans body inside)

section Functions

variable {ts ts' : TokenSeq} (same : ts.core 0 ts.size = ts'.core 0 ts'.size) {f f' : Function}
  (twin : Function.Twin ts ts' f f')
  (written : ts.PlainlyWritten f.start (ts.headerStop f.start f.body))
  (written' : ts'.PlainlyWritten f'.start (ts'.headerStop f'.start f'.body))

include same twin written written'

/-- Functions with plain headers return nothing together. -/
theorem returns_void_twin {entryPoint : String} (member : f ∈ ts.functionsOf entryPoint ts.outline)
    (member' : f' ∈ ts'.functionsOf entryPoint ts'.outline) : f'.returnsVoid = f.returnsVoid := by
  obtain ⟨r, pivot, params, inner, reads, named, layers, void⟩ := function_reading member
  obtain ⟨r', _, params', inner', reads', _, layers', void'⟩ := function_reading member'
  have inside := Nat.le_trans (Nat.le_of_lt twin.placed.body_lt) twin.placed.stop_le
  have inside' := Nat.le_trans (Nat.le_of_lt twin.placed'.body_lt) twin.placed'.stop_le
  have readings := reading_twin same inside inside' twin.start twin.body
  rw [reads, reads', Option.some.injEq] at readings
  subst readings
  rw [layers, List.cons.injEq] at layers'
  obtain ⟨_, rfl⟩ := layers'
  have words := void_twin same inside inside' twin.start twin.body written written'
    twin.placed.start_le twin.placed'.start_le reads named
  rw [void, void', Bool.eq_iff_iff, Bool.and_eq_true, Bool.and_eq_true, beq_iff_eq, beq_iff_eq, words]

/-- Functions with plain headers return in the same way afterwards. Where the header of one has no
return type, that of the other may be refused. -/
theorem reshape_twin {outParam : String} (void : f'.returnsVoid = f.returnsVoid) {shape : ReturnShape}
    {change : Option Edit} (reshapes : ts.reshape f outParam = .ok (shape, change)) :
    (∃ shape' change', ts'.reshape f' outParam = .ok (shape', change') ∧ shape'.bare = shape.bare) ∨
      (∃ h, ts.header f.start f.body = .ok h ∧ h.returnType = "") ∧
        ts'.reshape f' outParam = .error .noReturnType := by
  rcases reshape_cases reshapes with ⟨entry, rfl, _⟩ | ⟨notEntry, h, read, _⟩
  · have entry' := twin.isEntry.trans entry
    refine .inl ⟨.unchanged f'.returnsVoid, none, ?_, by rw [void]⟩
    rw [reshape, if_pos entry']
    rfl
  · have notEntry' := twin.isEntry.trans notEntry
    have inside := Nat.le_trans (Nat.le_of_lt twin.placed.body_lt) twin.placed.stop_le
    have inside' := Nat.le_trans (Nat.le_of_lt twin.placed'.body_lt) twin.placed'.stop_le
    rcases header_twin same twin.placed.start_le twin.placed'.start_le inside inside' twin.start twin.body
      written written' read with ⟨h', read', _, plain⟩ | ⟨untyped, refused⟩
    · obtain ⟨_, _, reshapes₁, kind⟩ := reshape_read outParam notEntry read
      obtain ⟨shape', change', reshapes', kind'⟩ := reshape_read outParam notEntry' read'
      rw [reshapes, Except.ok.injEq, Prod.mk.injEq] at reshapes₁
      obtain ⟨rfl, rfl⟩ := reshapes₁
      exact .inl ⟨shape', change', reshapes', by rw [kind, kind', void, twin.returnsPointer, plain]⟩
    · refine .inr ⟨⟨h, read, untyped⟩, ?_⟩
      rw [reshape, if_neg (Bool.eq_false_iff.1 notEntry'), refused]
      rfl

end Functions

/-- The graphs of sequences with the same meaning are the same, up to positions and to what is read
from the texts of the headers. -/
theorem graph_twin (same : ts.core 0 ts.size = ts'.core 0 ts'.size) (settings : Settings) :
    (ts.analyse settings).graph.nodes.map (FunctionNode.bare (ts.rank 0)) =
      (ts'.analyse settings).graph.nodes.map (FunctionNode.bare (ts'.rank 0)) := by
  have graph := ts.build_core settings.registry settings.entryPoint
  rw [same, ← build_core] at graph
  exact graph

theorem node_function {f : FunctionNode} (member : f ∈ (ts.analyse settings).graph.nodes) :
    f.toFunction ∈ ts.functionsOf settings.entryPoint ts.outline := by
  obtain ⟨g, found, rfl⟩ := List.mem_map.1 member
  exact found

theorem node_twin (same : ts.core 0 ts.size = ts'.core 0 ts'.size) {i : Nat} {f f' : FunctionNode}
    (there : (ts.analyse settings).graph.nodes[i]? = some f)
    (there' : (ts'.analyse settings).graph.nodes[i]? = some f') :
    Function.Twin ts ts' f.toFunction f'.toFunction := by
  have nodes := congrArg (·[i]?) (graph_twin same settings)
  simp only [List.getElem?_map, there, there', Option.map_some, Option.some.injEq, FunctionNode.bare,
    FunctionNode.mk.injEq, Function.bare, Function.mk.injEq] at nodes
  obtain ⟨⟨_, start, body, _, _, pointer, _, entry⟩, _⟩ := nodes
  exact ⟨functions_of_placed (node_function (List.mem_of_getElem? there)),
    functions_of_placed (node_function (List.mem_of_getElem? there')), start, body, pointer.symm,
    entry.symm⟩

end TokenSeq

namespace Analysis

/-- What is decided about a function in one analysis is decided about another in the other: whether it
returns nothing, whether it has parameters, and how it returns afterwards. A header without a return
type may be refused in the other. -/
structure DecidesAlike (a a' : Analysis) (outParam : String) (f f' : Function) : Prop where
  returnsVoid : f'.returnsVoid = f.returnsVoid
  hasNoParams : ∀ h, a.ts.header f.start f.body = .ok h →
    (∃ h', a'.ts.header f'.start f'.body = .ok h' ∧ h'.hasNoParams = h.hasNoParams) ∨
      h.returnType = "" ∧ a'.ts.header f'.start f'.body = .error .noReturnType
  shape : ∀ shape change, a.ts.reshape f outParam = .ok (shape, change) →
    (∃ shape' change', a'.ts.reshape f' outParam = .ok (shape', change') ∧ shape'.bare = shape.bare) ∨
      (∃ h, a.ts.header f.start f.body = .ok h ∧ h.returnType = "") ∧
        a'.ts.reshape f' outParam = .error .noReturnType

end Analysis

section Sources

variable {source source' : String} {settings : Settings}
  (same : (TokenSeq.ofSource source).meaning = (TokenSeq.ofSource source').meaning)

include same

open TokenSeq

theorem plain_headers_decide {i : Nat} {f f' : FunctionNode}
    (there : ((ofSource source).analyse settings).graph.nodes[i]? = some f)
    (there' : ((ofSource source').analyse settings).graph.nodes[i]? = some f')
    (plain : (ofSource source).hasPlainHeader f.toFunction = true)
    (plain' : (ofSource source').hasPlainHeader f'.toFunction = true) :
    ((ofSource source).analyse settings).DecidesAlike ((ofSource source').analyse settings)
      settings.outParam f.toFunction f'.toFunction := by
  have core := core_of_meaning same
  have twin := node_twin core there there'
  have written := header_written twin.placed plain
  have written' := header_written twin.placed' plain'
  have void := returns_void_twin core twin written written' (node_function (List.mem_of_getElem? there))
    (node_function (List.mem_of_getElem? there'))
  refine ⟨void, fun h read => ?_, fun shape change reshapes =>
    reshape_twin core twin written written' void reshapes⟩
  have inside := Nat.le_trans (Nat.le_of_lt twin.placed.body_lt) twin.placed.stop_le
  have inside' := Nat.le_trans (Nat.le_of_lt twin.placed'.body_lt) twin.placed'.stop_le
  rcases header_twin core twin.placed.start_le twin.placed'.start_le inside inside' twin.start twin.body
    written written' read with ⟨h', read', params, _⟩ | refused
  · exact .inl ⟨h', read', params⟩
  · exact .inr refused

/-- A header counts for the marks only where an unsafe site stands behind it. -/
theorem plain_headers_mark (plain : ∀ f ∈ ((ofSource source).analyse settings).graph.nodes, f.hasUnsafeSite = true →
      (ofSource source).hasPlainHeader f.toFunction = true)
    (plain' : ∀ f ∈ ((ofSource source').analyse settings).graph.nodes, f.hasUnsafeSite = true →
      (ofSource source').hasPlainHeader f.toFunction = true) :
    ((ofSource source).analyse settings).marks = ((ofSource source').analyse settings).marks := by
  suffices keys : ((ofSource source).analyse settings).graph.nodes.map CallGraph.markKey =
      ((ofSource source').analyse settings).graph.nodes.map CallGraph.markKey from CallGraph.marks_key keys
  refine List.ext_getElem? fun i => ?_
  have nodes := congrArg (·[i]?) (graph_twin (core_of_meaning same) settings)
  simp only [List.getElem?_map] at nodes ⊢
  cases there : ((ofSource source).analyse settings).graph.nodes[i]? with
  | none =>
    rw [there, Option.map_none] at nodes
    rw [Option.map_eq_none_iff.1 nodes.symm]
  | some f =>
    rw [there, Option.map_some] at nodes
    obtain ⟨f', there', bare⟩ := Option.map_eq_some_iff.1 nodes.symm
    simp only [FunctionNode.bare, FunctionNode.mk.injEq, Function.bare, Function.mk.injEq] at bare
    obtain ⟨⟨_, _, _, _, _, pointer, _, entry⟩, unsafeSite, callers⟩ := bare
    have seed : f'.isSeed = f.isSeed := by
      rw [FunctionNode.isSeed, FunctionNode.isSeed, unsafeSite, pointer]
      cases holds : f.hasUnsafeSite with
      | false => rfl
      | true =>
        have alike := plain_headers_decide same there there' (plain f (List.mem_of_getElem? there) holds)
          (plain' f' (List.mem_of_getElem? there') (unsafeSite.trans holds))
        rw [alike.returnsVoid]
    rw [there', Option.map_some, Option.map_some, CallGraph.markKey, CallGraph.markKey, seed, entry, callers]

end Sources

/-- Two sources with the same meaning, whatever is written between their tokens, have the same
functions: they have the same names, callers and unsafe sites, and the same ones return a pointer or
are the entry point. As long as their headers are plain, the same is decided about them, and if those
with an unsafe site are, the same ones are marked. -/
theorem meaning_decides (settings : Settings) {source source' : String}
    (same : (TokenSeq.ofSource source).meaning = (TokenSeq.ofSource source').meaning) :
    let a := (TokenSeq.ofSource source).analyse settings
    let a' := (TokenSeq.ofSource source').analyse settings
    a.graph.nodes.map (FunctionNode.bare fun _ => 0) = a'.graph.nodes.map (FunctionNode.bare fun _ => 0) ∧
      (∀ (i : Nat) (f f' : FunctionNode), a.graph.nodes[i]? = some f → a'.graph.nodes[i]? = some f' →
        a.ts.hasPlainHeader f.toFunction = true → a'.ts.hasPlainHeader f'.toFunction = true →
          a.DecidesAlike a' settings.outParam f.toFunction f'.toFunction) ∧
      ((∀ f ∈ a.graph.nodes, f.hasUnsafeSite = true → a.ts.hasPlainHeader f.toFunction = true) →
        (∀ f ∈ a'.graph.nodes, f.hasUnsafeSite = true → a'.ts.hasPlainHeader f.toFunction = true) →
          a.marks = a'.marks) := by
  intro a a'
  refine ⟨?_, fun i f f' there there' plain plain' =>
    plain_headers_decide same there there' plain plain',
    fun plain plain' => plain_headers_mark same plain plain'⟩
  have nodes := congrArg (List.map (FunctionNode.bare fun _ => 0))
    (TokenSeq.graph_twin (TokenSeq.core_of_meaning same) settings)
  rw [List.map_map, List.map_map] at nodes
  exact nodes

theorem meaning_decides_respaced :
    let source := "static void f(int n) \x7b malloc(1); \x7d\nchar *g(void) \x7b f(1); \x7d\n"
    let source' := "static\tvoid\n  f ( int n )\n\x7b malloc(1); /* none */ \x7d\n" ++
      "char * g(  void ) \x7b f(1); \x7d\n"
    let a := (TokenSeq.ofSource source).analyse {}
    let a' := (TokenSeq.ofSource source').analyse {}
    a.ts.meaning = a'.ts.meaning ∧
      a.graph.nodes.map (FunctionNode.bare fun _ => 0) = a'.graph.nodes.map (FunctionNode.bare fun _ => 0) ∧
      (a.marks = [true, true] ∧ a.marks = a'.marks) ∧
      ∃ f f', a.graph.nodes[1]? = some f ∧ a'.graph.nodes[1]? = some f' ∧
        a.DecidesAlike a' "out" f.toFunction f'.toFunction := by
  intro source source' a a'
  let g : FunctionNode := ⟨⟨"g", 21, 29, 38, false, true, "char *", false⟩, false, []⟩
  let g' : FunctionNode := ⟨⟨"g", 26, 37, 46, false, true, "char *", false⟩, false, []⟩
  obtain ⟨same, marks, there, there', plain, plain'⟩ :
      (TokenSeq.ofSource source).meaning = (TokenSeq.ofSource source').meaning ∧ a.marks = [true, true] ∧
        a.graph.nodes[1]? = some g ∧ a'.graph.nodes[1]? = some g' ∧
        (∀ f ∈ a.graph.nodes, a.ts.hasPlainHeader f.toFunction = true) ∧
        (∀ f ∈ a'.graph.nodes, a'.ts.hasPlainHeader f.toFunction = true) := by decide +kernel
  obtain ⟨nodes, decided, marked⟩ := meaning_decides {} same
  exact ⟨same, nodes, ⟨marks, marked (fun f member _ => plain f member) fun f member _ => plain' f member⟩,
    g, g', there, there', decided 1 g g' there there' (plain g (List.mem_of_getElem? there))
      (plain' g' (List.mem_of_getElem? there'))⟩

/-- A comment in front of the type hides that nothing is returned, and the function is not marked. A
comment between the parentheses stands for a parameter. -/
theorem comment_in_header :
    let plain := TokenSeq.ofSource "static void f(void) \x7b malloc(1); \x7d\nchar *g() \x7b f(); \x7d\n"
    let commented := TokenSeq.ofSource
      ("static /* c */ void f(void) \x7b malloc(1); \x7d\n" ++ "char *g(/* none */) \x7b f(); \x7d\n")
    plain.meaning = commented.meaning ∧
      ((plain.analyse {}).graph.nodes.map (·.returnsVoid) = [true, false] ∧
        (commented.analyse {}).graph.nodes.map (·.returnsVoid) = [false, false]) ∧
      ((plain.analyse {}).marks = [true, true] ∧ (commented.analyse {}).marks = [false, false]) ∧
      ((plain.analyse {}).graph.nodes.map fun f =>
          (plain.header f.start f.body).toOption.map (·.hasNoParams)) = [some true, some true] ∧
      ((commented.analyse {}).graph.nodes.map fun f =>
          (commented.header f.start f.body).toOption.map (·.hasNoParams)) = [some true, some false] ∧
      ((plain.analyse {}).graph.nodes.map fun f =>
          (plain.reshape f.toFunction "out").toOption.map (·.1.bare)) =
        [some .voidToInt, some (.outParam "" "")] ∧
      ((commented.analyse {}).graph.nodes.map fun f =>
          (commented.reshape f.toFunction "out").toOption.map (·.1.bare)) =
        [some (.outParam "" ""), some (.outParam "" "")] := by
  decide +kernel

-- behind an attribute, a space is taken for a return type
example :
    let spaced := TokenSeq.ofSource "__extension__ __attribute__((x)) f(void) \x7b \x7d\n"
    let tight := TokenSeq.ofSource "__extension__ __attribute__((x))f(void) \x7b \x7d\n"
    spaced.meaning = tight.meaning ∧
      (spaced.analyse {}).graph.nodes.map (fun f =>
        (spaced.reshape f.toFunction "out").toOption.map (·.1)) = [some (.outParam "" "out")] ∧
      (tight.analyse {}).graph.nodes.map (fun f =>
        (tight.reshape f.toFunction "out").toOption.map (·.1)) = [none] := by
  decide +kernel

end AllocGuard
