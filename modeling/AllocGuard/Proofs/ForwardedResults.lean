import Mathlib.Data.List.Nodup
import AllocGuard.Proofs.RewriteFrame

/-! Results that are handed on. Where a function with an out parameter returns a call of
another one and nothing else, the call gets the parameter of the caller, and no value is
stored in between. Each of the two parameters points to the type that its own function
returned before. Nothing compares these types, so the callee writes through a pointer to the
type of the caller, and the conversion that the `return` had made is lost. -/
namespace AllocGuard

/-- The words of a type, its stars apart, and how many stars it has. -/
def typeParts (type : String) : List String × Nat :=
  (Word.typeWords (type.map fun c => if c == '*' then ' ' else c), type.toList.count '*')

namespace BodyTask

variable {t : BodyTask} {sites : List Site} {type out : String} {e : Edit}

/-- The tokens `[start, semi)` are a call of a function with an out parameter, and nothing
else. -/
structure HandsOn (t : BodyTask) (start opening close semi : Nat) : Prop where
  named : t.ts.kind? start = some .identifier
  delivers : ∃ type name, t.shapes.lookup (t.ts.spelling start) = some (.outParam type name)
  next : t.ts.nextSignificant (start + 1) semi = some opening
  opens : t.ts.kind? opening = some .openParen
  closes : t.ts.matchingClose opening semi = some close
  alone : t.ts.nextSignificant (close + 1) semi = none

/-- What a `return` of the tokens `[start, semi)` can become when the value goes out through
`out`. -/
inductive Delivery (t : BodyTask) (out : String) (start semi : Nat) : String → Prop
  | failure (null : t.ts.isNullExpression (t.ts.significant start semi) = true) :
      Delivery t out start semi t.failStatement
  | checked (allocator : Allocator) :
      Delivery t out start semi (braced true
        ("*" ++ out ++ " = " ++ Text.trim (t.ts.textRange start semi) ++ "; " ++
          t.failIf (allocator.failure.condition ("*" ++ out)) ++ " return 0;"))
  | handedOn {opening close : Nat} (call : t.HandsOn start opening close semi) :
      Delivery t out start semi ("return " ++ t.callWith start opening close out ++ ";")
  | stored (other : ∀ opening close, ¬ t.HandsOn start opening close semi) :
      Delivery t out start semi (braced true
        ("*" ++ out ++ " = " ++ Text.trim (t.ts.textRange start semi) ++ "; " ++ "return 0;"))

theorem has_out_param_iff {name : String} :
    t.hasOutParam name = true ↔ ∃ type out, t.shapes.lookup name = some (.outParam type out) := by
  rw [hasOutParam]
  split
  · rename_i type out delivers
    exact iff_of_true rfl ⟨type, out, delivers⟩
  · rename_i other
    simpa using other

theorem forwarded_call_iff {start semi : Nat} {call : String} :
    t.forwardedCall? start semi out = some call ↔
      ∃ opening close, t.HandsOn start opening close semi ∧ t.callWith start opening close out = call := by
  simp only [forwardedCall?, Option.bind_eq_bind, Option.bind_eq_some_iff, Option.guard_eq_some',
    Bool.and_eq_true, TokenSeq.has_kind_iff, has_out_param_iff, Option.isNone_iff_eq_none, Option.pure_def,
    Option.some.injEq]
  constructor
  · rintro ⟨_, ⟨named, delivers⟩, opening, next, _, opens, close, closes, _, alone, made⟩
    exact ⟨opening, close, ⟨named, delivers, next, opens, closes, alone⟩, made⟩
  · rintro ⟨opening, close, call, made⟩
    exact ⟨(), ⟨call.named, call.delivers⟩, opening, call.next, (), call.opens, close, call.closes, (),
      call.alone, made⟩

theorem deliver_delivery (t : BodyTask) (sites : List Site) (out : String) (start semi : Nat) :
    t.Delivery out start semi (t.deliver sites out start semi) := by
  unfold deliver
  dsimp only
  split
  · rename_i failure
    exact .failure (Bool.and_eq_true_iff.1 failure).2
  · split
    · rename_i allocator _
      exact .checked allocator
    · split
      · rename_i call forwards
        obtain ⟨opening, close, handed, made⟩ := forwarded_call_iff.1 forwards
        rw [← made]
        exact .handedOn handed
      · rename_i keeps
        refine .stored fun opening close handed => ?_
        have forwards : t.forwardedCall? start semi out = some _ := forwarded_call_iff.2 ⟨opening, close, handed, rfl⟩
        rw [keeps] at forwards
        cases forwards

/-- The edit of a `return` in a function with an out parameter. -/
theorem return_edit_text (shape : t.shape = .outParam type out) (edit : e ∈ t.returns sites) :
    ∃ start semi, e.stop = semi + 1 ∧ t.ts.nextSignificant (e.start + 1) semi = some start ∧
      e.text = t.deliver sites out start semi := by
  obtain ⟨i, _, made⟩ := List.mem_filterMap.1 edit
  simp only [returnEdit?, shape, Option.bind_eq_bind, Option.bind_eq_some_iff] at made
  obtain ⟨_, _, semi, _, changes⟩ := made
  split at changes
  · rename_i toInt _
    cases toInt
  · rename_i start same value
    cases same
    cases changes
    exact ⟨start, semi, rfl, value, rfl⟩
  · cases changes

theorem return_edit_delivery (shape : t.shape = .outParam type out) (edit : e ∈ t.returns sites) :
    ∃ start semi, e.stop = semi + 1 ∧ t.ts.nextSignificant (e.start + 1) semi = some start ∧
      t.Delivery out start semi e.text := by
  obtain ⟨start, semi, stop, value, text⟩ := return_edit_text shape edit
  rw [text]
  exact ⟨start, semi, stop, value, t.deliver_delivery sites out start semi⟩

end BodyTask

namespace Analysis

/-- The work on the body of a function whose header could be dealt with. -/
def bodyTask (a : Analysis) (settings : Settings) (functions : List (FunctionNode × ReturnShape))
    (one : FunctionNode × ReturnShape) : BodyTask :=
  { ts := a.ts, function := one.1.toFunction, shape := one.2
    shapes := functions.map fun (f, shape) => (f.name, shape)
    failureCode := settings.failureCode, nullIsFailure := settings.nullIsFailure }

theorem body_changes_run (a : Analysis) (settings : Settings)
    (functions : List (FunctionNode × ReturnShape)) :
    a.bodyChanges settings functions = functions.map fun one =>
      (one.1, (a.bodyTask settings functions one).run (a.sitesIn one.1.toFunction)) := rfl

/-- A shape that is looked up is that of a function of this name. -/
theorem lookup_reshaped {functions : List (FunctionNode × ReturnShape)} {name : String} {shape : ReturnShape}
    (hit : (functions.map fun (f, shape) => (f.name, shape)).lookup name = some shape) :
    ∃ f, (f, shape) ∈ functions ∧ f.name = name := by
  obtain ⟨front, back, split, _⟩ := List.lookup_eq_some_iff.1 hit
  have member : (name, shape) ∈ functions.map fun (f, shape) => (f.name, shape) := by
    rw [split]
    simp
  obtain ⟨⟨f, shape⟩, found, same⟩ := List.mem_map.1 member
  cases same
  exact ⟨f, found, rfl⟩

/-- An out parameter has the type that the header of its function says. -/
theorem out_param_type {a : Analysis} {outParam : String} {f : FunctionNode} {type name : String}
    (member : (f, .outParam type name) ∈ reshaped (a.headerChanges outParam)) :
    ∃ h, a.ts.header f.start f.body = .ok h ∧ h.returnType = type := by
  obtain ⟨_, change, reshapes⟩ := mem_reshaped.1 member
  rcases TokenSeq.reshape_cases reshapes with ⟨_, shape, _⟩ | ⟨_, h, read, changes⟩
  · cases shape
  · rcases changes with ⟨_, shape, _⟩ | ⟨_, _, shape, _⟩ | ⟨_, _, _, shape, _⟩
    · cases shape
    · cases shape
    · cases shape
      exact ⟨h, read, rfl⟩

end Analysis

/-- Two functions that are rewritten and have one name are the same, and so are their shapes. -/
theorem TokenSeq.reshaped_name_injective {ts : TokenSeq} {settings : Settings} {f g : FunctionNode}
    {shape other : ReturnShape}
    (first : (f, shape) ∈ Analysis.reshaped ((ts.analyse settings).headerChanges settings.outParam))
    (second : (g, other) ∈ Analysis.reshaped ((ts.analyse settings).headerChanges settings.outParam))
    (same : g.name = f.name) : g = f ∧ other = shape := by
  obtain ⟨isMarked, change, reshapes⟩ := Analysis.mem_reshaped.1 first
  obtain ⟨isMarked', change', reshapes'⟩ := Analysis.mem_reshaped.1 second
  have sublist : (ts.analyse settings).marked.Sublist (ts.analyse settings).graph.nodes := CallGraph.marked_sublist _
  have names : ((ts.analyse settings).graph.nodes.map fun node => node.name).Nodup := by
    have distinct := ts.functions_of_names settings.entryPoint ts.outline
    rw [← CallGraph.build_functions ts ts.outline (ts.functionSites settings.registry ts.outline),
      List.map_map] at distinct
    exact distinct
  have equal : g = f := List.inj_on_of_nodup_map names (sublist.subset isMarked')
    (sublist.subset isMarked) same
  subst equal
  rw [reshapes] at reshapes'
  cases reshapes'
  exact ⟨rfl, rfl⟩

/-- Every `return` of a function with an out parameter reports a failure, stores the value, or
is a call that the parameter is handed on to. The last is so exactly if a function with an out
parameter is called there and nothing else stands there, whatever the types are. The parameter
that is handed on points to the type that the caller returned, and the one it is handed on to
points to the type that the callee returned. So the two agree exactly if the types of the two headers
do, as they do if a function calls itself. -/
theorem handed_on_types (settings : Settings) (source : String) (f : FunctionNode) (type out : String)
    (member : (f, .outParam type out) ∈ Analysis.reshaped
      (((TokenSeq.ofSource source).analyse settings).headerChanges settings.outParam)) :
    let a := (TokenSeq.ofSource source).analyse settings
    let functions := Analysis.reshaped (a.headerChanges settings.outParam)
    let t := a.bodyTask settings functions (f, .outParam type out)
    (f, t.run (a.sitesIn f.toFunction)) ∈ a.bodyChanges settings functions ∧
      ∃ h, a.ts.header f.start f.body = .ok h ∧ h.returnType = type ∧
      ∀ e ∈ t.returns (a.sitesIn f.toFunction), ∃ start semi, e.stop = semi + 1 ∧
        a.ts.nextSignificant (e.start + 1) semi = some start ∧ t.Delivery out start semi e.text ∧
        ∀ opening close, t.HandsOn start opening close semi →
          ∃ g k target name, (g, .outParam target name) ∈ functions ∧ g.name = a.ts.spelling start ∧
            a.ts.header g.start g.body = .ok k ∧ k.returnType = target ∧
            (typeParts target = typeParts type ↔ typeParts k.returnType = typeParts h.returnType) ∧
            (g.name = f.name → typeParts k.returnType = typeParts h.returnType) := by
  intro a functions t
  have runs : (f, t.run (a.sitesIn f.toFunction)) ∈ a.bodyChanges settings functions := by
    rw [Analysis.body_changes_run]
    exact List.mem_map.2 ⟨_, member, rfl⟩
  obtain ⟨h, read, typed⟩ := Analysis.out_param_type member
  refine ⟨runs, h, read, typed, fun e edit => ?_⟩
  obtain ⟨start, semi, stop, value, delivery⟩ := BodyTask.return_edit_delivery rfl edit
  refine ⟨start, semi, stop, value, delivery, fun opening close handed => ?_⟩
  obtain ⟨written, name, delivers⟩ := handed.delivers
  obtain ⟨g, callee, named⟩ := Analysis.lookup_reshaped delivers
  obtain ⟨k, readCallee, typedCallee⟩ := Analysis.out_param_type callee
  refine ⟨g, k, written, name, callee, named, readCallee, typedCallee, by rw [typed, typedCallee], fun same => ?_⟩
  obtain ⟨rfl, shapes⟩ := TokenSeq.reshaped_name_injective member callee same
  cases shapes
  rw [typed, typedCallee]

theorem handed_on_types_recursive :
    let source := "char*f()\x7bmalloc(1);return f();\x7d"
    let a := (TokenSeq.ofSource source).analyse {}
    let functions := Analysis.reshaped (a.headerChanges "out")
    let f : FunctionNode := ⟨⟨"f", 0, 5, 18, false, true, "char*", false⟩, true, []⟩
    let t := a.bodyTask {} functions (f, .outParam "char*" "out")
    (f, .outParam "char*" "out") ∈ functions ∧ t.HandsOn 13 14 15 16 ∧
      ∃ h, a.ts.header 0 5 = .ok h ∧ h.returnType = "char*" ∧
        ∃ g k target name, (g, .outParam target name) ∈ functions ∧ g.name = a.ts.spelling 13 ∧
          a.ts.header g.start g.body = .ok k ∧ k.returnType = target ∧
          (typeParts target = typeParts "char*" ↔ typeParts k.returnType = typeParts h.returnType) ∧
          (g.name = "f" → typeParts k.returnType = typeParts h.returnType) := by
  intro source a functions f t
  have member : (f, .outParam "char*" "out") ∈ functions := by decide +kernel
  have edit : (⟨11, 17, "return f(out);"⟩ : Edit) ∈ t.returns (a.sitesIn f.toFunction) := by
    decide +kernel
  have value : a.ts.nextSignificant 12 16 = some 13 := by decide +kernel
  have handed : t.HandsOn 13 14 15 16 :=
    { named := by decide +kernel
      delivers := ⟨"char*", "out", by decide +kernel⟩
      next := by decide +kernel
      opens := by decide +kernel
      closes := by decide +kernel
      alone := by decide +kernel }
  obtain ⟨_, h, read, typed, returns⟩ := handed_on_types {} source f "char*" "out" member
  obtain ⟨start, semi, stop, found, _, types⟩ := returns _ edit
  obtain rfl : 16 = semi := Nat.succ.inj stop
  obtain rfl : 13 = start := Option.some.inj (value.symm.trans found)
  exact ⟨member, handed, h, read, typed, types 14 15 handed⟩

/-- A function that returns a `float` gets the pointer to a `double` of its caller. -/
theorem float_written_through_double :
    let source := "void h()\x7bmalloc(1);\x7dfloat g()\x7bh();return 1;\x7ddouble f()\x7breturn g();\x7d"
    let a := (TokenSeq.ofSource source).analyse {}
    let functions := Analysis.reshaped (a.headerChanges "out")
    (functions.map fun one => (one.1.name, one.2)) =
        [("h", .voidToInt), ("g", .outParam "float" "out"), ("f", .outParam "double" "out")] ∧
      ((a.bodyChanges {} functions).map fun body => body.2.edits).getLast? =
        some [⟨33, 39, "return g(out);"⟩] ∧
      typeParts "float" ≠ typeParts "double" := by
  decide +kernel

end AllocGuard
