import AllocGuard.Declaration.Reader
import AllocGuard.Outline
import AllocGuard.Site.Search

/-! The functions of a source file, who calls whom, and which of them have to change.
A function is a seed when it holds an unsafe site and has no status to return. Every
caller of a function that changes changes with it, except that nothing beyond the
entry point does. The marks are spread from a list of functions that wait to have their
callers looked at: a function goes on the list when it is marked, and so goes on it
once. -/
namespace AllocGuard

/-- The definition of a function. -/
structure Function where
  name : String
  /-- The first token of the definition. -/
  start : Nat
  /-- The brace that opens the body. -/
  body : Nat
  /-- The position behind the definition. -/
  stop : Nat
  returnsVoid : Bool
  returnsPointer : Bool
  /-- The return type as it is written. -/
  returnType : String
  /-- Whether this is the entry point of the program. -/
  isEntry : Bool
deriving Repr, DecidableEq

/-- Whether the position lies in the body. -/
def Function.holds (f : Function) (i : Nat) : Bool :=
  f.body ≤ i && i < f.stop

/-- A function of the graph. -/
structure FunctionNode extends Function where
  /-- Whether it holds an unsafe site. For the entry point, which keeps its header,
  only a site that can be guarded counts. -/
  hasUnsafeSite : Bool
  /-- The functions that call it, by position, in the order they are found. -/
  callers : List Nat
deriving Repr, DecidableEq

/-- Whether marking starts here. -/
def FunctionNode.isSeed (f : FunctionNode) : Bool :=
  f.hasUnsafeSite && (f.returnsVoid || f.returnsPointer)

namespace TokenSeq

/-- The function defined by the tokens `[start, stop)`, if its header can be read. -/
def function? (ts : TokenSeq) (entryPoint : String) (start stop : Nat) : Option Function := do
  let body ← ts.bodyOpen? start stop
  let declared ← (ts.declaration start body).toOption
  let (name, nameToken) ← declared.name
  let type ← declared.type.returnType?
  let returnType :=
    if (ts.parameterList? start body).isSome then
      Text.trim (ts.textRange (ts.skipStorage start nameToken) nameToken)
    else type.describe
  return {
    name, start, body, stop, returnType
    returnsPointer := type.isPointer
    returnsVoid := type.isVoid
    isEntry := name == entryPoint }

/-- Whether a function is called at `i` in `[start, stop)`: a name, not that of a
member, with a parenthesis behind it. -/
def isCall (ts : TokenSeq) (start stop i : Nat) : Bool :=
  ts.hasKind i .identifier &&
    (ts.nextSignificant (i + 1) stop).any (ts.hasKind · .openParen) && !ts.isMember i start

/-- The names that are called in `[start, stop)`, in order. -/
def calledNames (ts : TokenSeq) (start stop : Nat) : List String :=
  ((Position.range start stop).filter (ts.isCall start stop)).map ts.spelling

/-- The functions found so far, with the one that the item defines if its name is new. -/
def addFunction (ts : TokenSeq) (entryPoint : String) (found : List Function) (item : Item) :
    List Function :=
  match ts.function? entryPoint item.start item.stop with
  | some f => if found.any (·.name == f.name) then found else found ++ [f]
  | none => found

/-- The functions of a list of items, the first definition of each name only. -/
def functionsOf (ts : TokenSeq) (entryPoint : String) (items : List Item) : List Function :=
  (Outline.functions items).foldl (ts.addFunction entryPoint) []

end TokenSeq

/-- The functions of a source file and their callers. -/
structure CallGraph where
  nodes : List FunctionNode
deriving Repr, DecidableEq

namespace CallGraph

/-- The positions of the functions that call `name`, other than itself, given the name
of every function and the names it calls. -/
def callersOf (calls : List (String × List String)) (name : String) : List Nat :=
  calls.zipIdx.filterMap fun ((caller, called), position) =>
    if caller != name && called.contains name then some position else none

/-- Whether a site makes the function unsafe. -/
def countsFor (f : Function) (site : Site) : Bool :=
  f.holds site.call && site.isUnsafe && (!f.isEntry || site.isGuardable)

/-- The call graph of a source file. -/
def build (ts : TokenSeq) (items : List Item) (sites : List Site) (entryPoint : String) :
    CallGraph :=
  let functions := ts.functionsOf entryPoint items
  let calls := functions.map fun f => (f.name, ts.calledNames f.body f.stop)
  ⟨functions.map fun f =>
    { toFunction := f
      hasUnsafeSite := sites.any (countsFor f)
      callers := callersOf calls f.name }⟩

/-- The first function of this name. -/
def find? (g : CallGraph) (name : String) : Option FunctionNode :=
  g.nodes.find? (·.name == name)

/-! ## Marks -/

/-- The marks so far, one for each function, and the marked functions whose callers
have not been looked at, the one marked last first. -/
structure Marking where
  marks : List Bool
  pending : List Nat
deriving Repr, DecidableEq

namespace Marking

/-- Mark the function at `i`, which then waits for its callers to be looked at. A
function that has a mark keeps it and does not wait again. -/
def visit (m : Marking) (i : Nat) : Marking :=
  if m.marks[i]? = some false then ⟨m.marks.set i true, i :: m.pending⟩ else m

/-- Mark these functions, in order. -/
def visitAll (m : Marking) (functions : List Nat) : Marking :=
  functions.foldl visit m

/-- How many functions are still to be looked at, if all of them get a mark. -/
def remaining (m : Marking) : Nat :=
  m.marks.count false + m.pending.length

theorem visit_remaining (m : Marking) (i : Nat) : (m.visit i).remaining = m.remaining := by
  rw [visit]
  split
  · rename_i unmarked
    obtain ⟨inside, isFalse⟩ := List.getElem?_eq_some_iff.1 unmarked
    have counted : 0 < m.marks.count false :=
      List.count_pos_iff.2 (isFalse ▸ List.getElem_mem inside)
    have fewer : (m.marks.set i true).count false = m.marks.count false - 1 := by
      rw [List.count_set inside, isFalse]
      rfl
    rw [remaining, remaining, fewer, List.length_cons]
    omega
  · rfl

theorem visit_all_remaining (m : Marking) (functions : List Nat) :
    (m.visitAll functions).remaining = m.remaining := by
  induction functions generalizing m with
  | nil => rfl
  | cons i rest ih => rw [visitAll, List.foldl_cons, ← visitAll, ih, visit_remaining]

end Marking

/-- The functions that change with the one at `i`: its callers, but none if it is the
entry point. -/
def dependents (g : CallGraph) (i : Nat) : List Nat :=
  match g.nodes[i]? with
  | some f => if f.isEntry then [] else f.callers
  | none => []

/-- The marks when no function waits any more. -/
def spread (g : CallGraph) (m : Marking) : List Bool :=
  match waiting : m.pending with
  | [] => m.marks
  | i :: rest => g.spread (Marking.visitAll ⟨m.marks, rest⟩ (g.dependents i))
termination_by m.remaining
decreasing_by
  have length := congrArg List.length waiting
  rw [Marking.visit_all_remaining]
  simp only [Marking.remaining, length, List.length_cons]
  omega

/-- The positions of the seeds. -/
def seeds (g : CallGraph) : List Nat :=
  (Position.range 0 g.nodes.length).filter fun i => g.nodes[i]?.any FunctionNode.isSeed

/-- The marks that follow from given ones and from the seeds. -/
def markFrom (g : CallGraph) (marks : List Bool) : List Bool :=
  g.spread (Marking.visitAll ⟨marks, []⟩ g.seeds)

/-- No function marked. -/
def unmarked (g : CallGraph) : List Bool :=
  g.nodes.map fun _ => false

/-- The marks that follow from the seeds. -/
def marks (g : CallGraph) : List Bool :=
  g.markFrom g.unmarked

/-- The functions with a mark, in order. -/
def marked (g : CallGraph) (marks : List Bool) : List FunctionNode :=
  ((g.nodes.zip marks).filter (·.2)).map (·.1)

end CallGraph

end AllocGuard
