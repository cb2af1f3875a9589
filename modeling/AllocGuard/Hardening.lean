import AllocGuard.Body.Edits
import AllocGuard.Settings

/-! Hardening a source file: its unsafe allocation sites are found, the marks are
spread over the call graph, and the headers and bodies of the marked functions are
edited. A marked function whose header cannot be taken apart is copied as it is. -/
namespace AllocGuard

/-- What the analysis of a source file says. -/
structure Analysis where
  ts : TokenSeq
  sites : List Site
  graph : CallGraph
  marks : List Bool
deriving Repr, DecidableEq

/-- What became of the header of a marked function. -/
abbrev HeaderChange := Except HeaderError (ReturnShape × Option Edit)

namespace TokenSeq

/-- The sites in the bodies of all functions among the items, in order. -/
def functionSites (ts : TokenSeq) (registry : Registry) (items : List Item) : List Site :=
  (Outline.functions items).flatMap fun item =>
    match ts.bodyOpen? item.start item.stop with
    | some body => ts.sites registry body item.stop
    | none => []

/-- The analysis of a token sequence in which these sites were found. -/
def analyseSites (ts : TokenSeq) (entryPoint : String) (items : List Item) (sites : List Site) :
    Analysis :=
  let graph := CallGraph.build ts items sites entryPoint
  ⟨ts, sites, graph, graph.marks⟩

/-- The analysis of a token sequence. -/
def analyse (ts : TokenSeq) (settings : Settings) : Analysis :=
  let items := ts.outline
  ts.analyseSites settings.entryPoint items (ts.functionSites settings.registry items)

end TokenSeq

namespace Analysis

/-- The sites in the body of a function. -/
def sitesIn (a : Analysis) (f : Function) : List Site :=
  a.sites.filter (f.holds ·.call)

/-- The marked functions, in order. -/
def marked (a : Analysis) : List FunctionNode :=
  a.graph.marked a.marks

/-- What becomes of the header of every marked function. -/
def headerChanges (a : Analysis) (outParam : String) : List (FunctionNode × HeaderChange) :=
  a.marked.map fun f => (f, a.ts.reshape f.toFunction outParam)

/-- The functions whose header could be dealt with, and how they return. -/
def reshaped (changes : List (FunctionNode × HeaderChange)) :
    List (FunctionNode × ReturnShape) :=
  changes.filterMap fun (f, change) => change.toOption.map fun (shape, _) => (f, shape)

/-- The edits of headers. -/
def headerEdits (changes : List (FunctionNode × HeaderChange)) : List Edit :=
  changes.filterMap fun (_, change) => change.toOption.bind fun (_, edit) => edit

/-- What becomes of the body of every function whose header could be dealt with. -/
def bodyChanges (a : Analysis) (settings : Settings)
    (functions : List (FunctionNode × ReturnShape)) : List (FunctionNode × BodyEdits) :=
  let shapes := functions.map fun (f, shape) => (f.name, shape)
  functions.map fun (f, shape) =>
    let task : BodyTask :=
      { ts := a.ts, function := f.toFunction, shape, shapes
        failureCode := settings.failureCode, nullIsFailure := settings.nullIsFailure }
    (f, task.run (a.sitesIn f.toFunction))

end Analysis

/-- What is reported of a function. -/
structure FunctionReport where
  name : String
  marked : Bool
  signatureChanged : Bool
  /-- Marked, but copied as it is because its header could not be taken apart. -/
  fellBack : Bool
  sites : Nat
  unsafeSites : Nat
  guards : Nat
deriving Repr, DecidableEq

/-- A hardened source text, and what is reported of it. -/
structure Outcome where
  text : String
  changed : Bool
  /-- How many edits were passed over. -/
  skippedEdits : Nat
  functions : List FunctionReport
deriving Repr, DecidableEq

/-- The report of a function, given what became of the headers and bodies. -/
def Analysis.report (a : Analysis) (changes : List (FunctionNode × HeaderChange))
    (bodies : List (FunctionNode × BodyEdits)) (f : FunctionNode) (marked : Bool) :
    FunctionReport :=
  let sites := a.sitesIn f.toFunction
  let change := (changes.find? (·.1.name == f.name)).map (·.2)
  { name := f.name
    marked
    signatureChanged := (change.bind Except.toOption).any (·.2.isSome)
    fellBack := change.any fun c => c.toOption.isNone
    sites := sites.length
    unsafeSites := (sites.filter Site.isUnsafe).length
    guards := ((bodies.find? (·.1.name == f.name)).map (·.2.guards)).getD 0 }

/-- The source text with its unsafe allocation sites guarded. A text without marked
functions stays as it is. -/
def harden (settings : Settings) (source : String) : Outcome :=
  let a := (TokenSeq.ofSource source).analyse settings
  let changes := a.headerChanges settings.outParam
  let bodies := a.bodyChanges settings (Analysis.reshaped changes)
  let functions := (a.graph.nodes.zip a.marks).map fun (f, marked) => a.report changes bodies f marked
  if a.marks.contains true then
    let edited := a.ts.edit (Analysis.headerEdits changes ++ bodies.flatMap (·.2.edits))
    { text := edited.text
      changed := edited.text != source
      skippedEdits := edited.skipped
      functions }
  else { text := source, changed := false, skippedEdits := 0, functions }

end AllocGuard
