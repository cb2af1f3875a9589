import AllocGuard.Command.FileTree
import AllocGuard.Command.Options
import AllocGuard.Diff.Unified
import AllocGuard.Report
import AllocGuard.Settings.Reader

/-! A run over files. Everything is read before anything is written, so that no file is
hardened twice and a path that is missing stops the run while nothing has changed. How a
directory is walked and how settings are read is not part of a run: it is given both. -/
namespace AllocGuard

/-- What a run leaves to others. -/
structure Surroundings where
  /-- The ways down from a directory to what a walk of it comes to, which may pass over
  files that are there. The walk may fail. -/
  walk : FileTree → Location → Option (List Location)
  /-- The settings that a text gives, if it can be read. -/
  parse : String → Option Settings

/-- A file to be hardened. -/
structure Source where
  /-- The path that it is shown by. -/
  path : String
  location : Location
  /-- The path that its output gets below another directory. -/
  relative : String
deriving Repr, DecidableEq

/-- What a run came to. -/
structure Execution where
  exitCode : Nat
  output : String
  tree : FileTree
deriving Repr, DecidableEq

namespace Command

/-- The settings of a run, if they can be read and used. -/
def settings? (s : Surroundings) (o : Options) (t : FileTree) : Option Settings :=
  match o.config with
  | none => some {}
  | some path => do
    let text ← (t.locate? path) >>= t.text?
    let settings ← s.parse text
    if settings.error?.isSome then none else some settings

/-- The files that a path stands for: a file itself, or the sources of C that a walk of a
directory comes to. -/
def sourcesOf? (s : Surroundings) (t : FileTree) (path : String) : Option (List Source) := do
  let location ← t.locate? path
  if t.isFile location then
    return [⟨path, location, (Path.fileName? path).getD path⟩]
  else if t.isDirectory location then
    let entries ← s.walk t location
    return entries.filterMap fun names =>
      let relative := "/".intercalate names
      if t.isFile (location ++ names) && (names.getLast?.map Path.isSource).getD false then
        some ⟨Path.join path relative, location ++ names, relative⟩
      else none
  else none

/-- The files of all paths, in the order of their paths. -/
def sources? (s : Surroundings) (t : FileTree) (paths : List String) : Option (List Source) := do
  let found ← paths.mapM (sourcesOf? s t)
  return found.flatten.mergeSort fun a b =>
    Path.precedes (Path.components a.path) (Path.components b.path)

/-- How far a run has come. -/
structure Progress where
  tree : FileTree
  output : String := ""
  reports : List Report.FileReport := []
  isComplete : Bool := true

namespace Progress

def print (p : Progress) (text : String) : Progress :=
  { p with output := p.output ++ text }

def fail (p : Progress) : Progress :=
  { p with isComplete := false }

def finish (p : Progress) (source : Source) (outcome : Outcome) : Progress :=
  { p with reports := p.reports ++ [⟨source.path, outcome⟩] }

end Progress

/-- What is shown of the changes of a file. -/
def diffText (o : Options) (source : Source) (text : String) (outcome : Outcome) : String :=
  if o.diff && outcome.changed then
    Diff.unified ("a/" ++ source.relative) ("b/" ++ source.relative) text outcome.text
  else ""

/-- Shows, writes or prints a hardened file. A file that cannot be written is not
reported. -/
def emit (o : Options) (p : Progress) (source : Source) (text : String) (outcome : Outcome) :
    Progress :=
  let p := p.print (diffText o source text outcome)
  if o.inPlace then
    if outcome.changed then
      { p with tree := p.tree.write source.location outcome.text }.finish source outcome
    else p.finish source outcome
  else
    match o.outDir with
    | some directory =>
      match p.tree.create? (Path.join directory source.relative) outcome.text with
      | some tree => { p with tree }.finish source outcome
      | none => p.fail
    | none =>
      if o.diff || o.report then p.finish source outcome
      else (p.print outcome.text).finish source outcome

/-- A source and its text, hardened. A file that is not text cannot be. -/
def hardened? (settings : Settings) (t : FileTree) (source : Source) : Option (String × Outcome) :=
  (t.text? source.location).map fun text => (text, harden settings text)

/-- Deals with one file, whose text is that of the tree `t` at the start. -/
def processFile (o : Options) (settings : Settings) (t : FileTree) (p : Progress) (source : Source) :
    Progress :=
  match hardened? settings t source with
  | some (text, outcome) => emit o p source text outcome
  | none => p.fail

/-- One file after the other. -/
def process (o : Options) (settings : Settings) (t : FileTree) (sources : List Source) : Progress :=
  sources.foldl (processFile o settings t) { tree := t }

/-- A run with these options. -/
def run (s : Surroundings) (o : Options) (t : FileTree) : Execution :=
  match settings? s o t, sources? s t o.paths with
  | some settings, some sources =>
    let p := process o settings t sources
    ⟨if p.isComplete then 0 else 1,
      if o.report then p.output ++ Report.render p.reports else p.output, p.tree⟩
  | _, _ => ⟨1, "", t⟩

def version : String :=
  "allocguard 0.1.0\n"

/-- Walks that come to every file below a directory, and settings in TOML. -/
def plainSurroundings : Surroundings where
  walk t location := some (t.filesBelow location)
  parse := Settings.ofToml?

end Command

end AllocGuard
