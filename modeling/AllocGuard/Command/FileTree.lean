import AllocGuard.Command.Path

/-! The files that a run reads and writes. A file stands at a location, the list of the
names that lead to it from the working directory. A location outside of it starts with
`/` or with `..`. Directories are what files stand in. -/
namespace AllocGuard

inductive Content where
  | text (text : String)
  /-- Bytes that are not text. -/
  | binary
deriving Repr, DecidableEq

abbrev Location := List String

structure FileTree where
  files : List (Location × Content)
  /-- Directories that may be empty. -/
  directories : List Location := []
deriving Repr, DecidableEq

namespace FileTree

def content? (t : FileTree) (location : Location) : Option Content :=
  t.files.lookup location

/-- The text of a file. A file that is not text has none. -/
def text? (t : FileTree) (location : Location) : Option String :=
  match t.content? location with
  | some (.text text) => some text
  | _ => none

def isFile (t : FileTree) (location : Location) : Bool :=
  (t.content? location).isSome

/-- Whether a name leads out of the working directory. -/
def isOutward (name : String) : Bool :=
  name == ".." || name == "/"

/-- The path from a location down to one below it. -/
def below? : Location → Location → Option Location
  | [], [] => none
  | [], name :: rest => if isOutward name then none else some (name :: rest)
  | _ :: _, [] => none
  | a :: as, b :: bs => if a = b then below? as bs else none

def isDirectory (t : FileTree) (location : Location) : Bool :=
  location.all isOutward || t.directories.contains location ||
    t.files.any (fun (file, _) => (below? location file).isSome) ||
    t.directories.any (fun directory => (below? location directory).isSome)

/-- Where a segment of a path leads from a location. -/
def move (location : Location) (segment : String) : Location :=
  if segment = "" ∨ segment = "." then location
  else if segment = ".." then
    match location.getLast? with
    | some "/" => location
    | some ".." => location ++ [".."]
    | some _ => location.dropLast
    | none => [".."]
  else location ++ [segment]

/-- Where a path starts. -/
def origin (path : String) : Location :=
  if Path.isAbsolute path then ["/"] else []

/-- Where a path leads, whatever is there. -/
def locationOf (path : String) : Location :=
  (Path.segments path).foldl move (origin path)

/-- The location of a path. Everything that a path leads through is a directory. -/
def locate? (t : FileTree) (path : String) : Option Location :=
  (Path.segments path).foldlM
    (fun location segment => if t.isDirectory location then some (move location segment) else none)
    (origin path)

/-- The ways down from a location to the files below it. -/
def filesBelow (t : FileTree) (location : Location) : List Location :=
  t.files.filterMap fun (file, _) => below? location file

/-- The tree with this text at a location. -/
def write (t : FileTree) (location : Location) (text : String) : FileTree :=
  if t.isFile location then
    { t with files := t.files.map fun (file, content) =>
      if file = location then (file, .text text) else (file, content) }
  else { t with files := t.files ++ [(location, .text text)] }

/-- The tree with a text at a path, in directories that are made as needed. It cannot
be written where a directory is, or below a file. -/
def create? (t : FileTree) (path text : String) : Option FileTree := do
  let location ← (Path.segments path).foldlM
    (fun location segment => if t.isFile location then none else some (move location segment))
    (origin path)
  if t.isDirectory location then none else some (t.write location text)

/-- The files inside the working directory that are new in a tree or differ from the
ones before, with their texts. -/
def changes (before after : FileTree) : List (Location × String) :=
  after.files.filterMap fun (file, content) =>
    match content with
    | .text text =>
      if before.content? file = some content ∨ (file.head?.any isOutward) then none
      else some (file, text)
    | .binary => none

end FileTree

end AllocGuard
