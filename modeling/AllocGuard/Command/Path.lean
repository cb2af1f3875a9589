/-! Paths as they are written on a command line, and the order they are processed in. -/
namespace AllocGuard.Path

/-- The parts of a text between slashes; `part` is the start of the first, backwards. -/
def segmentsFrom (part : List Char) : List Char → List String
  | [] => [String.ofList part.reverse]
  | c :: rest =>
    if c = '/' then String.ofList part.reverse :: segmentsFrom [] rest
    else segmentsFrom (c :: part) rest

def segments (path : String) : List String :=
  segmentsFrom [] path.toList

def isAbsolute (path : String) : Bool :=
  path.toList.head? == some '/'

/-- A part of a path that counts when paths are compared. -/
inductive Component where
  | root
  | current
  | parent
  | name (text : String)
deriving Repr, DecidableEq

namespace Component

/-- The root comes first, then the current directory, the parent, and names. -/
def rank : Component → Nat
  | root => 0
  | current => 1
  | parent => 2
  | name _ => 3

/-- Whether a component comes before another. Names are compared by their characters. -/
def before : Component → Component → Bool
  | name a, name b => decide (a < b)
  | a, b => decide (a.rank < b.rank)

end Component

/-- The component that a segment stands for. Doubled slashes mean nothing, and a dot
means something only at the start of a relative path. -/
def component? (isFirst : Bool) : String → Option Component
  | "" => none
  | "." => if isFirst then some .current else none
  | ".." => some .parent
  | text => some (.name text)

def components (path : String) : List Component :=
  if isAbsolute path then .root :: (segments path).filterMap (component? false)
  else
    match segments path with
    | [] => []
    | first :: rest => (component? true first).toList ++ rest.filterMap (component? false)

/-- The order of paths, component by component. -/
def precedes : List Component → List Component → Bool
  | [], _ => true
  | _ :: _, [] => false
  | a :: as, b :: bs => if a = b then precedes as bs else a.before b

/-- The name at the end of a path. -/
def fileName? (path : String) : Option String :=
  match (components path).getLast? with
  | some (.name text) => some text
  | _ => none

/-- What follows the last dot of a name, unless the name starts with that dot. -/
def extension? (name : String) : Option String :=
  let last := name.toList.reverse.takeWhile (· != '.')
  match name.toList.reverse.dropWhile (· != '.') with
  | _ :: _ :: _ => some (String.ofList last.reverse)
  | _ => none

/-- Whether a name is that of a source or header file of C. -/
def isSource (name : String) : Bool :=
  extension? name == some "c" || extension? name == some "h"

/-- A path below a directory. An empty path stands for the working directory. -/
def join (directory relative : String) : String :=
  if directory = "" then relative
  else if directory.toList.getLast? == some '/' then directory ++ relative
  else directory ++ "/" ++ relative

end AllocGuard.Path
