import AllocGuard.Diff.Compact

/-! Differences of two texts in the unified format: hunks of changed lines with up to
three unchanged lines around them. -/
namespace AllocGuard.Diff

/-! ## Lines -/

/-- The lines of a text with what ends them: a line feed, a carriage return, or both.
`line` is the start of the first line, backwards. -/
def linesFrom (line : List Char) : List Char → List String
  | [] => if line.isEmpty then [] else [String.ofList line.reverse]
  | '\r' :: '\n' :: rest => String.ofList ('\n' :: '\r' :: line).reverse :: linesFrom [] rest
  | c :: rest =>
    if c = '\n' ∨ c = '\r' then String.ofList (c :: line).reverse :: linesFrom [] rest
    else linesFrom (c :: line) rest

def lines (text : String) : List String :=
  linesFrom [] text.toList

/-- Whether a line is ended. -/
def isEnded (line : String) : Bool :=
  line.toList.getLast?.any fun c => c == '\n' || c == '\r'

/-! ## Blocks -/

/-- Lines that are kept, or lines that others take the place of. -/
structure Block where
  isKept : Bool
  old : Nat
  oldLength : Nat
  new : Nat
  newLength : Nat
deriving Repr, DecidableEq

namespace Block

def kept (old new length : Nat) : Block :=
  ⟨true, old, length, new, length⟩

end Block

/-- The deletion and the insertion that have been seen since the last kept run. -/
structure Pending where
  deletion : Option Run := none
  insertion : Option Run := none

namespace Pending

/-- The run that is pending, with another behind it. -/
def join (pending : Option Run) (run : Run) : Option Run :=
  some ((pending.map fun first => first.growDown run.length).getD run)

/-- A deletion and an insertion next to each other are one block. -/
def blocks (p : Pending) : List Block :=
  match p.deletion, p.insertion with
  | some d, some i => [⟨false, d.old, d.length, i.new, i.length⟩]
  | some d, none => [⟨false, d.old, d.length, d.new, 0⟩]
  | none, some i => [⟨false, i.old, 0, i.new, i.length⟩]
  | none, none => []

end Pending

/-- The blocks of a script. Kept runs next to each other are one block. -/
def blocksFrom (kept : Option Run) (pending : Pending) : List Run → List Block
  | [] => flush kept ++ pending.blocks
  | run :: rest =>
    match run.action with
    | .keep => pending.blocks ++ blocksFrom (Pending.join kept run) {} rest
    | .delete =>
      flush kept ++ blocksFrom none { pending with deletion := Pending.join pending.deletion run } rest
    | .insert =>
      flush kept ++ blocksFrom none { pending with insertion := Pending.join pending.insertion run } rest
where
  flush (kept : Option Run) : List Block :=
    (kept.map fun run => Block.kept run.old run.new run.length).toList

def blocks (old new : List String) : List Block :=
  blocksFrom none {} (compact old new (script old new))

/-! ## Hunks -/

/-- How many unchanged lines stand around a change. -/
def context : Nat :=
  3

/-- A kept block at the start of the text, of which only the end is shown. -/
def trimFirst : List Block → List Block
  | b :: rest =>
    if b.isKept then
      let skipped := b.oldLength - context
      .kept (b.old + skipped) (b.new + skipped) (b.oldLength - skipped) :: rest
    else b :: rest
  | [] => []

/-- A kept block at the end of the text, of which only the start is shown. -/
def trimLast : List Block → List Block
  | [] => []
  | [b] => if b.isKept then [.kept b.old b.new (min b.oldLength context)] else [b]
  | b :: rest => b :: trimLast rest

/-- The blocks of each hunk; `hunk` holds those of the first, backwards. Kept lines that
are too many to be shown end a hunk. -/
def hunksFrom (hunk : List Block) : List Block → List (List Block)
  | [] =>
    match hunk with
    | [] => []
    | [b] => if b.isKept then [] else [[b]]
    | _ => [hunk.reverse]
  | b :: rest =>
    if b.isKept ∧ 2 * context < b.oldLength then
      let skipped := b.oldLength - context
      (Block.kept b.old b.new context :: hunk).reverse ::
        hunksFrom [.kept (b.old + skipped) (b.new + skipped) (b.oldLength - skipped)] rest
    else hunksFrom (b :: hunk) rest

def hunks (blocks : List Block) : List (List Block) :=
  hunksFrom [] (trimLast (trimFirst blocks))

/-! ## Text -/

/-- A range of lines. The first line has number one, an empty range is named after the
line before it, and the length of a single line goes without saying. -/
def rangeText (start stop : Nat) : String :=
  match stop - start with
  | 0 => s!"{start},0"
  | 1 => s!"{start + 1}"
  | length => s!"{start + 1},{length}"

def headerText (hunk : List Block) : String :=
  match hunk.head?, hunk.getLast? with
  | some first, some last =>
    "@@ -" ++ rangeText first.old (last.old + last.oldLength) ++ " +" ++
      rangeText first.new (last.new + last.newLength) ++ " @@\n"
  | _, _ => ""

/-- A line behind its mark. A line that is not ended is followed by a remark. -/
def lineText (mark line : String) : String :=
  mark ++ line ++ if isEnded line then "" else "\n\\ No newline at end of file\n"

def blockText (old new : List String) (b : Block) : String :=
  let gone := (old.drop b.old).take b.oldLength
  let come := (new.drop b.new).take b.newLength
  if b.isKept then String.join (gone.map (lineText " "))
  else String.join (gone.map (lineText "-")) ++ String.join (come.map (lineText "+"))

def hunkText (old new : List String) (hunk : List Block) : String :=
  headerText hunk ++ String.join (hunk.map (blockText old new))

/-- The difference of two texts, under these names. Equal texts have none. -/
def unified (oldName newName old new : String) : String :=
  let oldLines := lines old
  let newLines := lines new
  match hunks (blocks oldLines newLines) with
  | [] => ""
  | found =>
    "--- " ++ oldName ++ "\n+++ " ++ newName ++ "\n" ++
      String.join (found.map (hunkText oldLines newLines))

end AllocGuard.Diff
