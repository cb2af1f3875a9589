import AllocGuard.Command.Run

/-! The program: it takes a picture of the files that a command line names, runs on the
picture, and carries out what the run came to. -/
namespace AllocGuard

namespace Main

/-- What stands at a path, if it is a file. -/
def content? (path : String) : IO (Option Content) := do
  try
    let bytes ← IO.FS.readBinFile path
    return some ((String.fromUTF8? bytes).elim .binary .text)
  catch _ => return none

/-- Adds what stands at a path to a picture, with everything below it. -/
partial def picture (t : FileTree) (path : String) : IO FileTree := do
  match ← content? path with
  | some content =>
    if t.isFile (FileTree.locationOf path) then return t
    return { t with files := t.files ++ [(FileTree.locationOf path, content)] }
  | none =>
    let entries ← try
        pure (some (← (IO.FS.DirEntry.mk path ".").path.readDir))
      catch _ => pure none
    match entries with
    | none => return t
    | some entries =>
      let t := { t with directories := t.directories ++ [FileTree.locationOf path] }
      entries.foldlM (fun t entry => picture t (Path.join path entry.fileName)) t

end Main

end AllocGuard
