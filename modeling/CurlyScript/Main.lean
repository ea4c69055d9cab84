import CurlyScript.Command.Run

/-
  The command line: what stands at the path is read, the run decides, and its outcome is printed
  and written.
-/

namespace CurlyScript.Command

/-- Reads what stands at a path.  In a directory only that is read which a run can look at: the
    scripts, and the directories that are not passed over. -/
partial def readTree (path : String) : IO FileTree := do
  let here := (← IO.currentDir) / path
  match (← here.metadata).type with
  | .dir =>
    let entries ← try pure (← here.readDir).toList catch _ => pure []
    let trees ← entries.mapM fun e => do
      let isDir ← e.path.isDir
      if isDir && !FileTree.isSkipped e.fileName || !isDir && FileTree.isScript e.fileName then
        let below ← try readTree (FileTree.joinPath path [e.fileName])
          catch fault => pure (.sealed (toString fault))
        return some (e.fileName, below)
      else return none
    return .dir (trees.filterMap id)
  | .file =>
    try return .file (← IO.FS.readBinFile here)
    catch fault => return .sealed (toString fault)
  | _ => return .special "No such device or address (os error 6)"

/-- Reads what stands at a path, or finds out why there is nothing. -/
def look (path : String) : IO (Except PathFault FileTree) := do
  try return .ok (← readTree path)
  catch
    | .noFileOrDirectory _ _ _ => return .error .missing
    | .inappropriateType _ _ _ => return .error .notDirectory
    | .invalidArgument _ _ "name too long" => return .error .tooLong
    | e => return .error (.other (toString e))

/-- Writes the new text of a file, and tells whether that went well. -/
def writeText (path text : String) : IO Bool := do
  try
    IO.FS.writeFile path text
    return true
  catch e =>
    IO.eprintln s!"Error writing {path}: {e}"
    return false

/-- Does what an invocation asks for, and gives the exit code. -/
def perform (inv : Invocation) : IO UInt32 := do
  let found ← match inv.path? with
    | some path => look path
    | none => pure (.error .missing)
  let outcome := inv.run found
  IO.print outcome.stdout
  IO.eprint outcome.stderr
  let written ← outcome.writes.mapM fun w =>
    writeText (FileTree.joinPath (inv.path?.getD "") w.1) w.2
  return if written.all id then outcome.exit.toUInt32 else 1

end CurlyScript.Command

/-- The command line. -/
def main (args : List String) : IO UInt32 := do
  match CurlyScript.Invocation.ofWords? args with
  | some inv => CurlyScript.Command.perform inv
  | none =>
    IO.eprint CurlyScript.Command.usage
    return 2
