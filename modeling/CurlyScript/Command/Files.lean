/-
  Files: trees of directories, paths into them, and the scripts below a directory.

  A path is a text of names between slashes.  It leads off from the directory that the command runs
  in, or from the top of all directories if a slash is its first character.  A name leads down from
  a directory, one dot stays and two dots go back up, at the top nowhere.  A path that ends in a
  slash or in dots has to lead to a directory.

  What a directory holds can always be read.  Below a directory everything is looked at by its path,
  which is that of the directory and a name more.  A path has a greatest length, so there may be
  entries that nothing can be found out about (`FileTree.seenFrom`).
-/

namespace CurlyScript

/-- What stands at a place of a file system. -/
inductive FileTree where
  | file (content : ByteArray)
  | dir (entries : List (String × FileTree))
  /-- A file that is there but cannot be read, and why. -/
  | sealed (reason : String)
  /-- Neither a file nor a directory but a socket, say, and why it cannot be read. -/
  | special (reason : String)
deriving Inhabited

/-- Why there is nothing at the end of a path. -/
inductive PathFault where
  | missing
  /-- Something on the way is no directory. -/
  | notDirectory
  /-- The path, or a name in it, is longer than any can be. -/
  | tooLong
  /-- Any other reason. -/
  | other (reason : String)
deriving DecidableEq, Repr

/-- How a message tells a fault. -/
def PathFault.text : PathFault → String
  | missing => "No such file or directory (os error 2)"
  | notDirectory => "Not a directory (os error 20)"
  | tooLong => "File name too long (os error 36)"
  | other reason => reason

/-! ## Paths -/

/-- The most bytes that a name may have. -/
def maxNameSize : Nat := 255

/-- The most bytes that a path may have. -/
def maxPathSize : Nat := 4095

/-- A place in a file system: what stands there, and the way to it. -/
structure Place where
  here : FileTree
  /-- The names on the way from the top, each with the directory that holds it, nearest first. -/
  way : List (String × FileTree)

namespace Place

/-- The top of all directories. -/
def top (t : FileTree) : Place := ⟨t, []⟩

/-- The names on the way from the top. -/
def names (p : Place) : List String := (p.way.map (·.1)).reverse

/-- Follows one name.  At the top, two dots stay. -/
def step (p : Place) (name : String) : Except PathFault Place :=
  match p.here with
  | .dir entries =>
    if name = ".." then match p.way with
      | (_, parent) :: way => .ok ⟨parent, way⟩
      | [] => .ok p
    else if name.utf8ByteSize > maxNameSize then .error .tooLong
    else match entries.lookup name with
      | some child => .ok ⟨child, (name, p.here) :: p.way⟩
      | none => .error .missing
  | _ => .error .notDirectory

/-- Follows names one after the other. -/
def steps (p : Place) (names : List String) : Except PathFault Place := names.foldlM step p

end Place

namespace FileTree

/-- The names of a path, empty ones and single dots left out, and whether it has to lead to a
    directory. -/
def splitPath (path : String) : List String × Bool :=
  let parts := (path.toList.splitOn '/').map String.ofList
  let last := parts.getLast?.getD ""
  (parts.filter fun p => p != "" && p != ".", last == "" || last == "." || last == "..")

/-- Whether it is a directory. -/
def isDir : FileTree → Bool
  | dir _ => true
  | _ => false

/-- Whether it is a file, be it one that cannot be read. -/
def isFile : FileTree → Bool
  | file _ | sealed _ => true
  | dir _ | special _ => false

/-- How many bytes it holds, as far as that can be told. -/
def size : FileTree → Nat
  | file content => content.size
  | dir _ | sealed _ | special _ => 0

/-- The text of a file, or why it cannot be read. -/
def text : FileTree → Except String String
  | file content => match String.fromUTF8? content with
    | some text => .ok text
    | none => .error "stream did not contain valid UTF-8"
  | dir _ => .error "Is a directory (os error 21)"
  | sealed reason | special reason => .error reason

/-- The place that a path leads to in the file system `system`, the names of `home` being the way
    to the directory that it leads off from. -/
def find (system : FileTree) (home : List String) (path : String) : Except PathFault Place := do
  if path = "" then throw .missing
  if path.utf8ByteSize > maxPathSize then throw .tooLong
  let (names, directory) := splitPath path
  let start ← if path.startsWith "/" then pure (.top system) else (Place.top system).steps home
  let found ← start.steps names
  if directory && !found.here.isDir then throw .notDirectory
  return found

/-- The path of a place below another path. -/
def joinPath (path : String) (place : List String) : String :=
  match place with
  | [] => path
  | place => (if path.endsWith "/" then path else path ++ "/") ++ "/".intercalate place

/-- Whether a path is short enough to be followed. -/
def fits (path : String) : Bool := path.utf8ByteSize ≤ maxPathSize

mutual

/-- A tree as it is seen from a path, `place` being the way to it from there.  Where the path to an
    entry is too long, nothing can be found out about it: it is taken for no directory, and it
    cannot be read. -/
def seenFrom (path : String) (place : List String) : FileTree → FileTree
  | .dir entries =>
    if fits (joinPath path place) then .dir (entriesSeenFrom path place entries)
    else .sealed PathFault.tooLong.text
  | t => if fits (joinPath path place) then t else .sealed PathFault.tooLong.text

/-- The entries of a directory as they are seen from a path. -/
def entriesSeenFrom (path : String) (place : List String) :
    List (String × FileTree) → List (String × FileTree)
  | [] => []
  | (name, t) :: rest =>
    (name, t.seenFrom path (place ++ [name])) :: entriesSeenFrom path place rest

end

/-! ## Scripts -/

/-- Whether a name is that of a script: something, and then `.js`. -/
def isScript (name : String) : Bool := name.endsWith ".js" && name.length > 3

/-- Whether a directory of this name is passed over. -/
def isSkipped (name : String) : Bool :=
  name.startsWith "." || name == "target" || name == "node_modules"

mutual

/-- The scripts in a tree called `name`, each with the names on the way to it.  Whatever is no
    directory is a script by its name. -/
def scripts (name : String) : FileTree → List (List String × FileTree)
  | .dir entries => entriesScripts entries
  | t => if isScript name then [([], t)] else []

/-- The scripts in the entries of a directory. -/
def entriesScripts : List (String × FileTree) → List (List String × FileTree)
  | [] => []
  | (name, t) :: rest =>
    (if t.isDir && isSkipped name then []
     else (t.scripts name).map fun s => (name :: s.1, s.2)) ++ entriesScripts rest

end

/-- Whether the names of one path come before those of another or are the same. -/
def placeLe : List String → List String → Bool
  | [], _ => true
  | _ :: _, [] => false
  | a :: as, b :: bs => if a = b then placeLe as bs else a ≤ b

/-- The scripts at the end of a path in the order of their places, name by name.  Of a directory
    these are the scripts below it, of a file the file itself, and of anything else nothing. -/
def scriptsAt (path : String) (t : FileTree) : List (List String × FileTree) :=
  if t.isFile || t.isDir then
    let name := (splitPath path).1.getLast?.getD ""
    ((t.seenFrom path []).scripts name).mergeSort fun a b => placeLe a.1 b.1
  else []

end FileTree

end CurlyScript
