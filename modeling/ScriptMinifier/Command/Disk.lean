import ScriptMinifier.Text.Basic

/-! Where files are read and written.

The command works on anything that can read and write files by path: the files of the
machine, or a tree of files in memory. In the tree a path is followed name by name from
the root or from the working folder; a name or a path that is too long is refused, and
the null device is empty whatever is written to it. -/
namespace ScriptMinifier.Command

/-- The outcome of reading a file. -/
inductive Reading
  | text (t : Text)
  /-- There is no such file. -/
  | missing
  /-- There is something, but it cannot be read as text. -/
  | refused
deriving DecidableEq, Repr

/-- A way to read and write files. Writing says whether it succeeded. -/
structure Disk (m : Type → Type) where
  read : Text → m Reading
  write : Text → Text → m Bool

/-- The text that bytes hold. -/
def decoded (bytes : ByteArray) : Reading :=
  match String.fromUTF8? bytes with
  | some s => .text s.toList
  | none => .refused

/-! ### Paths -/

/-- The bytes that the name of a file may have at most. -/
def nameLimit : Nat := 255

/-- The bytes that a path may have at most. -/
def pathLimit : Nat := 4095

/-- Whether a name in a path leads to the folder it stands in. -/
def staysPut (name : Text) : Bool := name = [] || name = ['.']

/-- Whether a name in a path leads to the folder above. The root is above itself. -/
def goesUp (name : Text) : Bool := name = ['.', '.']

/-- The folder that paths start from. It is one among the temporary ones, and no path
spells its own name. -/
def workingFolder : List Text := ["tmp".toList, []]

/-- The folders of the root that every machine has. -/
def systemFolders : List (List Text) :=
  ["bin", "dev", "etc", "home", "lib", "opt", "proc", "root", "run", "sbin", "sys", "tmp", "usr",
    "var"].map fun name => [name.toList]

/-- The file that swallows what is written to it. -/
def nullDevice : List Text := ["dev".toList, "null".toList]

/-! ### Files in memory -/

/-- Folders and files, each by the names that lead to it from the root. -/
structure FileTree where
  folders : List (List Text) := workingFolder :: systemFolders
  files : List (List Text × ByteArray) := []

/-- What stands at a path. -/
inductive Place
  | folder (path : List Text)
  | file (path : List Text) (content : ByteArray)
  /-- The null device. -/
  | sink
  /-- Nothing, in a folder that exists. -/
  | vacant (path : List Text)
  /-- Nothing, and no folder to put it in. -/
  | absent
  /-- The path leads through a file, or has a name that no file can have. -/
  | blocked

namespace FileTree

def isFolder (tree : FileTree) (path : List Text) : Bool := path = [] || tree.folders.contains path

def content? (tree : FileTree) (path : List Text) : Option ByteArray :=
  (tree.files.find? fun file => file.1 == path).map Prod.snd

/-- What stands at a name that leads to no folder; `last` says whether the path ends
with it. -/
def standing (tree : FileTree) (path : List Text) (last : Bool) : Place :=
  if path = nullDevice then if last then .sink else .blocked
  else match tree.content? path with
    | some content => if last then .file path content else .blocked
    | none => if last then .vacant path else .absent

/-- Follows names from a folder. -/
def follow (tree : FileTree) (folder : List Text) : List Text → Place
  | [] => .folder folder
  | name :: rest =>
    if staysPut name then tree.follow folder rest
    else if goesUp name then tree.follow folder.dropLast rest
    else if nameLimit < Text.byteLength name then .blocked
    else if tree.isFolder (folder ++ [name]) then tree.follow (folder ++ [name]) rest
    else tree.standing (folder ++ [name]) rest.isEmpty

/-- What stands at a written path. -/
def locate (tree : FileTree) (path : Text) : Place :=
  if path.contains Text.mark || pathLimit < Text.byteLength path then .blocked
  else if path = [] then .absent
  else tree.follow (if path.head? = some '/' then [] else workingFolder) (Text.pieces '/' path)

/-- Reads a file. -/
def read (tree : FileTree) (path : Text) : Reading :=
  match tree.locate path with
  | .file _ content => decoded content
  | .sink => .text []
  | .vacant _ => .missing
  | .absent => .missing
  | .folder _ => .refused
  | .blocked => .refused

/-- Writes a file, if its place allows it. -/
def write? (tree : FileTree) (path : Text) (content : ByteArray) : Option FileTree :=
  let put (path : List Text) : FileTree :=
    { tree with files := (path, content) :: tree.files.filter fun file => file.1 != path }
  match tree.locate path with
  | .file path _ => some (put path)
  | .vacant path => some (put path)
  | .sink => some tree
  | _ => none

/-- Makes a folder below the working folder, and those it stands in. -/
def makeFolder (tree : FileTree) (path : Text) : FileTree :=
  let names := (Text.pieces '/' path).filter fun name => !staysPut name
  { tree with
    folders := tree.folders ++
      (List.range names.length).map fun k => workingFolder ++ names.take (k + 1) }

/-- A tree of files as something to read from and write to. -/
def disk : Disk (StateM FileTree) where
  read path := do return (← get).read path
  write path t := do
    match (← get).write? path (String.ofList t).toUTF8 with
    | some tree =>
      set tree
      return true
    | none => return false

end FileTree
end ScriptMinifier.Command
