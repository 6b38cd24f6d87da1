import PackedGraph.Files.System

/-!
# Trees of files

Directories and files as plain data, with a working directory: a file system on which a program can be
run without any other.

Main definitions: `Trail.enter` goes one part further, `FileTree.lookup` says where a route leads, and
`FileTree.target` where a route would put something.
-/

namespace PackedGraph

/-- A file or a directory. -/
inductive Entry where
  /-- A file. -/
  | file (content : ByteArray)
  /-- A directory, with the names of what lies in it. -/
  | directory (entries : List (String × Entry))
  deriving Inhabited

namespace Entry

/-- Whether it is a directory. -/
def isDirectory : Entry → Bool
  | file _ => false
  | directory _ => true

/-- What lies in a directory; in a file there is nothing. -/
def entries : Entry → List (String × Entry)
  | file _ => []
  | directory entries => entries

/-- What lies in a directory under a name. -/
def find? (entry : Entry) (name : String) : Option Entry := entry.entries.lookup name

/-- Put something where some names lead, one directory below the other. -/
def put (entry : Entry) (names : List String) (new : Entry) : Entry :=
  match names with
  | [] => new
  | name :: names =>
    match entry.find? name with
    | some found =>
      let changed := found.put names new
      directory (entry.entries.map fun other => if other.1 == name then (name, changed) else other)
    | none => directory (entry.entries ++ [(name, (directory []).put names new)])

mutual

/-- All files, with the names that lead to them. -/
def files : Entry → List (List String × ByteArray)
  | file content => [([], content)]
  | directory entries => filesOf entries

/-- All files of the entries of a directory. -/
def filesOf : List (String × Entry) → List (List String × ByteArray)
  | [] => []
  | (name, entry) :: rest => (entry.files.map fun found => (name :: found.1, found.2)) ++ filesOf rest

end

end Entry

/-- A way through a tree from its root. -/
structure Trail where
  /-- Where it begins. -/
  root : Entry
  /-- What it leads to, with its name, and before that what it leads through. -/
  passed : List (String × Entry) := []
  deriving Inhabited

namespace Trail

/-- A name has no more bytes. -/
def longestName : Nat := 255

/-- Where the way ends. -/
def here (trail : Trail) : Entry :=
  match trail.passed with
  | [] => trail.root
  | (_, entry) :: _ => entry

/-- The names on the way. -/
def names (trail : Trail) : List String := (trail.passed.map Prod.fst).reverse

/-- Go one part further, which is possible from a directory only.  At the root, the way back leads
nowhere. -/
def enter (trail : Trail) (part : String) : Except SystemError Trail :=
  if !trail.here.isDirectory then .error .notDirectory
  else if Route.idle part then .ok trail
  else if part = ".." then .ok { trail with passed := trail.passed.tail }
  else if longestName < part.utf8ByteSize then .error .nameTooLong
  else
    match trail.here.find? part with
    | some entry => .ok { trail with passed := (part, entry) :: trail.passed }
    | none => .error .missing

end Trail

/-- A tree of files, seen from a working directory. -/
structure FileTree where
  /-- Everything. -/
  root : Entry := .directory []
  /-- The names that lead to the working directory. -/
  working : List String := []
  deriving Inhabited

namespace FileTree

/-- A route has no more bytes. -/
def longestRoute : Nat := 4095

/-- Go along some parts of a route, from the root or from the working directory. -/
def walk (tree : FileTree) (route : Route) : Except SystemError Trail :=
  ((if route.head? = some "" then [] else tree.working) ++ route).foldlM Trail.enter ⟨tree.root, []⟩

/-- No empty and no overlong path leads anywhere. -/
def checkLength (route : Route) : Except SystemError Unit :=
  if route = [""] then .error .missing
  else if longestRoute < route.text.utf8ByteSize then .error .nameTooLong
  else .ok ()

/-- Where a route leads. -/
def lookup (tree : FileTree) (route : Route) : Except SystemError Trail := do
  checkLength route
  tree.walk route

/-- The way to the directory in which a route would put something, and the name that it would get there;
no name where the route ends in a part that goes nowhere or back. -/
def target (tree : FileTree) (route : Route) : Except SystemError (Trail × Option String) := do
  checkLength route
  let trail ← tree.walk route.trimmed.dropLast
  unless trail.here.isDirectory do throw .notDirectory
  match route.trimmed.getLast? with
  | none => return (trail, none)
  | some name =>
    if Route.idle name ∨ name = ".." then return (trail, none)
    else if Trail.longestName < name.utf8ByteSize then throw .nameTooLong
    else return (trail, some name)

/-- Put something under a name at the end of a way. -/
def put (tree : FileTree) (trail : Trail) (name : String) (entry : Entry) : FileTree :=
  { tree with root := tree.root.put (trail.names ++ [name]) entry }

/-- The content of a file. -/
def read (tree : FileTree) (route : Route) : Except SystemError ByteArray := do
  match (← tree.lookup route).here with
  | .file content => return content
  | .directory _ => throw .isDirectory

/-- Whether a route leads to a directory. -/
def isDirectory (tree : FileTree) (route : Route) : Bool :=
  match tree.lookup route with
  | .ok trail => trail.here.isDirectory
  | .error _ => false

/-- Make one directory, where nothing is. -/
def makeDirectory (tree : FileTree) (route : Route) : Except SystemError FileTree := do
  match ← tree.target route with
  | (_, none) => throw .fileExists
  | (trail, some name) =>
    if (trail.here.find? name).isSome then throw .fileExists
    else return tree.put trail name (.directory [])

/-- Write a file, where no directory is. -/
def write (tree : FileTree) (route : Route) (text : String) : Except SystemError FileTree := do
  match ← tree.target route with
  | (_, none) => throw .isDirectory
  | (trail, some name) =>
    if (trail.here.find? name).any Entry.isDirectory then throw .isDirectory
    else return tree.put trail name (.file text.toUTF8)

/-- The tree after a change, or the tree as it is where the change is refused. -/
def change (f : FileTree → Except SystemError FileTree) : StateM FileTree (Except SystemError Unit) :=
  modifyGet fun tree =>
    match f tree with
    | .ok changed => (.ok (), changed)
    | .error error => (.error error, tree)

instance : FileSystem (StateM FileTree) where
  read route := return (← get).read route
  isDirectory route := return (← get).isDirectory route
  makeDirectory route := change (·.makeDirectory route)
  write route text := change (·.write route text)

/-- The files below a directory, their paths seen from there. -/
def filesIn (tree : FileTree) (route : Route) : List (String × ByteArray) :=
  match tree.lookup route with
  | .ok trail => trail.here.files.map fun found => (Route.text found.1, found.2)
  | .error _ => []

end FileTree

end PackedGraph
