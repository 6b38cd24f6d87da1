import PackedGraph.Files.Route

/-!
# What a file system does

What a program asks of a file system, and for what causes a system refuses.  `FileSystem` is the
interface, of which a tree of plain data is one model; `FileSystem.makeDirectories` makes a directory
together with those on the way to it.
-/

namespace PackedGraph

/-- Why a file system refuses. -/
inductive SystemError where
  /-- There is nothing where the route leads. -/
  | missing
  /-- There is something where nothing should be. -/
  | fileExists
  /-- The route leads through something else than a directory. -/
  | notDirectory
  /-- A directory has no content. -/
  | isDirectory
  /-- The route or one of its parts has too many bytes. -/
  | nameTooLong
  /-- Any other cause. -/
  | other (reason : String)
  deriving Repr, DecidableEq, Inhabited

/-- The words of the system. -/
def SystemError.message : SystemError → String
  | missing => "No such file or directory (os error 2)"
  | fileExists => "File exists (os error 17)"
  | notDirectory => "Not a directory (os error 20)"
  | isDirectory => "Is a directory (os error 21)"
  | nameTooLong => "File name too long (os error 36)"
  | other reason => reason

/-- A file system, in which things are done one after the other. -/
class FileSystem (m : Type → Type) where
  /-- The content of a file. -/
  read : Route → m (Except SystemError ByteArray)
  /-- Whether a route leads to a directory. -/
  isDirectory : Route → m Bool
  /-- Make one directory. -/
  makeDirectory : Route → m (Except SystemError Unit)
  /-- Write a file, which may be there already. -/
  write : Route → String → m (Except SystemError Unit)

namespace FileSystem

variable {m : Type → Type} [Monad m] [FileSystem m]

/-- Make a directory unless it is there. -/
def ensureDirectory (route : Route) : m (Except SystemError Unit) := do
  match ← makeDirectory route with
  | .ok () => return .ok ()
  | .error error => return if ← isDirectory route then .ok () else .error error

/-- Make the first of some directories, each of which lies in the one behind it.  Where it has no place
to lie, the others are made first. -/
def makeDirectories : List Route → m (Except SystemError Unit)
  | [] => return .ok ()
  | route :: above => do
    match ← ensureDirectory route with
    | .error .missing =>
      match ← makeDirectories above with
      | .ok () => ensureDirectory route
      | .error error => return .error error
    | result => return result

end FileSystem

end PackedGraph
