import PackedGraph.Files.System
import PackedGraph.Report.Documents

/-!
# Saving

The items of a run are saved one after the other in an output directory, which is made first.  The first
refusal of the file system ends the saving; what has been saved before it stays.
-/

namespace PackedGraph

open FileSystem (makeDirectories)

/-- The failure behind a refusal of a file system. -/
def orRemark {α : Type} : Except SystemError α → Except Failure α
  | .ok result => .ok result
  | .error error => .error (.remark error.message)

namespace Item

variable {m : Type → Type} [Monad m] [FileSystem m]

/-- Save an item. -/
def save (output : Route) : Item → m (Except Failure Unit)
  | folder path => return orRemark (← makeDirectories (output.join path).ancestors)
  | document d => do
    let route := output.join d.path
    return inContext ("cannot create " ++ route.text)
      (orRemark (← FileSystem.write route d.content.document))

/-- Save items in order. -/
def saveEach (output : Route) : List Item → m (Except Failure Unit)
  | [] => return .ok ()
  | item :: rest => do
    match ← item.save output with
    | .ok () => saveEach output rest
    | .error failure => return .error failure

/-- Save items in an output directory, which is made first. -/
def saveAll (output : Route) (items : List Item) : m (Except Failure Unit) := do
  match ← makeDirectories output.ancestors with
  | .ok () => saveEach output items
  | refused => return inContext ("cannot create output directory " ++ output.text) (orRemark refused)

end Item

end PackedGraph
