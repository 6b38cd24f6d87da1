import PackedGraph.Text.Fields

/-!
# Routes

A route is a path as it is written, cut at its slashes.  An empty part, where slashes meet or one stands
at an end, and the part `.` lead nowhere; the part `..` leads back.  A route that begins with an empty
part and goes on starts at the root of all files, any other one at the working directory.

Main definition: `Route.ancestors`, the directories that have to be there for one to be made.
-/

namespace PackedGraph

/-- The parts of a written path. -/
abbrev Route := List String

namespace Route

/-- The route of a written path. -/
def ofText (text : String) : Route := (pieces (· == '/') text.toList).map String.ofList

/-- The written path of a route. -/
def text (route : Route) : String := "/".intercalate route

/-- Whether a part leads nowhere. -/
def idle (part : String) : Bool := part == "" || part == "."

/-- A route without the slashes at its end. -/
def trimmed (route : Route) : Route := (route.reverse.dropWhile (· == "")).reverse

/-- A route with one more part, behind a slash at its end if there is one. -/
def extend (route : Route) (part : String) : Route :=
  (if route.getLast? = some "" then route.dropLast else route) ++ [part]

/-- A route with more parts. -/
def join (route : Route) (parts : List String) : Route := parts.foldl extend route

/-- All routes with which a route begins, the shortest first, the route itself included. -/
def prefixes (route : Route) : List Route := (List.range route.length).map fun n => route.take (n + 1)

/-- A route as it is written, and before it the directories that it leads through, the next one first.
What a route leads through ends in a part that leads somewhere, and so the route without the idle parts
at its end does not count.  The empty path leads through nothing. -/
def ancestors (route : Route) : List Route :=
  if route = [""] then []
  else route :: (route.prefixes.filter fun r => !r.getLast?.all idle).dropLast.reverse

end Route

end PackedGraph
