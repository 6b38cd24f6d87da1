/-!
# Stopping a run

A flag that anyone may raise and nobody lowers.  Workers look at it between two nodes and stop without
taking back what they have done.
-/

namespace PackedGraph

/-- Whether a run has been asked to stop. -/
structure Termination where
  /-- Whether anyone has asked. -/
  requested : Bool := false
  deriving Repr, DecidableEq, Inhabited

namespace Termination

/-- Ask the run to stop; only the first request is announced. -/
def request (t : Termination) : Termination × List String :=
  (⟨true⟩, if t.requested then [] else ["Termination requested"])

end Termination

end PackedGraph
