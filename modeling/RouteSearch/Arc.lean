/-
This file describes an edge as it is seen from one of its ends.
-/

import RouteSearch.Direction
import RouteSearch.Id
import RouteSearch.Weight

namespace RouteSearch

/-- An edge seen from its end `near`. Speeds and original edges follow the view: `speedOut`
holds for travel from `near` to `far`, and `firstEdge` is the original edge at `near`. -/
structure Arc (W : Type) where
  edge : EdgeId
  near : NodeId
  far : NodeId
  /-- The view runs against the order in which the ends are stored. -/
  reversed : Bool
  firstEdge : EdgeId
  lastEdge : EdgeId
  length : W
  speedOut : W
  speedIn : W

namespace Arc

variable {W : Type}

/-- The same edge seen from its other end. -/
def flip (arc : Arc W) : Arc W where
  edge := arc.edge
  near := arc.far
  far := arc.near
  reversed := !arc.reversed
  firstEdge := arc.lastEdge
  lastEdge := arc.firstEdge
  length := arc.length
  speedOut := arc.speedIn
  speedIn := arc.speedOut

@[simp] theorem flip_flip (arc : Arc W) : arc.flip.flip = arc := by
  cases arc
  simp [flip]

/-- The speed of travel: a backward search comes over the arc towards `near`. -/
def speed (arc : Arc W) : Direction → W
  | .forward => arc.speedOut
  | .backward => arc.speedIn

variable [Weight W]

/-- Whether the edge can be travelled in the sense of the search. -/
def isOpen (arc : Arc W) (direction : Direction) : Bool :=
  Weight.less Weight.zero (arc.speed direction)

end Arc

end RouteSearch
