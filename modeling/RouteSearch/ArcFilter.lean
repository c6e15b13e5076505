/-
This file decides which edges a search may use.
-/

import RouteSearch.Arc

namespace RouteSearch

abbrev ArcFilter (W : Type) := Arc W → Bool

namespace ArcFilter

variable {W : Type}

/-- A forward search leaves `near` over the arc, a backward search arrives there over it. -/
def access [Weight W] (direction : Direction) : ArcFilter W :=
  fun arc => arc.isOpen direction

/-- Compares one original edge of an arc with the given one: a forward search looks at the edge
at the near end, a backward search at the one at the far end. -/
def pinned (original : EdgeId) (direction : Direction) : ArcFilter W :=
  fun arc =>
    match direction with
    | .forward => arc.firstEdge == original
    | .backward => arc.lastEdge == original

def both (first second : ArcFilter W) : ArcFilter W :=
  fun arc => first arc && second arc

def denying (edges : List EdgeId) : ArcFilter W :=
  fun arc => !edges.contains arc.edge

def allowing (edges : List EdgeId) : ArcFilter W :=
  fun arc => edges.contains arc.edge

def avoiding (nodes : List NodeId) : ArcFilter W :=
  fun arc => !nodes.contains arc.far

def atMostLength [Weight W] (length : W) : ArcFilter W :=
  fun arc => Weight.atMost arc.length length

def seenReversed (reversed : Bool) : ArcFilter W :=
  fun arc => arc.reversed == reversed

end ArcFilter

end RouteSearch
