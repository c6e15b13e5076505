/-
This file exchanges the label maker of a search for another one, and with it the payloads of the
labels and what the maker keeps for itself.
-/

import RouteSearch.Search.Course

namespace RouteSearch

variable {W X Y S T : Type}

/-- The label with another payload. -/
def Label.map (f : X → Y) (label : Label W X) : Label W Y where
  edge := label.edge
  node := label.node
  weight := label.weight
  parent := label.parent
  payload := f label.payload

def Kept.map (f : X → Y) (kept : Kept W X) : Kept W Y where
  label := kept.label.map f
  settled := kept.settled

def SearchTree.map (f : X → Y) (tree : SearchTree W X) : SearchTree W Y where
  kept := tree.kept.map (Kept.map f)
  queue := tree.queue
  index := tree.index
  last := tree.last
  visited := tree.visited
  finished := tree.finished

/-- The search with other payloads, and with another state of its maker. -/
def Search.map (f : X → Y) (g : S → T) (search : Search W X S) : Search W Y T where
  makerState := g search.makerState
  filter := search.filter
  pins := search.pins
  trees := search.trees.map (SearchTree.map f)
  best := search.best
  updates := search.updates
  meetings := search.meetings
  seeded := search.seeded
  startedAt := search.startedAt
  limit := search.limit

def Taking.map (f : X → Y) (taking : Taking W X) : Taking W Y where
  id := taking.id
  label := taking.label.map f
  again := taking.again
  beaten := taking.beaten

def Takings.map (f : X → Y) (takings : Takings W X) : Takings W Y :=
  List.map (Prod.map id (Taking.map f)) takings

def Planner.withMaker (planner : Planner W X S) (maker : LabelMaker W Y T) : Planner W Y T where
  network := planner.network
  pricing := planner.pricing
  settings := planner.settings
  maker := maker

/-- The other maker makes the same labels, but for their payloads, and keeps its state alike. -/
structure LabelMaker.Maps (f : X → Y) (g : S → T) (maker : LabelMaker W X S)
    (other : LabelMaker W Y T) : Prop where
  root : ∀ state node weight direction, other.root (g state) node weight direction =
    (maker.root state node weight direction).map (Label.map f) g
  create : ∀ state arc weight parent direction,
    other.create (g state) arc weight parent direction =
      (maker.create state arc weight parent direction).map (Label.map f) g
  update : ∀ state label arc weight parent direction,
    other.update (g state) (label.map f) arc weight parent direction =
      (maker.update state label arc weight parent direction).map (Label.map f) g

end RouteSearch
