/-
This file proves that a run without limits ends, whatever the weights of a search are: every
advance takes a label or finishes its direction, and there are so many labels to take at most.
-/

import RouteSearch.Proofs.Assertions
import RouteSearch.Proofs.Workload

namespace RouteSearch

variable {W X S : Type} [Weight W] {planner : Planner W X S} {search : Search W X S}
  {takings : Takings W X} {makerState : S} {list : EdgeList W}

/-- A tree has a label for every sense of every edge at most, and a root. -/
theorem Consistent.size_le {direction : Direction} {past : List Event} {tree : SearchTree W X}
    (consistent : Consistent planner direction past tree) (lawful : planner.network.Lawful) :
    tree.size ≤ 2 * planner.network.edgeCount + 1 := by
  refine SearchTree.size_le direction lawful fun id notRoot inside => ?_
  obtain ⟨label, _, holds⟩ := SearchTree.holds_of_lt inside
  cases isParent : label.parent with
  | none => exact absurd (consistent.root holds.label? isParent).1 notRoot
  | some parent =>
      obtain ⟨above, _, arc, listed, _, _, found⟩ := consistent.reached holds.label? isParent
      exact ⟨above.node, arc, listed, found⟩

omit [Weight W] in
/-- A direction takes no more labels than it may have roots and arcs to look over. -/
theorem Counted.visited_le {roots : Nat} {taken : List (Taking W X)} {tree : SearchTree W X}
    (counted : Counted planner roots taken tree) {labels degree : Nat}
    (few : tree.size ≤ labels) (degrees : ∀ node, (planner.network.arcs node).length ≤ degree) :
    tree.visited ≤ roots + labels * degree := by
  have expansions : (taken.filter (·.isExpanded)).length ≤ labels := by
    have inside : ((taken.filter (·.isExpanded)).map (·.id)).toFinset ⊆ Finset.range tree.size := by
      intro id member
      obtain ⟨taking, isTaken, rfl⟩ := List.mem_map.mp (List.mem_toFinset.mp member)
      obtain ⟨label, holds⟩ := counted.settled taking (List.mem_of_mem_filter isTaken)
      exact Finset.mem_range.mpr holds.lt_size
    have atMost := Finset.card_le_card inside
    rw [List.toFinset_card_of_nodup counted.once, List.length_map, Finset.card_range] at atMost
    exact atMost.trans few
  have arcs : Taking.arcs planner (taken.filter (·.isExpanded)) ≤
      (taken.filter (·.isExpanded)).length * degree := by
    have total := List.sum_le_card_nsmul ((taken.filter (·.isExpanded)).map fun taking =>
      (planner.network.arcs taking.label.node).length) degree (by
        intro count member
        obtain ⟨taking, _, rfl⟩ := List.mem_map.mp member
        exact degrees taking.label.node)
    rw [List.length_map] at total
    exact total
  calc tree.visited ≤ tree.visited + tree.queue.size := Nat.le_add_right _ _
    _ ≤ roots + Taking.arcs planner (taken.filter (·.isExpanded)) := counted.bounded
    _ ≤ roots + labels * degree :=
        Nat.add_le_add_left (arcs.trans (Nat.mul_le_mul_right degree expansions)) roots

namespace Planner

/-- As many labels as a search takes at most: each direction takes its root, and one for every arc
at a label that it has looked from. -/
def visitBound (planner : Planner W X S) : Nat :=
  let edges := planner.network.edgeCount
  2 * (1 + (2 * edges + 1) * (2 * edges))

theorem Course.visited_le (network : planner.network = list.pack.network)
    (maker : planner.maker.Lawful)
    (course : planner.Course (.fresh makerState) takings search) :
    search.visited ≤ planner.visitBound := by
  have lawful : planner.network.Lawful := network ▸ list.lawful_pack
  have degrees (node : NodeId) :
      (planner.network.arcs node).length ≤ 2 * planner.network.edgeCount :=
    network ▸ list.length_arcs_pack_le node
  obtain ⟨past, chronicle⟩ := course.chronicle lawful maker
  have each (side : Direction) : (search.tree side).visited ≤
      1 + (2 * planner.network.edgeCount + 1) * (2 * planner.network.edgeCount) := by
    have few := ((chronicle.coherent lawful maker).trees side).size_le lawful
    have atMost := (course.counted lawful maker side).visited_le few degrees
    exact atMost.trans (Nat.add_le_add_right (Bool.toNat_le _) _)
  have forward := each .forward
  have backward := each .backward
  unfold visitBound
  change (search.tree .forward).visited + (search.tree .backward).visited ≤ _
  dsimp only
  omega

/-- An advance takes a label if one is open. -/
theorem visited_advanceUnder (planner : Planner W X S) (direction : Direction)
    (step : Option (ArcFilter W)) (search : Search W X S) :
    (planner.advanceUnder direction step search).2.visited =
      search.visited + (search.tree direction).pop?.isSome.toNat := by
  have there := (planner.advanceUnder_touches direction step search).there
  have advances := planner.advances direction step search
  generalize planner.advanceUnder direction step search = outcome at advances there ⊢
  rw [outcome.2.visited_eq direction, search.visited_eq direction, there, Nat.add_right_comm]
  apply congrArg (· + (search.tree direction.opposite).visited)
  cases advances with
  | stuck empty =>
      rw [Search.tree_withTree, empty]
      rfl
  | passed popped idle =>
      rw [Search.tree_withTree, popped]
      exact (SearchTree.pop?_counts popped).1
  | stopped popped atId beaten =>
      rw [Search.tree_withTree, popped]
      exact (SearchTree.pop?_counts popped).1
  | @expanded id tree label popped atId unbeaten =>
      rw [planner.expand_visited direction step id label, Search.tree_withTree, popped]
      exact (SearchTree.pop?_counts popped).1

/-- An advance takes a label or finishes its direction. -/
theorem advance_visits_or_finishes (planner : Planner W X S) (direction : Direction)
    (step : Option (ArcFilter W)) (search : Search W X S) :
    (planner.advanceUnder direction step search).2.visited = search.visited + 1 ∨
      (planner.advanceUnder direction step search).2.visited = search.visited ∧
        (planner.advanceUnder direction step search).2.finished = true := by
  have counted := planner.visited_advanceUnder direction step search
  cases empty : (search.tree direction).pop? with
  | some popped =>
      rw [empty] at counted
      exact .inl counted
  | none =>
      rw [empty] at counted
      refine .inr ⟨counted, Search.finished_of_tree direction ?_⟩
      rw [planner.advanceUnder_of_stuck step empty, Search.tree_withTree]
      rfl

/-- Without limits a run leads from a search on a course to one that has finished. -/
theorem Course.runs (network : planner.network = list.pack.network)
    (maker : planner.maker.Lawful)
    (course : planner.Course (.fresh makerState) takings search) :
    ∃ last, planner.Runs search last ∧ last.finished = true := by
  refine runs_of_bounded (P := fun moment => ∃ takings, planner.Course (.fresh makerState) takings
    moment) (fun moment ⟨_, course⟩ => course.visited_le network maker)
    (fun moment ⟨_, course⟩ => ⟨_, course.advance moment.cheaperDirection none⟩)
    (fun moment _ => ?_) ⟨takings, course⟩
  exact (planner.advance_visits_or_finishes moment.cheaperDirection none moment).imp_right
    And.right

end Planner

/-- Whatever is called and whatever the weights are, a search stays on a course, and a run without
limits comes from any search on a course to one that has finished. Each direction looks from every
label once at most. It takes no more labels than its root and one for every arc at the labels that
it has looked from. -/
theorem run_ends (network : planner.network = list.pack.network) (maker : planner.maker.Lawful)
    (noVisits : planner.settings.maxVisited = none) (noTime : planner.settings.timeoutMs = none)
    (makerState : S) :
    (∀ clock calls, planner.Course (.fresh makerState)
      (planner.takenByAll clock calls (.fresh makerState))
      (planner.performAll clock calls (.fresh makerState)).2) ∧
    ∀ takings search, planner.Course (.fresh makerState) takings search →
      (∀ clock, ∃ last, planner.Runs { search with
          startedAt := some (search.startedAt.getD (clock 0)) } last ∧
        last.finished = true ∧ planner.run clock search = { last with limit := none }) ∧
      ∀ direction, (search.tree direction).visited = (takings.of direction).length ∧
        ((takings.expanded direction).map (·.id)).Nodup ∧
        (search.tree direction).visited ≤
          1 + Taking.arcs planner (takings.expanded direction) := by
  have lawful : planner.network.Lawful := network ▸ list.lawful_pack
  refine ⟨fun clock calls => Planner.Course.start.performAll clock calls, ?_⟩
  intro takings search course
  constructor
  · intro clock
    have begun := course.aside search.filter search.pins
      (some (search.startedAt.getD (clock 0))) search.limit
    obtain ⟨last, runs, finished⟩ := begun.runs network maker
    refine ⟨last, runs, finished, ?_⟩
    rw [Planner.run, runs.runToEnd? finished noVisits noTime]
    rfl
  · intro direction
    have counted := course.counted lawful maker direction
    refine ⟨counted.visited, counted.once, ?_⟩
    calc (search.tree direction).visited
        ≤ (search.tree direction).visited + (search.tree direction).queue.size :=
          Nat.le_add_right _ _
      _ ≤ search.seeded.toNat + Taking.arcs planner (takings.expanded direction) :=
          counted.bounded
      _ ≤ 1 + Taking.arcs planner (takings.expanded direction) :=
          Nat.add_le_add_right (Bool.toNat_le _) _

/-- A search that is paid for turns ends, though it may turn back and forth at a gain. -/
theorem run_ends_paidTurns :
    (∀ clock calls, Planner.overPaidTurns.Course (.fresh ())
      (Planner.overPaidTurns.takenByAll clock calls (.fresh ()))
      (Planner.overPaidTurns.performAll clock calls (.fresh ())).2) ∧
    ∀ takings search, Planner.overPaidTurns.Course (.fresh ()) takings search →
      (∀ clock, ∃ last, Planner.overPaidTurns.Runs { search with
          startedAt := some (search.startedAt.getD (clock 0)) } last ∧
        last.finished = true ∧
        Planner.overPaidTurns.run clock search = { last with limit := none }) ∧
      ∀ direction, (search.tree direction).visited = (takings.of direction).length ∧
        ((takings.expanded direction).map (·.id)).Nodup ∧
        (search.tree direction).visited ≤
          1 + Taking.arcs Planner.overPaidTurns (takings.expanded direction) :=
  @run_ends _ _ _ _ Planner.overPaidTurns EdgeList.streets rfl LabelMaker.plain_lawful rfl rfl ()

end RouteSearch
