/-
This file proves that a search without limits ends: no direction has more labels than there are
ways to travel an edge, its root apart, and every advance settles one of them.
-/

import RouteSearch.Proofs.Crossing
import RouteSearch.Proofs.Rounds
import Mathlib.Combinatorics.Enumerative.DoubleCounting

namespace RouteSearch

/-- A direction whose labels, apart from its root, are under the keys of arcs has no more of them
than there are edges, each counted once for each sense. -/
theorem SearchTree.size_le {W X S : Type} [Weight W] {planner : Planner W X S}
    (direction : Direction) {tree : SearchTree W X} (lawful : planner.network.Lawful)
    (reached : ∀ id, id ≠ 0 → id < tree.kept.size → ∃ node, ∃ arc ∈ planner.network.arcs node,
      tree.lookup? (planner.settings.stateKind.key arc direction) = some id) :
    tree.kept.size ≤ 2 * planner.network.edgeCount + 1 := by
  have count : (Finset.range tree.kept.size \ {0}).card ≤
      (Finset.range (2 * planner.network.edgeCount)).card := by
    refine Finset.card_le_card_of_forall_subsingleton
      (fun id code => ∃ node, ∃ arc ∈ planner.network.arcs node,
        tree.lookup? (planner.settings.stateKind.key arc direction) = some id ∧
          2 * arc.edge + arc.reversed.toNat = code)
      (fun id inside => ?_) fun code _ id ⟨_, first⟩ other ⟨_, second⟩ => ?_
    · rw [Finset.mem_sdiff, Finset.mem_range, Finset.mem_singleton] at inside
      obtain ⟨node, arc, listed, found⟩ := reached id inside.2 inside.1
      have bound := Nat.succ_le_of_lt (lawful.edge_lt listed)
      have bit := Bool.toNat_le arc.reversed
      exact ⟨_, Finset.mem_range.mpr (by omega), node, arc, listed, found, rfl⟩
    · obtain ⟨node, arc, listed, found, isCode⟩ := first
      obtain ⟨nodeAgain, arcAgain, listedAgain, foundAgain, isCodeAgain⟩ := second
      obtain ⟨sameEdge, sameSense⟩ := StateKind.bits_eq (isCode.trans isCodeAgain.symm)
      have sameArc := lawful.eq_of_reversed listed listedAgain sameEdge sameSense
      rw [sameArc, found] at foundAgain
      exact Option.some.inj foundAgain
  have others := Finset.le_card_sdiff {0} (Finset.range tree.kept.size)
  rw [Finset.card_range, Finset.card_singleton] at others
  rw [Finset.card_range] at count
  omega

variable {X S : Type} {planner : Planner Exact X S} {query : Query} {search : Search Exact X S}

/-- Different labels were reached over different arcs. -/
theorem Grown.size_le {direction : Direction} {tree : SearchTree Exact X}
    (grown : Grown planner query direction tree) (lawful : planner.network.Lawful) :
    tree.kept.size ≤ 2 * planner.network.edgeCount + 1 := by
  refine SearchTree.size_le direction lawful fun id notRoot inside => ?_
  obtain ⟨label, settled, holds⟩ := SearchTree.holds_of_lt inside
  rcases grown.indexed holds with ⟨isRoot, _⟩ | ⟨key, found⟩
  · exact absurd isRoot notRoot
  · obtain ⟨trail, branch, _⟩ := grown.branch_of_key found holds
    cases branch with
    | root _ _ => exact absurd rfl notRoot
    | step _ _ reaches _ indexed => exact ⟨_, _, reaches.member, indexed⟩

/-- A direction settles every label once at most. -/
theorem SearchTree.Ordered.visited_le {tree : SearchTree Exact X} {bound : Rat}
    (ordered : tree.Ordered bound) : tree.visited ≤ tree.kept.size := by
  rw [← ordered.counted, ← Finset.card_range tree.kept.size]
  exact Finset.card_le_card (Finset.filter_subset _ _)

theorem Underway.visited_le (underway : Underway planner query noArc search)
    (lawful : planner.network.Lawful) :
    search.visited ≤ 2 * (2 * planner.network.edgeCount + 1) := by
  have each (side : Direction) :
      (search.tree side).visited ≤ 2 * planner.network.edgeCount + 1 := by
    obtain ⟨bound, ordered⟩ := (underway.grown side).ordered
    exact ordered.visited_le.trans ((underway.grown side).size_le lawful)
  have forward := each .forward
  have backward := each .backward
  unfold Search.visited
  change (search.tree .forward).visited + (search.tree .backward).visited ≤ _
  omega

/-- A step ends a search or settles one more label. -/
theorem Search.Steps.visited_or_finished {direction : Direction} {progress : Progress}
    {after : Search Exact X S} (steps : Search.Steps direction search progress after) :
    after.visited = search.visited + 1 ∨ after.finished = true := by
  rcases steps.outcome with ⟨_, isFinished⟩ | ⟨_, counted⟩
  · exact .inr (after.finished_of_tree direction isFinished)
  · left
    rw [after.visited_eq direction, search.visited_eq direction, counted, steps.there]
    omega

/-- The reading of a clock or a limit changes nothing that a search relies on. -/
theorem Started.congr (started : Started planner query search) (after : Search Exact X S)
    (trees : after.trees = search.trees) (best : after.best = search.best)
    (filter : after.filter = search.filter) :
    Started planner query after ∧ search.Extends after := by
  obtain ⟨makerState, _, pins, _, _, updates, meetings, seeded, startedAt, limit⟩ := after
  cases trees
  cases best
  cases filter
  exact ⟨⟨⟨started.underway.filter, started.underway.grown,
      ⟨started.underway.met.least, started.underway.met.best⟩, started.underway.looked,
      started.underway.exhausted⟩, started.suited, started.ready, started.home⟩,
    fun _ => .refl _, .inl ⟨rfl, fun _ _ _ => rfl⟩⟩

/-- A run keeps a started search going, whatever stops it. -/
theorem Started.run (lawful : planner.Lawful) (started : Started planner query search)
    (clock : Clock) :
    Started planner query (planner.run clock search) ∧
      search.Extends (planner.run clock search) := by
  apply planner.run_keeps (P := fun after => Started planner query after ∧ search.Extends after)
  · rintro after startedAt limit ⟨going, extends_⟩
    obtain ⟨timed, extendsTimed⟩ := going.congr { after with
      startedAt := startedAt
      limit := limit } rfl rfl rfl
    exact ⟨timed, extends_.trans extendsTimed⟩
  · rintro after direction ⟨going, extends_⟩
    obtain ⟨advanced, extendsOn, _⟩ := going.advance lawful direction
    exact ⟨advanced, extends_.trans extendsOn⟩
  · exact ⟨started, .refl search⟩

/-- Without limits a run ends a search. -/
theorem Started.run_finished (lawful : planner.Lawful) (started : Started planner query search)
    (noVisits : planner.settings.maxVisited = none) (noTime : planner.settings.timeoutMs = none)
    (clock : Clock) : (planner.run clock search).finished = true := by
  obtain ⟨timed, _⟩ := started.congr
    { search with startedAt := some (search.startedAt.getD (clock 0)) } rfl rfl rfl
  obtain ⟨last, runs, finished⟩ := Planner.runs_of_bounded (P := Started planner query)
    (fun after going => going.underway.visited_le lawful.network)
    (fun after going => (going.advance lawful after.cheaperDirection).1)
    (fun after going =>
      (going.advance lawful after.cheaperDirection).2.2.visited_or_finished) timed
  rw [Planner.run, runs.runToEnd? finished noVisits noTime]
  exact finished

end RouteSearch
