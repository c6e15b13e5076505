/-
This file proves that whatever is called, a search changes by single events, and that its trees
are consistent after each of them.
-/

import RouteSearch.Proofs.Consistency
import RouteSearch.Proofs.LeastMeeting

namespace RouteSearch

variable {W X S : Type} [Weight W]

namespace Planner

variable {planner : Planner W X S} {direction : Direction} {past more : List Event}
  {event : Event} {first search middle after : Search W X S} {makerState : S}

theorem Chronicle.trans (before : planner.Chronicle first past search)
    (later : planner.Chronicle search more after) :
    planner.Chronicle first (past ++ more) after := by
  induction later with
  | start =>
      rw [List.append_nil]
      exact before
  | next _ fires ih =>
      rw [← List.append_assoc]
      exact ih.next fires

theorem Fires.chronicle (fires : planner.Fires search event after) :
    planner.Chronicle search [event] after :=
  .next .start fires

/-- Planting the roots begins a query, and nothing else does. -/
theorem Fires.seeded (fires : planner.Fires search event after) :
    (∃ ends, event = .planted ends) ∧ search.seeded = false ∧ after.seeded = true ∨
      (∀ ends, event ≠ .planted ends) ∧ after.seeded = search.seeded := by
  cases fires with
  | @plant source target sourceWeight targetWeight now accepted =>
      exact .inl ⟨⟨_, rfl⟩, planner.unseeded_of_check accepted,
        (planner.planted_frame source sourceWeight target targetWeight now search).1⟩
  | pop popped => exact .inr ⟨nofun, rfl⟩
  | insert looks unknown recorded =>
      exact .inr ⟨nofun, (planner.record_touches recorded).seeded⟩
  | improve looks known recorded =>
      exact .inr ⟨nofun, (planner.record_touches recorded).seeded⟩
  | @meet direction node arc id tracks listed indexed =>
      obtain ⟨best, meetings, met⟩ := planner.meet_eq direction arc id search
      rw [met]
      exact .inr ⟨nofun, rfl⟩
  | finish direction => exact .inr ⟨nofun, rfl⟩
  | aside trees best seeded => exact .inr ⟨nofun, seeded⟩

/-- Roots are planted once at most, in a search on which no query was begun. -/
theorem Chronicle.seeded (chronicle : planner.Chronicle search more after) :
    (∀ ends, .planted ends ∉ more) ∧ after.seeded = search.seeded ∨
      search.seeded = false ∧ after.seeded = true ∧
        ∃ ends, ∀ other, .planted other ∈ more ↔ other = ends := by
  induction chronicle with
  | start => exact .inl ⟨nofun, rfl⟩
  | @next past middle event after before fires ih =>
      rcases fires.seeded with ⟨⟨ends, rfl⟩, unseeded, seeded⟩ | ⟨unplanted, same⟩
      · rcases ih with ⟨none, kept⟩ | ⟨_, begun, _⟩
        · refine .inr ⟨kept ▸ unseeded, seeded, ends, fun other => ?_⟩
          simp [none]
        · rw [unseeded] at begun
          cases begun
      · have here (other : Sides NodeId) :
            Event.planted other ∈ past ++ [event] ↔ .planted other ∈ past := by
          simp [Ne.symm (unplanted other)]
        rcases ih with ⟨none, kept⟩ | ⟨unseeded, begun, ends, once⟩
        · exact .inl ⟨fun ends => (here ends).not.mpr (none ends), same.trans kept⟩
        · exact .inr ⟨unseeded, same.trans begun, ends,
            fun other => (here other).trans (once other)⟩

/-- Events lead from one search to another. Roots are planted only for the queries that are asked
for. -/
def Evolves (planner : Planner W X S) (asked : Sides NodeId → Prop)
    (search after : Search W X S) : Prop :=
  ∃ events, planner.Chronicle search events after ∧ ∀ ends, .planted ends ∈ events → asked ends

namespace Evolves

variable {asked : Sides NodeId → Prop}

theorem refl (search : Search W X S) : planner.Evolves asked search search :=
  ⟨[], .start, nofun⟩

theorem trans (before : planner.Evolves asked first search)
    (later : planner.Evolves asked search after) : planner.Evolves asked first after := by
  obtain ⟨past, chronicle, planted⟩ := before
  obtain ⟨more, chronicleLater, plantedLater⟩ := later
  refine ⟨past ++ more, chronicle.trans chronicleLater, fun ends member => ?_⟩
  rcases List.mem_append.mp member with old | new
  · exact planted ends old
  · exact plantedLater ends new

theorem mono {other : Sides NodeId → Prop} (evolves : planner.Evolves asked search after)
    (wider : ∀ ends, asked ends → other ends) : planner.Evolves other search after := by
  obtain ⟨events, chronicle, planted⟩ := evolves
  exact ⟨events, chronicle, fun ends member => wider ends (planted ends member)⟩

theorem fires (fires : planner.Fires search event after)
    (planted : ∀ ends, event = .planted ends → asked ends) :
    planner.Evolves asked search after :=
  ⟨[event], fires.chronicle, fun ends member => planted ends (List.mem_singleton.mp member).symm⟩

theorem aside (trees : after.trees = search.trees) (best : after.best = search.best)
    (seeded : after.seeded = search.seeded) : planner.Evolves asked search after :=
  .fires (.aside trees best seeded) nofun

/-- A query is planted only while none was begun, and then one was. -/
theorem seeded (evolves : planner.Evolves asked search after) :
    planner.Evolves (fun ends => asked ends ∧ search.seeded = false ∧ after.seeded = true) search
      after := by
  obtain ⟨events, chronicle, planted⟩ := evolves
  refine ⟨events, chronicle, fun ends member => ⟨planted ends member, ?_⟩⟩
  rcases chronicle.seeded with ⟨none, _⟩ | ⟨unseeded, seeded, _⟩
  · exact absurd member (none ends)
  · exact ⟨unseeded, seeded⟩

/-- What a search evolves to can be told from its beginning. -/
theorem chronicle (evolves : planner.Evolves asked search after)
    (before : planner.Chronicle first past search) :
    ∃ events, planner.Chronicle first events after := by
  obtain ⟨more, later, _⟩ := evolves
  exact ⟨past ++ more, before.trans later⟩

end Evolves

/-- A route is the answer to a call if it can be read from the search that the call leaves. -/
theorem result_of_answer {clock : Clock} {call : Call W} {found : Route W}
    (answered : (planner.perform clock call search).1 = .route (some found)) :
    planner.result (planner.perform clock call search).2 = .ok (some found) := by
  have read {outcome : Except RoutingError (Option (Route W))}
      (isRoute : Answer.ofRoute outcome = .route (some found)) : outcome = .ok (some found) := by
    cases outcome with
    | error fault => cases isRoute
    | ok result =>
        cases isRoute
        rfl
  cases call with
  | start source sourceWeight target targetWeight =>
      unfold perform at answered
      dsimp only at answered
      split at answered <;> cases answered
  | run => cases answered
  | advance direction => cases answered
  | result => exact read answered
  | route source sourceEdge target targetEdge =>
      have isRoute : (planner.route source sourceEdge target targetEdge clock search).1 =
          .ok (some found) := read answered
      change planner.result (planner.route source sourceEdge target targetEdge clock search).2 = _
      by_cases seeded : search.seeded = true
      · rw [route, if_pos seeded] at isRoute
        cases isRoute
      · rw [route, if_neg seeded] at isRoute ⊢
        dsimp only at isRoute ⊢
        split at isRoute
        · cases isRoute
        · exact isRoute
  | pin direction edge => cases answered
  | restrict filter => cases answered

section Steps

variable {asked : Sides NodeId → Prop} (network : planner.network.Lawful)
  (maker : planner.maker.Lawful)

include network maker

/-- Looking over an arc is entering a label and looking for a meeting, if it is anything at
all. -/
theorem relax_evolves (chronicle : planner.Chronicle (.fresh makerState) past search)
    (step : Option (ArcFilter W)) {id : LabelId} {label : Label W X} {arc : Arc W}
    (listed : arc ∈ planner.network.arcs label.node)
    (retained : planner.Retains (search.tree direction) id label) :
    planner.Evolves asked search (planner.relax direction step id label search arc) ∧
      planner.Retains ((planner.relax direction step id label search arc).tree direction) id
        label := by
  rcases planner.relax_eq direction step id label search arc with
    same | ⟨written, mid, _, bounded, recorded, relaxed⟩
  · rw [same]
    exact ⟨.refl search, retained⟩
  have coherent := chronicle.coherent network maker
  have looks : planner.LooksOver direction id label arc search := ⟨listed, bounded, retained⟩
  obtain ⟨made, writes, edge, weight, _, far⟩ := coherent.record network maker looks recorded
  have kept : planner.Retains (mid.tree direction) id label :=
    retained.trans ((coherent.trees direction).retains network listed writes edge far
      (weight ▸ bounded))
  have entered : planner.Evolves asked search mid := by
    rcases writes.written with ⟨unknown, _⟩ | ⟨_, _, found, _⟩
    · exact .fires (.insert looks unknown recorded) nofun
    · exact .fires (.improve looks found recorded) nofun
  have met : planner.Evolves asked mid
      (if planner.settings.tracksMeeting then planner.meet direction arc written mid else mid) := by
    split
    · rename_i tracks
      exact .fires (.meet tracks listed writes.indexed) nofun
    · exact .refl mid
  rw [relaxed, Search.tree, trees_met]
  exact ⟨entered.trans met, kept⟩

/-- An expansion looks over one arc after another. -/
theorem expand_evolves (chronicle : planner.Chronicle (.fresh makerState) past search)
    (step : Option (ArcFilter W)) {id : LabelId} {label : Label W X}
    (atId : (search.tree direction).label? id = some label) :
    planner.Evolves asked search (planner.expand direction step id label search) := by
  have along : planner.Evolves asked search (planner.expand direction step id label search) ∧
      planner.Retains ((planner.expand direction step id label search).tree direction) id
        label := by
    apply Planner.expand_keeps (P := fun after => planner.Evolves asked search after ∧
      planner.Retains (after.tree direction) id label)
    · rintro middle arc listed ⟨evolves, retained⟩
      obtain ⟨events, reached⟩ := evolves.chronicle chronicle
      obtain ⟨relaxed, later⟩ := planner.relax_evolves network maker reached step listed retained
      exact ⟨evolves.trans relaxed, later⟩
    · exact ⟨.refl search, .of_label? atId⟩
  exact along.1

theorem advanceUnder_evolves (chronicle : planner.Chronicle (.fresh makerState) past search)
    (direction : Direction) (step : Option (ArcFilter W)) :
    planner.Evolves asked search (planner.advanceUnder direction step search).2 := by
  have advances := planner.advances direction step search
  generalize planner.advanceUnder direction step search = outcome at advances ⊢
  cases advances with
  | stuck empty => exact .fires (.finish direction) nofun
  | passed popped idle => exact .fires (.pop popped) nofun
  | @stopped id tree label popped atId beaten =>
      have finished : planner.Fires (search.withTree direction tree) (.finished direction)
          ((search.withTree direction tree).withTree direction
            (((search.withTree direction tree).tree direction).finish true)) :=
        .finish direction
      rw [Search.tree_withTree, Search.withTree_withTree] at finished
      exact .trans (.fires (.pop popped) nofun) (.fires finished nofun)
  | @expanded id tree label popped atId unbeaten =>
      have taken : planner.Fires search (.popped direction) (search.withTree direction tree) :=
        .pop popped
      refine .trans (.fires taken nofun)
        (planner.expand_evolves network maker (chronicle.next taken) step ?_)
      rw [Search.tree_withTree]
      exact atId

theorem follow_evolves (chronicle : planner.Chronicle (.fresh makerState) past search)
    (steps : List (Step W)) : planner.Evolves asked search (planner.follow steps search) := by
  induction steps generalizing past search with
  | nil => exact .refl search
  | cons step steps ih =>
      have stepped : planner.Evolves asked search
          (planner.advanceUnder step.direction step.filter search).2 :=
        planner.advanceUnder_evolves network maker chronicle step.direction step.filter
      obtain ⟨events, reached⟩ := stepped.chronicle chronicle
      exact stepped.trans (ih reached)

theorem run_evolves (chronicle : planner.Chronicle (.fresh makerState) past search)
    (clock : Clock) : planner.Evolves asked search (planner.run clock search) := by
  apply planner.run_keeps (P := planner.Evolves asked search)
  · intro middle startedAt limit evolves
    exact evolves.trans (.aside rfl rfl rfl)
  · intro middle direction evolves
    obtain ⟨events, reached⟩ := evolves.chronicle chronicle
    exact evolves.trans (planner.advanceUnder_evolves network maker reached direction none)
  · exact .refl search

/-- A query that is let through plants its roots, and takes its first steps. -/
theorem start_evolves (chronicle : planner.Chronicle (.fresh makerState) past search)
    {source target : NodeId} {sourceWeight targetWeight : W} {now : Nat} {begun : Search W X S}
    (accepted : planner.start source sourceWeight target targetWeight now search = .ok begun) :
    planner.Evolves (· = ⟨source, target⟩) search begun := by
  obtain ⟨rfl, checked⟩ := planner.start_eq_ok accepted
  have planted := Fires.plant sourceWeight targetWeight now checked
  rw [seed_eq_follow]
  refine .trans (.fires planted fun ends same => ?_)
    (planner.follow_evolves network maker (chronicle.next planted) _)
  cases same
  rfl

theorem perform_evolves (chronicle : planner.Chronicle (.fresh makerState) past search)
    (clock : Clock) (call : Call W) :
    planner.Evolves (fun ends => call.ends? = some ends) search
      (planner.perform clock call search).2 := by
  cases call with
  | start source sourceWeight target targetWeight =>
      unfold perform
      dsimp only
      split
      · exact .refl search
      · rename_i accepted
        refine (planner.start_evolves network maker chronicle accepted).mono ?_
        rintro ends rfl
        rfl
  | run => exact planner.run_evolves network maker chronicle clock
  | advance direction => exact planner.advanceUnder_evolves network maker chronicle direction none
  | result => exact .refl search
  | route source sourceEdge target targetEdge =>
      have pinned : planner.Evolves (· = ⟨source, target⟩) search
          { search with pins := ⟨sourceEdge, targetEdge⟩ } := .aside rfl rfl rfl
      obtain ⟨events, changed⟩ := pinned.chronicle chronicle
      have evolves : planner.Evolves (· = ⟨source, target⟩) search
          (planner.route source sourceEdge target targetEdge clock search).2 := by
        unfold route
        dsimp only
        split
        · exact .refl search
        · split
          · exact pinned
          · rename_i accepted
            have begun := planner.start_evolves network maker changed accepted
            obtain ⟨events, reached⟩ := begun.chronicle changed
            exact pinned.trans (begun.trans (planner.run_evolves network maker reached
              fun reading => clock (reading + 1)))
      refine evolves.mono ?_
      rintro ends rfl
      rfl
  | pin direction edge => exact .aside rfl rfl rfl
  | restrict filter => exact .aside rfl rfl rfl

/-- Whatever is called, a search evolves, and planted are only the roots of the query that one of
the calls begins. -/
theorem performAll_evolves (chronicle : planner.Chronicle (.fresh makerState) past search)
    (clock : Clock) (calls : List (Call W)) :
    planner.Evolves (planner.Begins clock calls search) search
      (planner.performAll clock calls search).2 := by
  induction calls generalizing past search with
  | nil => exact .refl search
  | cons call calls ih =>
      have performed := planner.perform_evolves network maker chronicle clock call
      obtain ⟨events, reached⟩ := performed.chronicle chronicle
      refine .trans (performed.seeded.mono ?_) ((ih reached).mono ?_)
      · rintro ends ⟨isAsked, unseeded, seeded⟩
        exact ⟨[], call, calls, rfl, isAsked, unseeded, seeded⟩
      · rintro ends ⟨before, other, rest, rfl, isAsked, unseeded, seeded⟩
        exact ⟨call :: before, other, rest, rfl, isAsked, unseeded, seeded⟩

/-- Every route that calls are answered with can be read from a moment of the search. -/
theorem Chronicle.answers (chronicle : planner.Chronicle (.fresh makerState) past search)
    (clock : Clock) (calls : List (Call W)) {found : Route W}
    (answered : .route (some found) ∈ (planner.performAll clock calls search).1) :
    ∃ events after, planner.Chronicle (.fresh makerState) events after ∧
      planner.result after = .ok (some found) := by
  induction calls generalizing past search with
  | nil => cases answered
  | cons call calls ih =>
      obtain ⟨events, reached⟩ :=
        (planner.perform_evolves network maker chronicle clock call).chronicle chronicle
      rcases List.mem_cons.mp answered with isFirst | later
      · exact ⟨events, _, reached, Planner.result_of_answer isFirst.symm⟩
      · exact ih reached later

end Steps

/-- Every later moment finds the labels again. -/
theorem Chronicle.persists (network : planner.network.Lawful) (maker : planner.maker.Lawful)
    (before : planner.Chronicle (.fresh makerState) past search)
    (later : planner.Chronicle search more after) (side : Direction) :
    planner.Persists (search.tree side) (after.tree side) := by
  induction later with
  | start => exact .refl _
  | next reached fires ih =>
      have coherent := (before.trans reached).coherent network maker
      exact ih.trans (coherent.persists network maker fires side)

end Planner

variable {planner : Planner W X S}

/-- Whatever is called and whatever the weights are, a search is made by single events, and at
every moment its trees are consistent. There are as many labels as keys once a query has begun, and
an edge-based root besides. From then on a label keeps its key, its node and, if states are edges,
its edge. -/
theorem performAll_consistent (list : EdgeList W)
    (network : planner.network = list.pack.network) (maker : planner.maker.Lawful) (clock : Clock)
    (calls : List (Call W)) (makerState : S) :
    (∃ events, planner.Chronicle (.fresh makerState) events
      (planner.performAll clock calls (.fresh makerState)).2) ∧
    ∀ past search, planner.Chronicle (.fresh makerState) past search → ∀ direction,
      Consistent planner direction past (search.tree direction) ∧
      (search.seeded = true → (search.tree direction).size =
        (search.tree direction).stateCount + planner.isEdgeBased.toNat) ∧
      ∀ more later, planner.Chronicle search more later →
        planner.Persists (search.tree direction) (later.tree direction) := by
  have lawful : planner.network.Lawful := network ▸ list.lawful_pack
  have created : planner.Chronicle (.fresh makerState) [] (.fresh makerState) := .start
  constructor
  · exact (planner.performAll_evolves lawful maker created clock calls).chronicle created
  · intro past search chronicle direction
    have coherent := chronicle.coherent lawful maker
    refine ⟨coherent.trees direction, fun seeded => ?_, fun more later after => ?_⟩
    · exact (coherent.trees direction).size_eq (coherent.rooted seeded direction)
    · exact chronicle.persists lawful maker after direction

theorem performAll_consistent_streets :
    (∃ events, Planner.overPaidTurns.Chronicle (.fresh ()) events
      (Planner.overPaidTurns.performAll (fun _ => 0)
        [.advance .forward, .start 0 (.finite (-1)) 2 .undefined,
          .restrict (some (ArcFilter.denying [1])), .advance .backward, .run] (.fresh ())).2) ∧
    ∀ past search, Planner.overPaidTurns.Chronicle (.fresh ()) past search → ∀ direction,
      Consistent Planner.overPaidTurns direction past (search.tree direction) ∧
      (search.seeded = true → (search.tree direction).size =
        (search.tree direction).stateCount + 1) ∧
      ∀ more later, Planner.overPaidTurns.Chronicle search more later →
        Planner.overPaidTurns.Persists (search.tree direction) (later.tree direction) :=
  performAll_consistent EdgeList.streets rfl LabelMaker.plain_lawful (fun _ => 0) _ ()

end RouteSearch
