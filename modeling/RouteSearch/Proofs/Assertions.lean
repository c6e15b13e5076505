/-
This file proves what a search takes for granted at every moment: that a label is new only under a
new key, that trees which share a key share the arc, and that the best meeting joins a way from the
source with one from the target.
-/

import RouteSearch.Proofs.Chronicle

namespace RouteSearch

variable {W X S : Type} [Weight W] {planner : Planner W X S} {direction : Direction}
  {past : List Event} {event : Event} {search next : Search W X S} {makerState : S}

omit [Weight W] in
/-- Where the chain of parents from a label ends, it ends at the root. -/
theorem Consistent.lineage_ends {tree : SearchTree W X}
    (consistent : Consistent planner direction past tree) {id : LabelId}
    {line : List (Label W X)} (chain : tree.Chain id line) :
    ∃ root, line.getLast? = some root ∧ tree.label? 0 = some root := by
  induction chain with
  | @root id label atId isRoot =>
      obtain ⟨rfl, _⟩ := consistent.root atId isRoot
      exact ⟨label, rfl, atId⟩
  | step atId isParent rest ih =>
      obtain ⟨root, isLast, atRoot⟩ := ih
      refine ⟨root, ?_, atRoot⟩
      rw [List.getLast?_cons, isLast]
      rfl

/-- The best meeting, if there is one, joins two labels on one node. -/
def Search.Joined (search : Search W X S) : Prop :=
  ∀ meeting, search.best = some meeting → ∃ label opposite,
    (search.tree .forward).label? meeting.ends.forward = some label ∧
    (search.tree .backward).label? meeting.ends.backward = some opposite ∧
    label.node = opposite.node

namespace Coherent

/-- Trees that share an edge-based key share the arc: the forward label stands at its end, and the
backward label at its start. -/
theorem shares_arc (coherent : Coherent planner past search) (network : planner.network.Lawful)
    (edgeBased : planner.isEdgeBased = true) {key : StateKey} {here there : LabelId}
    (found : (search.tree .forward).lookup? key = some here)
    (foundThere : (search.tree .backward).lookup? key = some there) :
    ∃ node, ∃ arc ∈ planner.network.arcs node,
      planner.settings.stateKind.key arc .forward = key ∧ ∃ label opposite,
      (search.tree .forward).label? here = some label ∧
      (search.tree .backward).label? there = some opposite ∧
      label.edge = arc.edge ∧ opposite.edge = arc.edge ∧
      label.node = arc.far ∧ opposite.node = arc.near := by
  have kind := planner.isEdgeBased_eq_true.mp edgeBased
  obtain ⟨inside, notRoot⟩ := ((coherent.trees .forward).indexed here).mp ⟨key, found⟩
  obtain ⟨insideThere, _⟩ := ((coherent.trees .backward).indexed there).mp ⟨key, foundThere⟩
  obtain ⟨label, _, holds⟩ := SearchTree.holds_of_lt inside
  obtain ⟨opposite, _, holdsThere⟩ := SearchTree.holds_of_lt insideThere
  cases isParent : label.parent with
  | none =>
      exact absurd ((coherent.trees .forward).root holds.label? isParent).1 (notRoot edgeBased)
  | some parent =>
      obtain ⟨above, _, arc, listed, edge, far, isKey⟩ :=
        (coherent.trees .forward).reached holds.label? isParent
      have sameKey := (coherent.trees .forward).injective isKey found
      obtain ⟨edgeThere, nearThere⟩ := (coherent.trees Direction.forward.opposite).behind_arc
        network kind listed (sameKey ▸ foundThere) holdsThere.label?
      exact ⟨_, arc, listed, sameKey, label, opposite, holds.label?, holdsThere.label?, edge,
        edgeThere, far, nearThere⟩

/-- A meeting over an arc joins labels on one node. -/
theorem meets (coherent : Coherent planner past search) (network : planner.network.Lawful)
    (joined : search.Joined) {node : NodeId} {arc : Arc W}
    (listed : arc ∈ planner.network.arcs node) {id : LabelId}
    (indexed : (search.tree direction).lookup?
      (planner.settings.stateKind.key arc direction) = some id) :
    (planner.meet direction arc id search).Joined := by
  obtain ⟨best, meetings, met⟩ := planner.meet_eq direction arc id search
  have trees : (planner.meet direction arc id search).trees = search.trees := by rw [met]
  have joins {here there : LabelId} {label opposite : Label W X} {weight : W}
      (atHere : (search.tree direction).label? here = some label)
      (atThere : (search.tree direction.opposite).label? there = some opposite)
      (sameNode : label.node = opposite.node)
      (isBest : (planner.meet direction arc id search).best =
        some ⟨.oriented direction here there, weight⟩) :
      (planner.meet direction arc id search).Joined := by
    intro meeting isMeeting
    rw [isBest, Option.some.injEq] at isMeeting
    subst isMeeting
    simp only [Search.tree, trees] at atHere atThere ⊢
    cases direction with
    | forward => exact ⟨label, opposite, atHere, atThere, sameNode⟩
    | backward => exact ⟨opposite, label, atThere, atHere, sameNode.symm⟩
  rcases planner.meet_proposes direction arc id search with
    same | ⟨here, there, label, opposite, weight, foundThere, atId, atThere, isBest, kinds⟩
  · intro meeting isMeeting
    simp only [Search.tree, trees]
    exact joined meeting (same ▸ isMeeting)
  · rcases kinds with ⟨nodeBased, rfl, _⟩ | ⟨edgeBased, isParent, _⟩
    · refine joins atId atThere ?_ isBest
      rw [(coherent.trees direction).node_eq nodeBased indexed atId,
        (coherent.trees direction.opposite).node_eq nodeBased foundThere atThere]
    · obtain ⟨_, _, parent, above, isAbove, atParent, near⟩ :=
        (coherent.trees direction).over_arc network edgeBased listed indexed atId
      rw [isParent, Option.some.injEq] at isAbove
      subst isAbove
      obtain ⟨_, nearThere⟩ := (coherent.trees direction.opposite).behind_arc network edgeBased
        listed foundThere atThere
      exact joins atParent atThere (near.trans nearThere.symm) isBest

/-- Every event leaves the best meeting on one node. -/
theorem joined (coherent : Coherent planner past search) (network : planner.network.Lawful)
    (maker : planner.maker.Lawful) (joined : search.Joined)
    (fires : planner.Fires search event next) : next.Joined := by
  have kept (best : next.best = search.best) : next.Joined := by
    intro meeting isMeeting
    obtain ⟨label, opposite, atHere, atThere, sameNode⟩ := joined meeting (best ▸ isMeeting)
    obtain ⟨later, atLater, node, _⟩ :=
      (coherent.persists network maker fires .forward).label? atHere
    obtain ⟨laterThere, atLaterThere, nodeThere, _⟩ :=
      (coherent.persists network maker fires .backward).label? atThere
    exact ⟨later, laterThere, atLater, atLaterThere, by rw [node, nodeThere, sameNode]⟩
  cases fires with
  | @plant source target sourceWeight targetWeight now accepted =>
      have blank := coherent.blank (planner.unseeded_of_check accepted)
      have planted := blank.planted_tree maker ⟨source, target⟩ ⟨sourceWeight, targetWeight⟩ now
      have roots (side : Direction) : ∃ root, ((planner.planted source sourceWeight target
          targetWeight now search).tree side).label? 0 = some root ∧
          root.node = (Sides.mk source target).get side := by
        obtain ⟨payload, finished, isPlanted⟩ := planted side
        rw [isPlanted]
        exact ⟨_, rfl, rfl⟩
      obtain ⟨root, atRoot, node⟩ := roots .forward
      obtain ⟨rootThere, atRootThere, nodeThere⟩ := roots .backward
      intro meeting isMeeting
      have best := blank.planted_best planner source sourceWeight target targetWeight now
      rw [isMeeting] at best
      split at best
      · rename_i sameEnds
        have ends : meeting.ends = .both 0 := by
          split at best
          · split at best
            · cases best
              rfl
            · cases best
          · split at best
            · cases best
            · cases best
              rfl
        rw [ends]
        exact ⟨root, rootThere, atRoot, atRootThere, node.trans (sameEnds.trans nodeThere.symm)⟩
      · cases best
  | pop popped => exact kept rfl
  | insert looks unknown recorded => exact kept (planner.record_best recorded)
  | improve looks known recorded => exact kept (planner.record_best recorded)
  | meet tracks listed indexed => exact coherent.meets network joined listed indexed
  | finish direction => exact kept rfl
  | aside trees best seeded => exact kept best

end Coherent

/-- What a search takes for granted after the events of the past. -/
structure Asserted (planner : Planner W X S) (past : List Event) (search : Search W X S) :
    Prop where
  /-- A label is new only under a key that leads to none, from which on the key leads to it. -/
  unknown : ∀ {direction key next}, planner.Fires search (.inserted direction key) next →
    (search.tree direction).lookup? key = none ∧
      (next.tree direction).lookup? key = some (search.tree direction).size
  /-- Trees that share an edge-based key share the arc that the key stands for, from one end of
  it to the other. -/
  shared : planner.isEdgeBased = true → ∀ {key here there},
    (search.tree .forward).lookup? key = some here →
    (search.tree .backward).lookup? key = some there →
    ∃ node, ∃ arc ∈ planner.network.arcs node,
      planner.settings.stateKind.key arc .forward = key ∧ ∃ label opposite,
      (search.tree .forward).label? here = some label ∧
      (search.tree .backward).label? there = some opposite ∧
      label.edge = arc.edge ∧ opposite.edge = arc.edge ∧
      label.node = arc.far ∧ opposite.node = arc.near
  /-- The best meeting joins two labels on one node. -/
  joined : search.Joined
  /-- Where the chains from the best meeting end, they end at the ends of the query. -/
  ended : ∀ {meeting}, search.best = some meeting → (∃ ends, .planted ends ∈ past) ∧
    ∀ ends, .planted ends ∈ past → ∀ side steps line,
      (search.tree side).lineageWithin steps (meeting.ends.get side) = some line →
        line.getLast?.map (·.node) = some (ends.get side)

/-- What a search takes for granted holds at every moment. -/
theorem Planner.Chronicle.asserted (network : planner.network.Lawful)
    (maker : planner.maker.Lawful) (chronicle : planner.Chronicle (.fresh makerState) past search) :
    Asserted planner past search := by
  have coherent := chronicle.coherent network maker
  have joined : search.Joined := by
    induction chronicle with
    | start => nofun
    | next before fires ih =>
        have earlier := before.coherent network maker
        exact earlier.joined network maker (ih earlier) fires
  refine ⟨fun fires => ?_, fun edgeBased _ _ _ => coherent.shares_arc network edgeBased, joined,
    fun {meeting} isMeeting => ?_⟩
  · cases fires with
    | insert looks unknown recorded =>
        obtain ⟨made, writes, _⟩ := coherent.record network maker looks recorded
        refine ⟨unknown, ?_⟩
        rcases writes.written with ⟨_, fresh, _⟩ | ⟨_, _, known, _⟩
        · rw [SearchTree.size, ← fresh]
          exact writes.indexed
        · rw [unknown] at known
          cases known
  · obtain ⟨label, _, atHere, _⟩ := joined meeting isMeeting
    have seeded : search.seeded = true := Bool.eq_true_of_not_eq_false (coherent.begun atHere)
    rcases chronicle.seeded with ⟨_, unseeded⟩ | ⟨_, _, ends, once⟩
    · rw [unseeded] at seeded
      cases seeded
    · refine ⟨⟨ends, (once ends).mpr rfl⟩, fun other isPlanted side steps line chain => ?_⟩
      obtain ⟨root, isLast, atRoot⟩ :=
        (coherent.trees side).lineage_ends (SearchTree.chain_of_lineageWithin chain)
      obtain ⟨planted, member, node⟩ := (coherent.trees side).planted atRoot
      rw [isLast, Option.map_some, node, (once planted).mp member, (once other).mp isPlanted]

/-- Whatever is called and whatever the weights are, a search is made by single events, and what it
takes for granted holds at every moment. The ends at which roots were planted are those of the
call that began the query. -/
theorem performAll_asserted (list : EdgeList W) (network : planner.network = list.pack.network)
    (maker : planner.maker.Lawful) (clock : Clock) (calls : List (Call W)) (makerState : S) :
    (∃ events, planner.Chronicle (.fresh makerState) events
        (planner.performAll clock calls (.fresh makerState)).2 ∧
      ∀ ends, .planted ends ∈ events → planner.Begins clock calls (.fresh makerState) ends) ∧
    ∀ past search, planner.Chronicle (.fresh makerState) past search →
      Asserted planner past search := by
  have lawful : planner.network.Lawful := network ▸ list.lawful_pack
  constructor
  · exact planner.performAll_evolves lawful maker .start clock calls
  · intro past search chronicle
    exact chronicle.asserted lawful maker

theorem performAll_asserted_streets :
    (∃ events, Planner.overPaidTurns.Chronicle (.fresh ()) events
        (Planner.overPaidTurns.performAll (fun _ => 0)
          [.advance .forward, .start 0 (.finite (-1)) 2 .undefined,
            .restrict (some (ArcFilter.denying [1])), .advance .backward, .run, .result]
          (.fresh ())).2 ∧
      ∀ ends, .planted ends ∈ events → Planner.overPaidTurns.Begins (fun _ => 0)
        [.advance .forward, .start 0 (.finite (-1)) 2 .undefined,
          .restrict (some (ArcFilter.denying [1])), .advance .backward, .run, .result]
        (.fresh ()) ends) ∧
    ∀ past search, Planner.overPaidTurns.Chronicle (.fresh ()) past search →
      Asserted Planner.overPaidTurns past search :=
  performAll_asserted EdgeList.streets rfl LabelMaker.plain_lawful _ _ _

end RouteSearch
