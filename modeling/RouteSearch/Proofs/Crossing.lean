/-
This file proves that an exhausted search has beaten every walk: somewhere along the walk one
arc leads from a state that the forward direction has settled to one that the backward direction
has.
-/

import RouteSearch.Proofs.Reach

namespace RouteSearch

variable {X S : Type} {planner : Planner Exact X S} {query : Query} {search : Search Exact X S}

/-- What a trail costs is a price. -/
theorem Trail.cost_isPrice (fair : planner.pricing.Fair planner.network) {direction : Direction}
    {trail : Trail} {node : NodeId} (leads : trail.Leads planner.network query direction node) :
    (trail.cost planner.pricing direction).IsPrice := by
  induction trail generalizing node with
  | nil => exact le_refl (0 : Rat)
  | cons arc before ih => exact (fair.price leads.1 leads.2.2.1.1 _).add (ih leads.2.2.2)

theorem Trail.cost_nonneg (fair : planner.pricing.Fair planner.network) {direction : Direction}
    {trail : Trail} {node : NodeId} (leads : trail.Leads planner.network query direction node)
    {cost : Rat} (isCost : trail.cost planner.pricing direction = .finite cost) : 0 ≤ cost :=
  (Trail.cost_isPrice fair leads).nonneg isCost

/-- What the prices along a walk over an arc come to, cut before and after the arc. -/
structure Crosses (planner : Planner Exact X S) (before : Trail) (arc : Arc Exact)
    (rest : Walk Exact) (left right step back alone : Rat) : Prop where
  left : before.cost planner.pricing .forward = .finite left
  right : Trail.cost planner.pricing .backward (rest.map Arc.flip) = .finite right
  step : planner.pricing.cost arc .forward before.lastEdge = .finite step
  back : planner.pricing.cost arc.flip .backward (Trail.lastEdge (rest.map Arc.flip)) =
    .finite back
  alone : planner.pricing.cost arc .forward noEdge = .finite alone

/-- No part of a walk has a negative price, and a turn onto the arc does not make it cheaper. -/
theorem Crosses.bounds (lawful : planner.Lawful) {before : Trail} {arc : Arc Exact}
    {rest : Walk Exact} {left right step back alone : Rat}
    (crosses : Crosses planner before arc rest left right step back alone)
    (leadsLeft : Trail.Leads planner.network query .forward (arc :: before) arc.far)
    (leadsRight : Trail.Leads planner.network query .backward ((arc :: rest).map Arc.flip)
      arc.near) :
    (0 ≤ left ∧ 0 ≤ right ∧ 0 ≤ step) ∧ alone ≤ step ∧ alone ≤ back := by
  have member := leadsLeft.1
  have isOpen := leadsLeft.2.2.1.1
  obtain ⟨least, isLeast, leastStep⟩ := lawful.pricing.least member isOpen crosses.step
  have sameLeast : least = alone := Exact.finite.inj (isLeast.symm.trans crosses.alone)
  obtain ⟨leastBack, isLeastBack, atMostBack⟩ := lawful.pricing.least leadsRight.1
    leadsRight.2.2.1.1 crosses.back
  have sameBack : leastBack = alone := Exact.finite.inj
    (isLeastBack.symm.trans ((lawful.pricing.travel member isOpen).trans crosses.alone))
  exact ⟨⟨Trail.cost_nonneg lawful.pricing leadsLeft.2.2.2 crosses.left,
    Trail.cost_nonneg lawful.pricing leadsRight.2.2.2 crosses.right,
    (lawful.pricing.price member isOpen _).nonneg crosses.step⟩, sameLeast ▸ leastStep,
    sameBack ▸ atMostBack⟩

/-- An arc between settled states lets the trees join for no more than the walk over it. -/
theorem Started.crossing (lawful : planner.Lawful) (started : Started planner query search)
    (simple : planner.settings.stateKind = .nodeBased → planner.Simple)
    (tracks : planner.settings.tracksMeeting = true)
    (weights : ∀ side, 0 ≤ query.weights.get side) {before : Trail} {arc : Arc Exact}
    {rest : Walk Exact} {left right step back alone : Rat}
    (crosses : Crosses planner before arc rest left right step back alone)
    (leadsLeft : Trail.Leads planner.network query .forward (arc :: before) arc.far)
    (leadsRight : Trail.Leads planner.network query .backward ((arc :: rest).map Arc.flip)
      arc.near)
    (settlesLeft : Settles planner .forward (search.tree .forward) before
      (left + query.weights.forward))
    (settlesRight : Settles planner .backward (search.tree .backward) (rest.map Arc.flip)
      (right + query.weights.backward)) :
    search.Beats (left + query.weights.forward + step + (right + query.weights.backward + back) -
      alone) := by
  have underway := started.underway
  have member := leadsLeft.1
  have isOpen := leadsLeft.2.2.1.1
  obtain ⟨⟨leftPositive, rightPositive, stepPositive⟩, leastStep, leastBack⟩ :=
    crosses.bounds lawful leadsLeft leadsRight
  have sourcePositive : 0 ≤ query.weights.forward := weights .forward
  have targetPositive : 0 ≤ query.weights.backward := weights .backward
  by_contra unbeaten
  obtain ⟨id, label, value, atBefore, holds, isValue, atMost⟩ := settlesLeft
  obtain ⟨other, known, found, _, atKey, held, isFound, noMore⟩ := underway.known_behind lawful
    started.suited simple leadsLeft atBefore holds isValue crosses.step
    fun beats => unbeaten (beats.mono (by linarith))
  obtain ⟨there, opposite, far, atRest, holdsThere, isFar, atMostFar⟩ := settlesRight
  cases kind : planner.settings.stateKind with
  | nodeBased =>
      obtain ⟨atNode, _⟩ := (underway.grown .backward).at_trail lawful.network
        leadsRight.2.2.2 atRest holdsThere
      have foundThere := (underway.grown .backward).lookup_node kind holdsThere
      rw [atNode] at foundThere
      rw [kind] at atKey
      have overlaps : planner.Overlap arc.far 0 := by
        unfold Planner.Overlap
        rw [kind]
      have joins : Joins planner search.trees _ _ _ := .of_labels atKey foundThere held.label?
        holdsThere.label? isFound isFar overlaps
      exact unbeaten ((underway.met.least tracks joins).mono (by linarith))
  | edgeBased =>
      obtain ⟨otherThere, knownThere, foundThere, _, atKeyThere, heldThere, isFoundThere,
        noMoreThere⟩ := underway.known_behind lawful started.suited simple
          (⟨leadsRight.1, rfl, leadsRight.2.2⟩) atRest holdsThere isFar crosses.back
          fun beats => unbeaten (beats.mono (by linarith))
      rw [kind, StateKind.key_flip] at atKeyThere
      rw [kind] at atKey
      have overlaps := planner.overlap_of_cost lawful.network lawful.pricing.level kind member
        isOpen crosses.alone
      have joins : Joins planner search.trees _ _ _ := .of_labels atKey atKeyThere held.label?
        heldThere.label? isFound isFoundThere overlaps
      exact unbeaten ((underway.met.least tracks joins).mono (by linarith))

/-- The price of a walk over an arc, put together from both sides of the arc. -/
theorem Crosses.of_walk (lawful : planner.Lawful) {before : Trail} {arc : Arc Exact}
    {rest : Walk Exact} {node target : NodeId}
    (connects : Walk.Connects planner.network node (arc :: rest) target)
    (isOpen : ∀ other ∈ arc :: rest, other.isOpen .forward = true) {cost : Rat}
    (isCost : Walk.cost planner.pricing noEdge (before.reverse ++ arc :: rest) = .finite cost) :
    ∃ left right step back alone, Crosses planner before arc rest left right step back alone ∧
      left + step + right + back = cost + alone := by
  have split := isCost
  rw [Trail.cost_reverse_append, Walk.cost] at split
  obtain ⟨_, _, isLeft, isAfter, _⟩ := Exact.add_eq_finite split
  obtain ⟨_, _, isStep, _, _⟩ := Exact.add_eq_finite isAfter
  obtain ⟨alone, isAlone, _⟩ := lawful.pricing.least connects.1
    (isOpen arc List.mem_cons_self) isStep
  have both := Walk.cost_over lawful.pricing before connects isOpen
  rw [isCost, isAlone, Exact.finite_add, Trail.cost, List.map_cons, Trail.cost] at both
  obtain ⟨_, _, isForward, isBackward, sum⟩ := Exact.add_eq_finite both
  obtain ⟨step, left, isStep, isLeft, rfl⟩ := Exact.add_eq_finite isForward
  obtain ⟨back, right, isBack, isRight, rfl⟩ := Exact.add_eq_finite isBackward
  exact ⟨left, right, step, back, alone, ⟨isLeft, isRight, isStep, isBack, isAlone⟩,
    by linarith⟩

/-- No pair of open labels can improve the best meeting. -/
def Search.Exhausted (search : Search Exact X S) : Prop :=
  ∀ source target, Waits (search.tree .forward) source → Waits (search.tree .backward) target →
    search.Beats (source + target)

/-- Whatever has ended a search, it was exhausted. -/
theorem Started.exhausted (lawful : planner.Lawful) (started : Started planner query search)
    (weights : ∀ side, 0 ≤ query.weights.get side) (finished : search.finished = true) :
    search.Exhausted := by
  have underway := started.underway
  have positive {side : Direction} {id : LabelId} {label : Label Exact X} {settled : Bool}
      {value : Rat} (holds : (search.tree side).Holds id label settled)
      (isValue : label.weight = .finite value) : 0 ≤ value := by
    obtain ⟨trail, branch⟩ := (underway.grown side).branch holds
    obtain ⟨cost, root, isCost, isRoot, rfl⟩ :=
      Exact.add_eq_finite (branch.weight_eq.symm.trans isValue)
    rw [← Exact.finite.inj isRoot]
    exact add_nonneg (Trail.cost_nonneg lawful.pricing (branch.leads lawful.network) isCost)
      (weights side)
  have beaten (side : Direction) {id : LabelId} {label : Label Exact X} {value : Rat}
      (isFinished : (search.tree side).finished = true)
      (holds : (search.tree side).Holds id label false) (isValue : label.weight = .finite value) :
      search.Beats value := by
    obtain ⟨again, isAgain, beats⟩ := underway.exhausted isFinished holds
    rw [isValue, Exact.finite.injEq] at isAgain
    exact isAgain ▸ beats
  rintro source target ⟨here, forward, sourceWeight, holdsHere, isSource, atMostSource⟩
    ⟨there, backward, targetWeight, holdsThere, isTarget, atMostTarget⟩
  have sourcePositive := positive holdsHere isSource
  have targetPositive := positive holdsThere isTarget
  unfold Search.finished at finished
  rw [Bool.or_eq_true, Bool.or_eq_true] at finished
  rcases finished with (isFinished | isFinished) | isBeaten
  · exact (beaten .forward isFinished holdsHere isSource).mono (by linarith)
  · exact (beaten .backward isFinished holdsThere isTarget).mono (by linarith)
  · obtain ⟨boundHere, orderedHere⟩ := (underway.grown .forward).ordered
    obtain ⟨boundThere, orderedThere⟩ := (underway.grown .backward).ordered
    rw [show search.trees.forward.lastWeight = _ from orderedHere.last,
      show search.trees.backward.lastWeight = _ from orderedThere.last, Exact.finite_add,
      underway.met.proper.isBeaten_iff] at isBeaten
    obtain ⟨leastHere, aheadHere, isLeastHere⟩ := orderedHere.ahead holdsHere
    obtain ⟨leastThere, aheadThere, isLeastThere⟩ := orderedThere.ahead holdsThere
    rw [isSource, Exact.finite.injEq] at isLeastHere
    rw [isTarget, Exact.finite.injEq] at isLeastThere
    exact isBeaten.mono (by linarith)

/-- An exhausted search has beaten every walk whose first part it has settled. The induction is
on the rest of the walk: the next arc crosses over, or its far side is settled as well, or both
directions have open labels that together weigh no more than the walk. -/
theorem Started.beats_rest (lawful : planner.Lawful) (started : Started planner query search)
    (simple : planner.settings.stateKind = .nodeBased → planner.Simple)
    (plain : planner.network.Plain) (unoriented : ArcFilter.Unoriented planner.network query.filter)
    (tracks : planner.settings.tracksMeeting = true)
    (weights : ∀ side, 0 ≤ query.weights.get side) (exhausted : search.Exhausted)
    (roots : ∀ side, ∃ root, (search.tree side).Holds 0 root true) (before : Trail)
    {rest : Walk Exact} {cost left : Rat} (nonempty : rest ≠ [])
    (admissible : Walk.Admissible planner.network query.filter query.pins query.ends.forward
      query.ends.backward (before.reverse ++ rest))
    (isCost : Walk.cost planner.pricing noEdge (before.reverse ++ rest) = .finite cost)
    (isLeft : before.cost planner.pricing .forward = .finite left)
    (settles : Settles planner .forward (search.tree .forward) before
      (left + query.weights.forward)) :
    search.Beats (cost + (query.weights.forward + query.weights.backward)) := by
  induction rest generalizing before left with
  | nil => exact absurd rfl nonempty
  | cons arc rest ih =>
      have underway := started.underway
      have regroup : before.reverse ++ arc :: rest = (arc :: before).reverse ++ rest := by simp
      obtain ⟨near, _, leadsRight⟩ :=
        Trail.leads_of_admissible lawful.network plain unoriented _ _ admissible
      obtain ⟨far, leadsLeft, _⟩ := Trail.leads_of_admissible lawful.network plain unoriented _ _
        (regroup ▸ admissible)
      rw [List.reverse_reverse] at leadsLeft
      have atFar : far = arc.far := leadsLeft.2.1
      have atNear : near = arc.near := leadsRight.2.1
      subst atFar atNear
      obtain ⟨connects, allowed, _⟩ :=
        (Trail.leads_backward lawful.network plain unoriented _ _).mp leadsRight
      obtain ⟨leftAgain, right, step, back, alone, crosses, sum⟩ :=
        Crosses.of_walk lawful connects (fun other member => (allowed other member).1) isCost
      have sameLeft : leftAgain = left := Exact.finite.inj (crosses.left.symm.trans isLeft)
      subst sameLeft
      obtain ⟨⟨leftPositive, rightPositive, stepPositive⟩, _, leastBack⟩ :=
        crosses.bounds lawful leadsLeft leadsRight
      have sourcePositive : 0 ≤ query.weights.forward := weights .forward
      have targetPositive : 0 ≤ query.weights.backward := weights .backward
      by_contra unbeaten
      have notSettled : ¬ Settles planner .backward (search.tree .backward) (rest.map Arc.flip)
          (right + query.weights.backward) := fun settlesRight =>
        unbeaten ((started.crossing lawful simple tracks weights crosses leadsLeft leadsRight
          settles settlesRight).mono (by linarith))
      have isStepped : Trail.cost planner.pricing .forward (arc :: before) =
          .finite (step + leftAgain) := by
        rw [Trail.cost, crosses.step, crosses.left, Exact.finite_add]
      have waitsRight := (underway.settles_or_waits lawful started.suited simple
        leadsRight.2.2.2 crosses.right fun beats => unbeaten
          (beats.mono (by change right + query.weights.backward ≤ _; linarith))).resolve_left
            notSettled
      have restNonempty : rest ≠ [] := by
        rintro rfl
        obtain ⟨root, holds⟩ := roots .backward
        have isRoot := (underway.grown .backward).eq_root holds
        refine notSettled ⟨0, root, query.weights.backward, rfl, holds, isRoot.weight, ?_⟩
        linarith
      rcases underway.settles_or_waits lawful started.suited simple leadsLeft isStepped
        (fun beats => unbeaten (beats.mono
          (by change step + leftAgain + query.weights.forward ≤ _; linarith))) with
        settlesLeft | waitsLeft
      · exact unbeaten (ih _ restNonempty (regroup ▸ admissible) (regroup ▸ isCost) isStepped
          settlesLeft)
      · exact unbeaten ((exhausted _ _ waitsLeft waitsRight).mono (by
          change step + leftAgain + query.weights.forward + (right + query.weights.backward) ≤ _
          linarith))

/-- An exhausted search has beaten every walk that its query admits. -/
theorem Started.beats_walk (lawful : planner.Lawful) (started : Started planner query search)
    (simple : planner.settings.stateKind = .nodeBased → planner.Simple)
    (plain : planner.network.Plain) (unoriented : ArcFilter.Unoriented planner.network query.filter)
    (tracks : planner.settings.tracksMeeting = true)
    (weights : ∀ side, 0 ≤ query.weights.get side) (exhausted : search.Exhausted)
    {walk : Walk Exact} {cost : Rat}
    (admissible : Walk.Admissible planner.network query.filter query.pins query.ends.forward
      query.ends.backward walk)
    (isCost : Walk.cost planner.pricing noEdge walk = .finite cost) :
    search.Beats (cost + (query.weights.forward + query.weights.backward)) := by
  have sourcePositive : 0 ≤ query.weights.forward := weights .forward
  have targetPositive : 0 ≤ query.weights.backward := weights .backward
  rcases started.ready with roots | ⟨beats, _⟩
  · cases walk with
    | nil =>
        cases isCost
        rw [zero_add]
        refine started.home admissible.connects (fun side => ?_) (.inr tracks)
        rw [Option.eq_none_iff_forall_ne_some]
        intro pin isPin
        cases side with
        | forward => cases admissible.meetsPins.1 pin isPin
        | backward => cases admissible.meetsPins.2 pin isPin
    | cons arc rest =>
        obtain ⟨root, holds⟩ := roots .forward
        have isRoot := (started.underway.grown .forward).eq_root holds
        refine started.beats_rest lawful simple plain unoriented tracks weights exhausted roots
          [] (List.cons_ne_nil arc rest) admissible isCost rfl ?_
        exact ⟨0, root, query.weights.forward, rfl, holds, isRoot.weight, (zero_add _).ge⟩
  · refine beats.mono (add_nonneg ?_ (add_nonneg sourcePositive targetPositive))
    obtain ⟨_, leads, _⟩ := Trail.leads_of_admissible lawful.network plain unoriented
      walk [] ((List.append_nil walk).symm ▸ admissible)
    apply Trail.cost_nonneg lawful.pricing leads
    rw [← Trail.cost_reverse, List.reverse_reverse, isCost]

end RouteSearch
