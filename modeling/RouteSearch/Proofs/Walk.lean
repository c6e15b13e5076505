/-
This file follows a way from both of its ends: the trail that a search direction leaves behind
it, what the trail costs, and how the trails of both directions make up a walk.
-/

import RouteSearch.Walk
import RouteSearch.Proofs.Pricing

namespace RouteSearch

/-- What a query asks for. `weights` stand at its ends, and `pins` name the original edges that
the first step of each direction has to take. -/
structure Query where
  ends : Sides NodeId
  weights : Sides Rat
  pins : Sides (Option EdgeId)
  filter : Option (ArcFilter Exact)

/-- Whether a direction may take an arc, as its first step or as a later one. -/
def Query.Allows (query : Query) (direction : Direction) (isFirst : Bool) (arc : Arc Exact) :
    Prop :=
  arc.isOpen direction = true ∧ query.filter.all (fun accepts => accepts arc) = true ∧
    (isFirst = true → ∀ pin ∈ query.pins.get direction,
      ArcFilter.pinned pin direction arc = true)

/-- The arcs a direction has looked over on its way from its end, the latest one first. -/
abbrev Trail := List (Arc Exact)

namespace Trail

/-- The edge a direction has come over at last. -/
def lastEdge : Trail → EdgeId
  | [] => noEdge
  | arc :: _ => arc.edge

/-- The trail leads from the query's end in `direction` to the node. -/
def Leads (network : Network Exact) (query : Query) (direction : Direction) :
    Trail → NodeId → Prop
  | [], node => node = query.ends.get direction
  | arc :: before, node => arc ∈ network.arcs arc.near ∧ node = arc.far ∧
      query.Allows direction before.isEmpty arc ∧ Leads network query direction before arc.near

/-- The price of a trail as its direction counts it. -/
def cost (pricing : Pricing Exact) (direction : Direction) : Trail → Exact
  | [] => .finite 0
  | arc :: before =>
      pricing.cost arc direction (lastEdge before) + cost pricing direction before

/-- A forward trail costs as much as the walk along it, and what follows is priced after it. -/
theorem cost_reverse_append (pricing : Pricing Exact) (trail : Trail) (rest : Walk Exact) :
    Walk.cost pricing noEdge (trail.reverse ++ rest) =
      cost pricing .forward trail + Walk.cost pricing (lastEdge trail) rest := by
  induction trail generalizing rest with
  | nil => exact (Exact.zero_add _).symm
  | cons arc before ih =>
      rw [List.reverse_cons, List.append_assoc, List.singleton_append, ih]
      simp only [Walk.cost, cost, lastEdge]
      ac_rfl

theorem cost_reverse (pricing : Pricing Exact) (trail : Trail) :
    Walk.cost pricing noEdge trail.reverse = cost pricing .forward trail := by
  have whole := cost_reverse_append pricing trail []
  rwa [List.append_nil, Walk.cost, Exact.zero_eq, Exact.add_zero] at whole

end Trail

namespace Walk

variable {network : Network Exact} {pricing : Pricing Exact}

/-- Both directions price a walk alike. -/
theorem cost_eq_trail (fair : pricing.Fair network) {source target : NodeId}
    {walk : Walk Exact} (connects : Connects network source walk target)
    (isOpen : ∀ arc ∈ walk, arc.isOpen .forward = true) :
    Trail.cost pricing .backward (walk.map Arc.flip) = cost pricing noEdge walk := by
  induction walk generalizing source with
  | nil => rfl
  | cons arc rest ih =>
      have openRest := fun other member => isOpen other (List.mem_cons_of_mem _ member)
      have tail := ih connects.2 openRest
      have openArc := isOpen arc List.mem_cons_self
      cases rest with
      | nil =>
          have same := fair.travel connects.1 openArc
          simp only [List.map_cons, List.map_nil, Trail.cost, Trail.lastEdge, cost, same]
          rfl
      | cons next rest =>
          have exchange := fair.turn connects.1 connects.2.1 openArc
            (openRest next List.mem_cons_self)
          rw [List.map_cons, Trail.cost, tail, cost, cost, cost]
          change pricing.cost arc.flip .backward next.edge +
            (pricing.cost next .forward noEdge + cost pricing next.edge rest) = _
          rw [← Exact.add_assoc, ← exchange]
          ac_rfl

/-- The trails of both directions up to the far side of an arc price that arc twice. -/
theorem cost_over (fair : pricing.Fair network) (before : Trail) {arc : Arc Exact}
    {rest : Walk Exact} {node target : NodeId}
    (connects : Connects network node (arc :: rest) target)
    (isOpen : ∀ other ∈ arc :: rest, other.isOpen .forward = true) :
    Trail.cost pricing .forward (arc :: before) +
        Trail.cost pricing .backward ((arc :: rest).map Arc.flip) =
      cost pricing noEdge (before.reverse ++ arc :: rest) + pricing.cost arc .forward noEdge := by
  rw [cost_eq_trail fair connects isOpen, Trail.cost_reverse_append, cost, cost, Trail.cost]
  ac_rfl

theorem cost_turnFree (turnFree : pricing.TurnFree) (previous : EdgeId) (walk : Walk Exact) :
    cost pricing previous walk = cost pricing noEdge walk := by
  cases walk with
  | nil => rfl
  | cons arc rest => rw [cost, cost, turnFree]

theorem Connects.append {source middle target : NodeId} {first second : Walk Exact}
    (left : Connects network source first middle)
    (right : Connects network middle second target) :
    Connects network source (first ++ second) target := by
  induction first generalizing source with
  | nil =>
      cases left
      exact right
  | cons arc rest ih => exact ⟨left.1, ih left.2⟩

theorem Connects.split {source target : NodeId} {first second : Walk Exact}
    (whole : Connects network source (first ++ second) target) :
    ∃ middle, Connects network source first middle ∧
      Connects network middle second target := by
  induction first generalizing source with
  | nil => exact ⟨source, rfl, whole⟩
  | cons arc rest ih =>
      obtain ⟨middle, left, right⟩ := ih whole.2
      exact ⟨middle, ⟨whole.1, left⟩, right⟩

theorem Connects.listed {source target : NodeId} {walk : Walk Exact} {arc : Arc Exact}
    (connects : Connects network source walk target) (member : arc ∈ walk) :
    ∃ node, arc ∈ network.arcs node := by
  obtain ⟨before, rest, rfl⟩ := List.append_of_mem member
  obtain ⟨middle, _, right⟩ := connects.split
  exact ⟨middle, right.1⟩

theorem connects_concat {source target : NodeId} {walk : Walk Exact} {arc : Arc Exact} :
    Connects network source (walk ++ [arc]) target ↔
      ∃ middle, Connects network source walk middle ∧ arc ∈ network.arcs middle ∧
        arc.far = target := by
  constructor
  · intro whole
    obtain ⟨middle, left, right⟩ := whole.split
    exact ⟨middle, left, right.1, right.2⟩
  · rintro ⟨middle, left, member, atEnd⟩
    exact left.append ⟨member, atEnd⟩

/-- The walks that a query may be answered with. -/
structure Admissible {W : Type} [Weight W] (network : Network W) (filter : Option (ArcFilter W))
    (pins : Sides (Option EdgeId)) (source target : NodeId) (walk : Walk W) : Prop where
  connects : Connects network source walk target
  allowed : Allowed filter walk
  meetsPins : MeetsPins pins walk

/-- No admissible walk costs less than `weight`, and one costs just as much unless the weight is
infinite. -/
def IsLeastCost (network : Network Exact) (pricing : Pricing Exact)
    (filter : Option (ArcFilter Exact)) (pins : Sides (Option EdgeId)) (source target : NodeId)
    (weight : Exact) : Prop :=
  (∀ walk, Admissible network filter pins source target walk →
    Weight.atMost weight (cost pricing noEdge walk) = true) ∧
  (weight ≠ .infinity → ∃ walk, Admissible network filter pins source target walk ∧
    cost pricing noEdge walk = weight)

end Walk

/-- The verdict of a filter does not depend on the end an edge is seen from. -/
def ArcFilter.Unoriented (network : Network Exact) (filter : Option (ArcFilter Exact)) : Prop :=
  ∀ node, ∀ arc ∈ network.arcs node,
    filter.all (fun accepts => accepts arc.flip) = filter.all (fun accepts => accepts arc)

/-- No edge stands for a chain of original edges. -/
def Network.Plain (network : Network Exact) : Prop :=
  ∀ node, ∀ arc ∈ network.arcs node, arc.firstEdge = arc.lastEdge

/-- Stored edges stand for themselves. -/
theorem EdgeList.plain_pack (list : EdgeList Exact) : list.pack.network.Plain := by
  intro node arc member
  obtain ⟨edge, record, reversed, _, rfl, _⟩ := EdgeList.mem_arcs_pack.mp member
  rfl

namespace Trail

variable {network : Network Exact} {query : Query}

theorem allows_forward {isFirst : Bool} {arc : Arc Exact} :
    query.Allows .forward isFirst arc ↔ (arc.isOpen .forward = true ∧
      query.filter.all (fun accepts => accepts arc) = true) ∧
      (isFirst = true → ∀ pin ∈ query.pins.forward, arc.firstEdge = pin) := by
  simp [Query.Allows, ArcFilter.pinned, Sides.get, and_assoc]

/-- A forward trail is a walk from the source that begins over the forward pin. -/
theorem leads_forward (lawful : network.Lawful) (trail : Trail) (node : NodeId) :
    Leads network query .forward trail node ↔
      Walk.Connects network query.ends.forward trail.reverse node ∧
      Walk.Allowed query.filter trail ∧
      ∀ pin ∈ query.pins.forward, ∀ arc ∈ trail.getLast?, arc.firstEdge = pin := by
  induction trail generalizing node with
  | nil =>
      simp only [Leads, Walk.Connects, Walk.Allowed, Sides.get, List.reverse_nil, List.not_mem_nil,
        false_implies, implies_true, List.getLast?_nil, Option.mem_def, reduceCtorEq, and_true]
      exact eq_comm
  | cons arc before ih =>
      have firstStep : (∀ pin ∈ query.pins.forward, ∀ other ∈ (arc :: before).getLast?,
          other.firstEdge = pin) ↔
          (before.isEmpty = true → ∀ pin ∈ query.pins.forward, arc.firstEdge = pin) ∧
          ∀ pin ∈ query.pins.forward, ∀ other ∈ before.getLast?, other.firstEdge = pin := by
        cases before <;> simp
      rw [Leads, allows_forward, ih, firstStep, List.reverse_cons, Walk.connects_concat]
      unfold Walk.Allowed
      rw [List.forall_mem_cons]
      constructor
      · rintro ⟨member, rfl, ⟨usable, pinned⟩, connects, allowed, pinnedBefore⟩
        exact ⟨⟨_, connects, member, rfl⟩, ⟨usable, allowed⟩, pinned, pinnedBefore⟩
      · rintro ⟨⟨middle, connects, member, rfl⟩, ⟨usable, allowed⟩, pinned, pinnedBefore⟩
        obtain rfl := lawful.near_eq member
        exact ⟨member, rfl, ⟨usable, pinned⟩, connects, allowed, pinnedBefore⟩

theorem allows_backward {isFirst : Bool} {arc : Arc Exact} :
    query.Allows .backward isFirst arc ↔ (arc.isOpen .backward = true ∧
      query.filter.all (fun accepts => accepts arc) = true) ∧
      (isFirst = true → ∀ pin ∈ query.pins.backward, arc.lastEdge = pin) := by
  simp [Query.Allows, ArcFilter.pinned, Sides.get, and_assoc]

/-- A backward trail is a walk to the target that ends over the backward pin. -/
theorem leads_backward (lawful : network.Lawful) (plain : network.Plain)
    (unoriented : ArcFilter.Unoriented network query.filter) (walk : Walk Exact)
    (node : NodeId) :
    Leads network query .backward (walk.map Arc.flip) node ↔
      Walk.Connects network node walk query.ends.backward ∧
      Walk.Allowed query.filter walk ∧
      ∀ pin ∈ query.pins.backward, ∀ arc ∈ walk.getLast?, arc.lastEdge = pin := by
  induction walk generalizing node with
  | nil => simp [Leads, Walk.Connects, Walk.Allowed, Sides.get]
  | cons arc rest ih =>
      have lastStep : (∀ pin ∈ query.pins.backward, ∀ other ∈ (arc :: rest).getLast?,
          other.lastEdge = pin) ↔
          (rest.isEmpty = true → ∀ pin ∈ query.pins.backward, arc.lastEdge = pin) ∧
          ∀ pin ∈ query.pins.backward, ∀ other ∈ rest.getLast?, other.lastEdge = pin := by
        cases rest <;> simp
      rw [List.map_cons, Leads, allows_backward, List.isEmpty_map, ih, lastStep, Walk.Connects]
      unfold Walk.Allowed
      rw [List.forall_mem_cons]
      constructor
      · rintro ⟨member, rfl, ⟨usable, pinned⟩, connects, allowed, pinnedRest⟩
        have forth := lawful.flip_mem member
        rw [Arc.flip_flip] at forth
        have sameVerdict := unoriented _ arc forth
        have ends := plain _ arc forth
        refine ⟨⟨forth, connects⟩, ⟨⟨?_, ?_⟩, allowed⟩, ?_, pinnedRest⟩
        · exact usable.1
        · exact sameVerdict ▸ usable.2
        · exact fun empty pin isPin => ends ▸ pinned empty pin isPin
      · rintro ⟨⟨member, connects⟩, ⟨usable, allowed⟩, pinned, pinnedRest⟩
        have near := lawful.near_eq member
        have back := lawful.flip_mem member
        refine ⟨back, near.symm, ⟨⟨usable.1, ?_⟩, ?_⟩, connects, allowed, pinnedRest⟩
        · exact (unoriented _ arc member).trans usable.2
        · exact fun empty pin isPin => (plain _ arc member).trans (pinned empty pin isPin)

/-- A backward trail is a walk to the target whose last arc begins over the backward pin. -/
theorem connects_backward (lawful : network.Lawful) (walk : Walk Exact) (node : NodeId)
    (leads : Leads network query .backward (walk.map Arc.flip) node) :
    Walk.Connects network node walk query.ends.backward ∧
      ∀ pin ∈ query.pins.backward, ∀ arc ∈ walk.getLast?, arc.firstEdge = pin := by
  induction walk generalizing node with
  | nil => exact ⟨leads, nofun⟩
  | cons arc rest ih =>
      obtain ⟨member, rfl, allowed, leadsRest⟩ := leads
      obtain ⟨connects, pinnedRest⟩ := ih arc.far leadsRest
      have forth := lawful.flip_mem member
      rw [Arc.flip_flip] at forth
      refine ⟨⟨forth, connects⟩, fun pin isPin last isLast => ?_⟩
      cases rest with
      | nil =>
          obtain rfl : arc = last := Option.some.inj isLast
          exact (allows_backward.mp allowed).2 rfl pin isPin
      | cons next rest => exact pinnedRest pin isPin last isLast

/-- An admissible walk, cut anywhere, leaves a trail in each direction up to the cut. -/
theorem leads_of_admissible (lawful : network.Lawful) (plain : network.Plain)
    (unoriented : ArcFilter.Unoriented network query.filter) (first second : Walk Exact)
    (walk : Walk.Admissible network query.filter query.pins query.ends.forward
      query.ends.backward (first ++ second)) :
    ∃ middle, Leads network query .forward first.reverse middle ∧
      Leads network query .backward (second.map Arc.flip) middle := by
  obtain ⟨middle, left, right⟩ := walk.connects.split
  have leftAllowed : Walk.Allowed query.filter first :=
    fun arc member => walk.allowed arc (List.mem_append_left _ member)
  have rightAllowed : Walk.Allowed query.filter second :=
    fun arc member => walk.allowed arc (List.mem_append_right _ member)
  refine ⟨middle, (leads_forward lawful _ _).mpr ⟨?_, ?_, ?_⟩,
    (leads_backward lawful plain unoriented _ _).mpr ⟨right, rightAllowed, ?_⟩⟩
  · rwa [List.reverse_reverse]
  · exact fun arc member => leftAllowed arc (List.mem_reverse.mp member)
  · intro pin isPin arc isFirst
    have pinned := walk.meetsPins.1 pin isPin
    rw [List.getLast?_reverse] at isFirst
    rw [List.head?_append_of_ne_nil _ (by rintro rfl; simp at isFirst),
      Option.mem_def.mp isFirst] at pinned
    exact Option.some.inj pinned
  · intro pin isPin arc isLast
    have pinned := walk.meetsPins.2 pin isPin
    rw [List.getLast?_append_of_ne_nil _ (by rintro rfl; simp at isLast),
      Option.mem_def.mp isLast] at pinned
    exact Option.some.inj pinned

/-- Trails that end on one node make up a walk. -/
theorem admissible_join (lawful : network.Lawful) (plain : network.Plain)
    (unoriented : ArcFilter.Unoriented network query.filter) {forward : Trail}
    {rest : Walk Exact} {node : NodeId} (left : Leads network query .forward forward node)
    (right : Leads network query .backward (rest.map Arc.flip) node)
    (meetsPins : Walk.MeetsPins query.pins (forward.reverse ++ rest)) :
    Walk.Admissible network query.filter query.pins query.ends.forward query.ends.backward
      (forward.reverse ++ rest) := by
  obtain ⟨connects, allowed, _⟩ := (leads_forward lawful _ _).mp left
  obtain ⟨connectsRest, allowedRest, _⟩ := (leads_backward lawful plain unoriented _ _).mp right
  refine ⟨connects.append connectsRest, ?_, meetsPins⟩
  intro arc member
  rcases List.mem_append.mp member with before | after
  · exact allowed arc (List.mem_reverse.mp before)
  · exact allowedRest arc after

/-- A walk over an arc begins as the trail over that arc does. -/
theorem head?_over (before : Trail) (arc : Arc Exact) (rest : Walk Exact) :
    (before.reverse ++ arc :: rest).head? = (arc :: before).getLast? := by
  rw [← List.head?_reverse, List.reverse_cons]
  simp

/-- Trails that both end over one arc make up a walk over it. -/
theorem admissible_over (lawful : network.Lawful) (plain : network.Plain)
    (unoriented : ArcFilter.Unoriented network query.filter) {before : Trail} {arc : Arc Exact}
    {rest : Walk Exact} {node other : NodeId}
    (left : Leads network query .forward (arc :: before) node)
    (right : Leads network query .backward ((arc :: rest).map Arc.flip) other) :
    Walk.Admissible network query.filter query.pins query.ends.forward query.ends.backward
      (before.reverse ++ arc :: rest) := by
  obtain ⟨_, _, pinned⟩ := (leads_forward lawful _ _).mp left
  obtain ⟨connects, _, pinnedRest⟩ := (leads_backward lawful plain unoriented _ _).mp right
  have same : other = arc.near := (lawful.near_eq connects.1).symm
  refine admissible_join lawful plain unoriented left.2.2.2 (same ▸ right) ⟨?_, ?_⟩
  · intro pin isPin
    obtain ⟨first, isFirst⟩ : ∃ first, (arc :: before).getLast? = some first :=
      ⟨_, List.getLast?_eq_some_getLast (List.cons_ne_nil _ _)⟩
    rw [head?_over, isFirst]
    exact congrArg some (pinned pin isPin first isFirst)
  · intro pin isPin
    obtain ⟨last, isLast⟩ : ∃ last, (arc :: rest).getLast? = some last :=
      ⟨_, List.getLast?_eq_some_getLast (List.cons_ne_nil _ _)⟩
    rw [List.getLast?_append_of_ne_nil _ (List.cons_ne_nil _ _), isLast]
    exact congrArg some (pinnedRest pin isPin last isLast)

end Trail

end RouteSearch
