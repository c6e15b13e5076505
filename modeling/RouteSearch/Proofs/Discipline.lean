/-
This file proves that each direction settles its labels once and in the order of their weights,
and that every label stems from a settled one. The network, the filters and the other direction
do not matter for that.
-/

import RouteSearch.Proofs.Ancestry
import RouteSearch.Proofs.Answer
import RouteSearch.Proofs.Calls

namespace RouteSearch

variable {X S : Type}

/-- The label was written down for a way over an open arc from a settled label. It weighs what
that label weighs, and what the arc costs there. -/
structure Planner.Stems (planner : Planner Exact X S) (direction : Direction)
    (tree : SearchTree Exact X) (id : LabelId) (label : Label Exact X) (parent : LabelId)
    (above : Label Exact X) (arc : Arc Exact) : Prop where
  isParent : label.parent = some parent
  closed : tree.Holds parent above true
  member : arc ∈ planner.network.arcs above.node
  isOpen : arc.isOpen direction = true
  indexed : tree.lookup? (planner.settings.stateKind.key arc direction) = some id
  edge : label.edge = arc.edge
  weight : label.weight = planner.pricing.cost arc direction above.edge + above.weight

/-- A direction has taken each of its settled labels once, in the order of their weights, and
every label but the root stems from a settled one. -/
structure Disciplined (planner : Planner Exact X S) (direction : Direction)
    (root : Label Exact X) (past : List (Taking Exact X)) (tree : SearchTree Exact X) : Prop where
  inOrder : past.Pairwise fun earlier later =>
    Weight.atMost earlier.label.weight later.label.weight = true
  once : (past.map (·.id)).Nodup
  fresh : ∀ taking ∈ past, taking.again = false
  settled : ∀ {id label}, tree.Holds id label true ↔
    ∃ taking ∈ past, taking.id = id ∧ taking.label = label
  counted : tree.visited = past.length
  last : ∀ taking ∈ past.getLast?, tree.lastWeight = taking.label.weight
  ahead : ∀ {id label}, tree.Holds id label false →
    Weight.atMost tree.lastWeight label.weight = true
  rooted : ∃ settled, tree.Holds 0 root settled
  stems : ∀ {id label settled}, tree.Holds id label settled →
    id = 0 ∨ ∃ parent above arc, planner.Stems direction tree id label parent above arc
  descends : ∀ {id label settled}, tree.Holds id label settled → ∃ line, tree.Lineage id line

section Finite

variable {planner : Planner Exact X S} {direction : Direction} {root label : Label Exact X}
  {past : List (Taking Exact X)} {tree after : SearchTree Exact X} {id : LabelId}
  {bound value : Rat}

/-- The order of the weights, as the labels have it. -/
theorem SearchTree.Ordered.atMost_last (ordered : tree.Ordered bound)
    (holds : tree.Holds id label false) :
    Weight.atMost tree.lastWeight label.weight = true := by
  obtain ⟨value, atMost, isValue⟩ := ordered.ahead holds
  rw [ordered.last, isValue, Exact.atMost_finite]
  exact decide_eq_true atMost

/-- Taking the cheapest open label keeps the discipline. -/
theorem Disciplined.take (disciplined : Disciplined planner direction root past tree)
    (ordered : tree.Ordered bound) (takes : tree.Takes id label after)
    (isValue : label.weight = .finite value) (dearer : bound ≤ value)
    (orderedAfter : after.Ordered value) (beaten : Bool) :
    Disciplined planner direction root (past ++ [⟨id, label, false, beaten⟩]) after := by
  have grows := ordered.grows_take takes isValue dearer
  have isNew (taking : Taking Exact X) (member : taking ∈ past) : taking.id ≠ id := by
    intro same
    have settled := disciplined.settled.mpr ⟨taking, member, same, rfl⟩
    cases (settled.unique takes.taken).2
  have before {other : LabelId} {found : Label Exact X} {state : Bool}
      (holds : after.Holds other found state) : ∃ earlier, tree.Holds other found earlier := by
    rcases takes.holds_iff.mp holds with ⟨rfl, rfl, _⟩ | ⟨_, held⟩
    · exact ⟨false, takes.taken⟩
    · exact ⟨state, held⟩
  have stays {other : LabelId} {found : Label Exact X} {state : Bool}
      (holds : tree.Holds other found state) : ∃ later, after.Holds other found later :=
    SearchTree.holds_of_label? ((takes.label? other).trans holds.label?)
  constructor
  case inOrder =>
    rw [List.pairwise_append]
    refine ⟨disciplined.inOrder, List.pairwise_singleton _ _,
      fun earlier member later isLater => ?_⟩
    obtain ⟨old, atMost, isOld⟩ := ordered.behind
      (disciplined.settled.mpr ⟨earlier, member, rfl, rfl⟩)
    rw [List.mem_singleton.mp isLater, isOld, isValue, Exact.atMost_finite]
    exact decide_eq_true (atMost.trans dearer)
  case once =>
    rw [List.map_append, List.nodup_append]
    refine ⟨disciplined.once, List.nodup_singleton _, fun other member another isId same => ?_⟩
    obtain ⟨taking, isTaking, rfl⟩ := List.mem_map.mp member
    exact isNew taking isTaking (same.trans (List.mem_singleton.mp isId))
  case fresh =>
    intro taking member
    rcases List.mem_append.mp member with earlier | isLast
    · exact disciplined.fresh taking earlier
    · rw [List.mem_singleton.mp isLast]
  case settled =>
    intro other found
    constructor
    · intro holds
      rcases takes.holds_iff.mp holds with ⟨rfl, rfl, _⟩ | ⟨_, held⟩
      · exact ⟨_, List.mem_concat_self, rfl, rfl⟩
      · obtain ⟨taking, member, same⟩ := disciplined.settled.mp held
        exact ⟨taking, List.mem_append_left _ member, same⟩
    · rintro ⟨taking, member, rfl, rfl⟩
      rcases List.mem_append.mp member with earlier | isLast
      · exact grows.settled (disciplined.settled.mpr ⟨taking, earlier, rfl, rfl⟩)
      · rw [List.mem_singleton.mp isLast]
        exact takes.settled
  case counted => rw [takes.visited, disciplined.counted, List.length_append, List.length_singleton]
  case last =>
    intro taking isLast
    rw [List.getLast?_concat, Option.mem_some_iff] at isLast
    rw [← isLast]
    exact SearchTree.lastWeight_of_last takes.last takes.settled.label?
  case ahead => exact orderedAfter.atMost_last
  case rooted =>
    obtain ⟨settled, holds⟩ := disciplined.rooted
    exact stays holds
  case stems =>
    intro other found settled holds
    obtain ⟨earlier, held⟩ := before holds
    refine (disciplined.stems held).imp_right ?_
    rintro ⟨parent, above, arc, stems⟩
    exact ⟨parent, above, arc, { stems with
      closed := grows.settled stems.closed
      indexed := grows.lookup? stems.indexed }⟩
  case descends =>
    intro other found settled holds
    obtain ⟨earlier, held⟩ := before holds
    exact (disciplined.descends held).imp fun line lineage => lineage.mono grows.settled stays

/-- Writing down a way that is not cheaper than the label taken last keeps the discipline. -/
theorem Disciplined.write (disciplined : Disciplined planner direction root past tree)
    (ordered : tree.Ordered bound) {parent : LabelId} {above : Label Exact X} {arc : Arc Exact}
    (writes : tree.Writes (planner.settings.stateKind.key arc direction) label id after)
    (isParent : label.parent = some parent) (closed : tree.Holds parent above true)
    (member : arc ∈ planner.network.arcs above.node) (isOpen : arc.isOpen direction = true)
    (edge : label.edge = arc.edge)
    (weight : label.weight = planner.pricing.cost arc direction above.edge + above.weight)
    (isValue : label.weight = .finite value) (dearer : bound ≤ value) :
    Disciplined planner direction root past after := by
  have grows := ordered.grows_write writes isValue dearer
  have orderedAfter := ordered.write writes isValue dearer
  have held {other : LabelId} {found : Label Exact X} {settled : Bool} :=
    ordered.holds_write writes isValue dearer other found settled
  have written : after.Holds id label false := held.mpr (.inl ⟨rfl, rfl, rfl⟩)
  obtain ⟨line, lineage⟩ := disciplined.descends closed
  constructor
  case inOrder => exact disciplined.inOrder
  case once => exact disciplined.once
  case fresh => exact disciplined.fresh
  case settled =>
    intro other found
    rw [← disciplined.settled]
    constructor
    · intro holds
      rcases held.mp holds with ⟨_, _, isOpen⟩ | ⟨_, before⟩
      · cases isOpen
      · exact before
    · exact grows.settled
  case counted => exact writes.visited.trans disciplined.counted
  case last =>
    intro taking isLast
    rw [orderedAfter.last, ← ordered.last]
    exact disciplined.last taking isLast
  case ahead => exact orderedAfter.atMost_last
  case rooted =>
    obtain ⟨settled, holds⟩ := disciplined.rooted
    obtain ⟨found, atRoot⟩ := lineage.root_settled closed
    exact ⟨true, grows.settled ((atRoot.unique holds).1 ▸ atRoot)⟩
  case stems =>
    intro other found settled holds
    rcases held.mp holds with ⟨rfl, rfl, _⟩ | ⟨_, before⟩
    · exact .inr ⟨parent, above, arc, isParent, grows.settled closed, member, isOpen,
        writes.indexed, edge, weight⟩
    · refine (disciplined.stems before).imp_right ?_
      rintro ⟨parent, above, arc, stems⟩
      exact ⟨parent, above, arc, { stems with
        closed := grows.settled stems.closed
        indexed := grows.lookup? stems.indexed }⟩
  case descends =>
    intro other found settled holds
    rcases held.mp holds with ⟨rfl, rfl, _⟩ | ⟨differs, before⟩
    · refine ⟨found :: line, .step written isParent (grows.settled closed) ?_⟩
      exact lineage.mono grows.settled fun holds =>
        ⟨true, grows.settled ((holds.unique closed).1 ▸ closed)⟩
    · refine (disciplined.descends before).imp fun line lineage => ?_
      exact lineage.mono grows.settled fun holds => ⟨_, held.mpr (.inr ⟨differs, holds⟩)⟩

theorem Disciplined.finish (disciplined : Disciplined planner direction root past tree)
    (finished : Bool) : Disciplined planner direction root past (tree.finish finished) where
  inOrder := disciplined.inOrder
  once := disciplined.once
  fresh := disciplined.fresh
  settled := disciplined.settled
  counted := disciplined.counted
  last := disciplined.last
  ahead := disciplined.ahead
  rooted := disciplined.rooted
  stems holds := (disciplined.stems holds).imp_right fun ⟨parent, above, arc, stems⟩ =>
    ⟨parent, above, arc, { stems with }⟩
  descends holds := (disciplined.descends holds).imp fun _ lineage =>
    lineage.mono id fun holds => ⟨_, holds⟩

end Finite

section Advance

variable {planner : Planner Exact X S} {direction : Direction} {root label : Label Exact X}
  {past : List (Taking Exact X)} {search : Search Exact X S} {id : LabelId} {value : Rat}

/-- Looking over an arc from the label taken last keeps the discipline. -/
theorem Disciplined.relax (nonNegative : planner.pricing.NonNegative planner.network)
    (maker : planner.maker.Lawful) (step : Option (ArcFilter Exact)) {arc : Arc Exact}
    (member : arc ∈ planner.network.arcs label.node) (isValue : label.weight = .finite value)
    (ordered : (search.tree direction).Ordered value)
    (disciplined : Disciplined planner direction root past (search.tree direction))
    (closed : (search.tree direction).Holds id label true) :
    ((planner.relax direction step id label search arc).tree direction).Ordered value ∧
      Disciplined planner direction root past
        ((planner.relax direction step id label search arc).tree direction) ∧
      ((planner.relax direction step id label search arc).tree direction).Holds id label true := by
  rcases planner.relax_tree maker direction step id label search arc with
    same | ⟨made, written, bounded, writes, edge, weight, isParent⟩
  · rw [same]
    exact ⟨ordered, disciplined, closed⟩
  · obtain ⟨isOpen, reach, cost, isCost, isSum⟩ := planner.reachWeight_bounded
      (fun isOpen => (nonNegative member isOpen label.edge).isNumber) isValue bounded
    have isMade : made.weight = .finite (cost + value) := weight.trans isSum
    have dearer : value ≤ cost + value :=
      le_add_of_nonneg_left ((nonNegative member isOpen label.edge).nonneg isCost)
    exact ⟨ordered.write writes isMade dearer,
      disciplined.write ordered writes isParent closed member isOpen edge (weight.trans reach)
        isMade dearer, (ordered.grows_write writes isMade dearer).settled closed⟩

theorem Disciplined.expand (nonNegative : planner.pricing.NonNegative planner.network)
    (maker : planner.maker.Lawful) (step : Option (ArcFilter Exact))
    (isValue : label.weight = .finite value) (ordered : (search.tree direction).Ordered value)
    (disciplined : Disciplined planner direction root past (search.tree direction))
    (closed : (search.tree direction).Holds id label true) :
    ((planner.expand direction step id label search).tree direction).Ordered value ∧
      Disciplined planner direction root past
        ((planner.expand direction step id label search).tree direction) := by
  have kept := planner.expand_keeps (P := fun search => (search.tree direction).Ordered value ∧
    Disciplined planner direction root past (search.tree direction) ∧
    (search.tree direction).Holds id label true)
    (fun _ _ member ⟨ordered, disciplined, closed⟩ =>
      disciplined.relax nonNegative maker step member isValue ordered closed)
    ⟨ordered, disciplined, closed⟩
  exact ⟨kept.1, kept.2.1⟩

/-- A step of a direction keeps its discipline. -/
theorem Disciplined.advance (nonNegative : planner.pricing.NonNegative planner.network)
    (maker : planner.maker.Lawful) (step : Option (ArcFilter Exact))
    (ordered : ∃ bound, (search.tree direction).Ordered bound)
    (disciplined : Disciplined planner direction root past (search.tree direction)) :
    (∃ bound, ((planner.advanceUnder direction step search).2.tree direction).Ordered bound) ∧
      Disciplined planner direction root (past ++ (search.taking? direction).toList)
        ((planner.advanceUnder direction step search).2.tree direction) := by
  obtain ⟨bound, ordered⟩ := ordered
  have proceeds := ordered.proceeds planner step
  generalize planner.advanceUnder direction step search = outcome,
    search.taking? direction = taken at proceeds ⊢
  cases proceeds with
  | stuck empty =>
      rw [Option.toList_none, List.append_nil, Search.tree_withTree]
      exact ⟨⟨bound, ordered.finish true⟩, disciplined.finish true⟩
  | @stopped _ _ _ value takes isValue dearer orderedAfter beaten =>
      rw [Option.toList_some, Search.tree_withTree]
      exact ⟨⟨value, orderedAfter.finish true⟩,
        (disciplined.take ordered takes isValue dearer orderedAfter true).finish true⟩
  | @expanded id label tree value takes isValue dearer orderedAfter unbeaten =>
      rw [Option.toList_some]
      have disciplinedAfter := disciplined.take ordered takes isValue dearer orderedAfter false
      obtain ⟨orderedLast, disciplinedLast⟩ := Disciplined.expand nonNegative maker step isValue
        ((search.tree_withTree direction tree).symm ▸ orderedAfter)
        ((search.tree_withTree direction tree).symm ▸ disciplinedAfter)
        ((search.tree_withTree direction tree).symm ▸ takes.settled)
      exact ⟨⟨value, orderedLast⟩, disciplinedLast⟩

end Advance

section Endless

variable {planner : Planner Exact X S} {direction : Direction} {root : Label Exact X}
  {tree : SearchTree Exact X} {search : Search Exact X S} {state : Bool}

/-- The tree of a direction whose root weighs infinitely much. No way goes on from there. -/
structure Lone (root : Label Exact X) (settled : Bool) (tree : SearchTree Exact X) : Prop where
  isRoot : root.parent = none
  endless : root.weight = .infinity
  kept : tree.kept = #[⟨root, settled⟩]
  queue : tree.queue.items = if settled then #[] else #[⟨0, root.weight⟩]
  last : tree.last = some 0
  visited : tree.visited = if settled then 1 else 0

theorem Lone.holds_iff (lone : Lone root state tree) {id : LabelId} {label : Label Exact X}
    {settled : Bool} :
    tree.Holds id label settled ↔ id = 0 ∧ label = root ∧ settled = state := by
  rw [SearchTree.Holds, lone.kept]
  cases id with
  | zero => simp [eq_comm]
  | succ id => simp

theorem Lone.finish (lone : Lone root state tree) (finished : Bool) :
    Lone root state (tree.finish finished) :=
  ⟨lone.isRoot, lone.endless, lone.kept, lone.queue, lone.last, lone.visited⟩

theorem Lone.disciplined (lone : Lone root state tree) {past : List (Taking Exact X)}
    (taken : past = [] ∧ state = false ∨
      ∃ beaten, past = [⟨0, root, false, beaten⟩] ∧ state = true) :
    Disciplined planner direction root past tree := by
  have atRoot : tree.Holds 0 root state := lone.holds_iff.mpr ⟨rfl, rfl, rfl⟩
  have isLast : tree.lastWeight = root.weight :=
    SearchTree.lastWeight_of_last lone.last atRoot.label?
  have descends {id : LabelId} {label : Label Exact X} {settled : Bool}
      (holds : tree.Holds id label settled) : ∃ line, tree.Lineage id line := by
    obtain ⟨rfl, rfl, _⟩ := lone.holds_iff.mp holds
    exact ⟨[label], .root holds lone.isRoot⟩
  rcases taken with ⟨rfl, rfl⟩ | ⟨beaten, rfl, rfl⟩
  · refine ⟨.nil, .nil, nofun, ?_, lone.visited, nofun, ?_, ⟨_, atRoot⟩, ?_, descends⟩
    · simp [lone.holds_iff]
    · intro id label holds
      rw [isLast, (lone.holds_iff.mp holds).2.1, lone.endless]
      rfl
    · exact fun holds => .inl (lone.holds_iff.mp holds).1
  · refine ⟨List.pairwise_singleton _ _, List.nodup_singleton _, ?_, ?_, lone.visited, ?_, ?_,
      ⟨_, atRoot⟩, ?_, descends⟩
    · simp
    · simp [lone.holds_iff, eq_comm]
    · simp [isLast]
    · intro id label holds
      cases (lone.holds_iff.mp holds).2.2
    · exact fun holds => .inl (lone.holds_iff.mp holds).1

/-- A lone root is taken once. -/
theorem Lone.pop? (lone : Lone root state tree) :
    tree.pop? = none ∧ state = true ∨
      ∃ after, tree.pop? = some (0, false, after) ∧ state = false ∧ Lone root true after := by
  cases state with
  | true =>
      have empty : tree.queue.items = #[] := lone.queue
      simp [SearchTree.pop?, MinQueue.pop?, empty]
  | false =>
      have single : tree.queue.items = #[⟨0, root.weight⟩] := lone.queue
      have popped : tree.pop? = some (0, false, { tree with
          kept := #[⟨root, true⟩]
          queue := ⟨#[]⟩
          last := some 0
          visited := 1 }) := by
        have none : tree.visited = 0 := lone.visited
        simp [none, SearchTree.pop?, MinQueue.pop?, single, lone.kept, MinQueue.siftDown]
      exact .inr ⟨_, popped, rfl, lone.isRoot, lone.endless, rfl, rfl, rfl, rfl⟩

/-- What was taken from a tree that holds a lone root. -/
def LoneAfter (root : Label Exact X) (past : List (Taking Exact X)) (tree : SearchTree Exact X) :
    Prop :=
  past = [] ∧ Lone root false tree ∨ ∃ beaten, past = [⟨0, root, false, beaten⟩] ∧
    Lone root true tree

/-- No arc leads on from a lone root. -/
theorem Lone.relax (nonNegative : planner.pricing.NonNegative planner.network)
    (maker : planner.maker.Lawful) (step : Option (ArcFilter Exact)) {arc : Arc Exact}
    (member : arc ∈ planner.network.arcs root.node)
    (lone : Lone root state (search.tree direction)) :
    Lone root state ((planner.relax direction step 0 root search arc).tree direction) := by
  rcases planner.relax_tree maker direction step 0 root search arc with same | ⟨_, _, bounded, _⟩
  · rwa [same]
  · obtain ⟨isOpen, reach⟩ := planner.reachWeight_open bounded
    have price := nonNegative member isOpen root.edge
    rw [reach, lone.endless, Exact.add_comm, price.infinity_add] at bounded
    cases bounded

theorem LoneAfter.advance (nonNegative : planner.pricing.NonNegative planner.network)
    (maker : planner.maker.Lawful) (step : Option (ArcFilter Exact))
    {past : List (Taking Exact X)} (after : LoneAfter root past (search.tree direction)) :
    LoneAfter root (past ++ (search.taking? direction).toList)
      ((planner.advanceUnder direction step search).2.tree direction) := by
  have advances := planner.advances direction step search
  generalize planner.advanceUnder direction step search = outcome at advances ⊢
  rcases after with ⟨rfl, lone⟩ | ⟨beaten, rfl, lone⟩
  · obtain ⟨_, isTrue⟩ | ⟨after, popped, _, loneAfter⟩ := lone.pop?
    · cases isTrue
    have atRoot : after.label? 0 = some root := (loneAfter.holds_iff.mpr ⟨rfl, rfl, rfl⟩).label?
    rw [search.taking?_eq_some popped atRoot]
    refine .inr ⟨_, rfl, ?_⟩
    cases advances with
    | stuck empty =>
        rw [popped] at empty
        cases empty
    | passed pops idle =>
        rw [popped] at pops
        cases pops
        rw [atRoot] at idle
        cases idle <;> contradiction
    | stopped pops atId beaten =>
        rw [popped] at pops
        cases pops
        rw [Search.tree_withTree]
        exact loneAfter.finish true
    | expanded pops atId unbeaten =>
        rw [popped] at pops
        cases pops
        obtain rfl := Option.some.inj (atRoot.symm.trans atId)
        apply planner.expand_keeps (P := fun search => Lone root true (search.tree direction))
        · exact fun _ _ member lone => lone.relax nonNegative maker step member
        · rwa [Search.tree_withTree]
  · obtain ⟨empty, _⟩ | ⟨after, _, isFalse, _⟩ := lone.pop?
    · rw [search.taking?_eq_none empty]
      refine .inr ⟨beaten, rfl, ?_⟩
      cases advances with
      | stuck _ =>
          rw [Search.tree_withTree]
          exact lone.finish true
      | passed pops _ => cases empty.symm.trans pops
      | stopped pops _ _ => cases empty.symm.trans pops
      | expanded pops _ _ => cases empty.symm.trans pops
    · cases isFalse

end Endless

section Query

variable {planner : Planner Exact X S} {direction : Direction} {root : Label Exact X}
  {search begun : Search Exact X S} {ends : Sides NodeId} {weights : Sides Exact} {now : Nat}

/-- A planted root is in order, and nothing was taken yet. -/
theorem Disciplined.planted {key : Option StateKey} (isRoot : root.parent = none)
    (proper : Weight.atMost root.weight root.weight = true) (finished : Bool) :
    Disciplined planner direction root []
      ((({} : SearchTree Exact X).addRoot key root).finish finished) := by
  have holds {id : LabelId} {label : Label Exact X} {settled : Bool} :
      ((({} : SearchTree Exact X).addRoot key root).finish finished).Holds id label settled ↔
        id = 0 ∧ label = root ∧ settled = false :=
    @SearchTree.holds_addRoot _ X _ key root label id settled
  have atRoot := holds.mpr ⟨rfl, rfl, rfl⟩
  refine ⟨.nil, .nil, nofun, ?_, rfl, nofun, ?_, ⟨_, atRoot⟩, fun held => .inl (holds.mp held).1,
    ?_⟩
  · simp [holds]
  · intro id label held
    rw [(holds.mp held).2.1, SearchTree.lastWeight_of_last rfl atRoot.label?]
    exact proper
  · intro id label settled held
    obtain ⟨rfl, rfl, _⟩ := holds.mp held
    exact ⟨[label], .root held isRoot⟩

theorem LoneAfter.planted {key : Option StateKey} (isRoot : root.parent = none)
    (endless : root.weight = .infinity) (finished : Bool) :
    LoneAfter root [] ((({} : SearchTree Exact X).addRoot key root).finish finished) := by
  refine .inl ⟨rfl, isRoot, endless, rfl, ?_, rfl, rfl⟩
  simp [SearchTree.addRoot, SearchTree.add, SearchTree.finish, SearchTree.size, MinQueue.push,
    MinQueue.place?, MinQueue.siftUp]

/-- Any steps from a planted root keep its direction disciplined. -/
theorem Disciplined.follow (nonNegative : planner.pricing.NonNegative planner.network)
    (maker : planner.maker.Lawful) (isRoot : root.parent = none) (price : root.weight.IsPrice)
    {key : Option StateKey} {finished : Bool}
    (planted : search.tree direction =
      (({} : SearchTree Exact X).addRoot key root).finish finished) (steps : List (Step Exact)) :
    Disciplined planner direction root (planner.takings direction steps search)
      ((planner.follow steps search).tree direction) := by
  have other (filter : Option (ArcFilter Exact)) (search : Search Exact X S) :
      (planner.advanceUnder direction.opposite filter search).2.tree direction =
        search.tree direction := by
    have there := (planner.advanceUnder_touches direction.opposite filter search).there
    rwa [Direction.opposite_opposite] at there
  cases weight : root.weight with
  | finite value =>
      have kept := planner.follow_keeps direction
        (P := fun past search => (∃ bound, (search.tree direction).Ordered bound) ∧
          Disciplined planner direction root past (search.tree direction)) steps
        (fun past filter search _ ⟨ordered, disciplined⟩ =>
          disciplined.advance nonNegative maker filter ordered)
        (fun past filter search holds => by rwa [other]) [] search
        ⟨⟨value, planted ▸ (SearchTree.ordered_addRoot weight).finish finished⟩,
          planted ▸ .planted isRoot (by simp [weight]) finished⟩
      exact kept.2
  | infinity =>
      have kept := planner.follow_keeps direction
        (P := fun past search => LoneAfter root past (search.tree direction)) steps
        (fun past filter search _ after => after.advance nonNegative maker filter)
        (fun past filter search holds => by rwa [other]) [] search
        (planted ▸ .planted isRoot weight finished)
      rcases kept with ⟨isPast, lone⟩ | ⟨beaten, isPast, lone⟩
      · exact lone.disciplined (.inl ⟨isPast, rfl⟩)
      · exact lone.disciplined (.inr ⟨beaten, isPast, rfl⟩)
  | negativeInfinity => exact (weight ▸ price).elim
  | undefined => exact (weight ▸ price).elim

/-- In every state of a query that is advanced in any order, a direction has taken each of its
settled labels once, in the order of their weights, and they have stayed as they were. Every
label stems from a settled one, and its parents lead to the root without a cycle. -/
theorem advances_disciplined (nonNegative : planner.pricing.NonNegative planner.network)
    (maker : planner.maker.Lawful) (blank : search.Blank)
    (prices : ∀ side, (weights.get side).IsPrice)
    (accepted : planner.start ends.forward weights.forward ends.backward weights.backward now
      search = .ok begun) (clock : Clock) (schedule : List Direction) (direction : Direction) :
    let tree := (planner.performAll clock (schedule.map .advance) begun).2.tree direction
    ∃ root, root.edge = noEdge ∧ root.node = ends.get direction ∧
      root.weight = weights.get direction ∧ root.parent = none ∧
      Disciplined planner direction root
        (planner.takings direction
          (planner.queried ends.forward ends.backward search schedule)
          (planner.planted ends.forward weights.forward ends.backward weights.backward now search))
        tree ∧
      ∀ id label settled, tree.Holds id label settled → ∃ line, tree.lineage? id = some line ∧
        line.getLast? = some root ∧ ¬ Relation.TransGen tree.IsParent id id := by
  obtain ⟨payload, finished, planted⟩ := blank.planted_tree maker ends weights now direction
  have disciplined := Disciplined.follow nonNegative maker rfl (prices direction) planted
    (planner.queried ends.forward ends.backward search schedule)
  rw [← planner.performAll_queried accepted clock schedule] at disciplined
  refine ⟨_, rfl, rfl, rfl, rfl, disciplined, fun id label settled holds => ?_⟩
  obtain ⟨line, lineage⟩ := disciplined.descends holds
  obtain ⟨state, atRoot⟩ := disciplined.rooted
  exact ⟨line, lineage.lineage?, lineage.last atRoot, lineage.acyclic⟩

theorem advances_disciplined_streets : ∃ begun : Search Exact Unit Unit,
    Planner.overStreets.start 0 (.finite 1) 2 .infinity 0 (.fresh ()) = .ok begun ∧
      let tree := (Planner.overStreets.performAll (fun _ => 0)
        ([Direction.forward, .backward, .forward].map .advance) begun).2.tree .forward
      ∃ root, root.edge = noEdge ∧ root.node = 0 ∧ root.weight = .finite 1 ∧
        root.parent = none ∧
        Disciplined Planner.overStreets .forward root
          (Planner.overStreets.takings .forward
            (Planner.overStreets.queried 0 2 (.fresh ()) [.forward, .backward, .forward])
            (Planner.overStreets.planted 0 (.finite 1) 2 .infinity 0 (.fresh ())))
          tree ∧
        ∀ id label settled, tree.Holds id label settled → ∃ line,
          tree.lineage? id = some line ∧ line.getLast? = some root ∧
          ¬ Relation.TransGen tree.IsParent id id := by
  have prices : Planner.overStreets.Prices (.between 0 2 (.both none) none) :=
    Planner.overStreets_serves.prices (fun _ _ _ => rfl) rfl
  let ends : Sides NodeId := ⟨0, 2⟩
  let weights : Sides Exact := ⟨.finite 1, .infinity⟩
  have isPrice (side : Direction) : (weights.get side).IsPrice := by
    cases side with
    | forward => exact zero_le_one
    | backward => trivial
  have accepted : Planner.overStreets.start ends.forward weights.forward ends.backward
      weights.backward 0 (.fresh ()) = .ok (Planner.overStreets.seed 0 (.finite 1) 2 .infinity 0
        (.fresh ())) := rfl
  exact ⟨_, accepted, advances_disciplined prices.pricing.price prices.maker
    (Planner.overStreets.performAll_blank (fun _ => 0) [] () rfl) isPrice accepted _ _ .forward⟩

end Query

end RouteSearch
