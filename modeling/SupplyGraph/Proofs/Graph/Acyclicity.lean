import SupplyGraph.Proofs.Graph.Closures

/-!
The graph of the components, as the tables of their edges have it. An edge along the dependencies leads to a component
that was completed before, so no path comes back to where it began. The edges against the dependencies are the same
edges turned around.
-/

namespace SupplyGraph
open Relation

variable {nodes : NodeTable} {components : Components} {direction : Direction} {edge : NodeId → NodeId → Prop}
variable {place otherPlace : Nat} {part : NodeId × List NodeId}

theorem get_condense (divides : components.Divides (· ∈ nodes) edge) (listed : part ∈ components.toList) {id : NodeId}
    (member : id ∈ part.2) : (condense nodes components (IdSet.ofList nodes.keys) direction).get id =
      .ok (outgoing nodes (IdSet.ofList nodes.keys) direction part.2) := by
  rw [(condense_tabulates divides _).get listed member, divides.members_eq listed]

theorem mem_entry (divides : components.Divides (· ∈ nodes) edge) (listed : part ∈ components.toList) {edges : IdSet}
    (read : (condense nodes components (IdSet.ofList nodes.keys) direction).get part.1 = .ok edges) {id : NodeId} :
    id ∈ edges ↔ id ∉ part.2 ∧ ∃ member ∈ part.2, direction.Edge nodes member id := by
  rw [get_condense divides listed (divides.head_mem listed)] at read
  obtain rfl := Except.ok.inj read
  exact mem_outgoing

namespace Direction

/-- The entry of the component at one place has a member of the component at another place. -/
def Joins (nodes : NodeTable) (components : Components) (direction : Direction) (place otherPlace : Nat) : Prop :=
  ∃ part other edges, components.toList[place]? = some part ∧ components.toList[otherPlace]? = some other ∧
    (condense nodes components (IdSet.ofList nodes.keys) direction).get part.1 = .ok edges ∧ ∃ id ∈ other.2, id ∈ edges

theorem joins_iff (divides : components.Divides (· ∈ nodes) edge) :
    direction.Joins nodes components place otherPlace ↔ place ≠ otherPlace ∧ ∃ part other,
      components.toList[place]? = some part ∧ components.toList[otherPlace]? = some other ∧
      ∃ member ∈ part.2, ∃ id ∈ other.2, direction.Edge nodes member id := by
  -- An entry leaves out the ids of its own component. Parts share no id, so this says that the places differ, and in
  -- this form the two ends of an edge can be exchanged.
  constructor
  · rintro ⟨part, other, edges, here, there, read, id, otherInside, isEdge⟩
    obtain ⟨outside, member, inside, leads⟩ := (mem_entry divides (List.mem_of_getElem? here) read).1 isEdge
    refine ⟨?_, part, other, here, there, member, inside, id, otherInside, leads⟩
    rintro rfl
    obtain rfl := Option.some.inj (here.symm.trans there)
    exact outside otherInside
  · rintro ⟨different, part, other, here, there, member, inside, id, otherInside, leads⟩
    have listed := List.mem_of_getElem? here
    have outside : id ∉ part.2 := fun both => different (divides.partition.place_eq here there both otherInside)
    exact ⟨part, other, _, here, there, get_condense divides listed (divides.head_mem listed), id, otherInside,
      mem_outgoing.2 ⟨outside, member, inside, leads⟩⟩

theorem joins_opposite (mirrored : nodes.Mirrored) (divides : components.Divides (· ∈ nodes) edge) :
    Direction.parents.Joins nodes components place otherPlace ↔
      Direction.children.Joins nodes components otherPlace place := by
  rw [joins_iff divides, joins_iff divides]
  constructor
  · rintro ⟨different, part, other, here, there, member, inside, id, otherInside, leads⟩
    have turned := (edge_opposite mirrored member id).1 leads
    exact ⟨different.symm, other, part, there, here, id, otherInside, member, inside, turned⟩
  · rintro ⟨different, other, part, there, here, id, otherInside, member, inside, leads⟩
    have turned := (edge_opposite mirrored member id).2 leads
    exact ⟨different.symm, part, other, here, there, member, inside, id, otherInside, turned⟩

theorem lt_of_joins (exact : components.Exact (· ∈ nodes) (Direction.children.Edge nodes))
    (joins : Direction.children.Joins nodes components place otherPlace) : otherPlace < place := by
  obtain ⟨different, part, other, here, there, member, inside, id, otherInside, leads⟩ :=
    (joins_iff exact.toDivides).1 joins
  exact exact.lt_of_path here there different inside otherInside (.single leads)

theorem lt_of_transGen_joins (exact : components.Exact (· ∈ nodes) (Direction.children.Edge nodes))
    (path : TransGen (Direction.children.Joins nodes components) place otherPlace) : otherPlace < place := by
  induction path with
  | single joins => exact lt_of_joins exact joins
  | tail _ joins before => exact (lt_of_joins exact joins).trans before

theorem not_transGen_joins (mirrored : nodes.Mirrored)
    (exact : components.Exact (· ∈ nodes) (Direction.children.Edge nodes)) (direction : Direction) (place : Nat) :
    ¬ TransGen (direction.Joins nodes components) place place := by
  intro cycle
  cases direction with
  | children => exact Nat.lt_irrefl place (lt_of_transGen_joins exact cycle)
  | parents =>
      have turned : Direction.parents.Joins nodes components = Function.swap (Direction.children.Joins nodes components) := by
        funext place otherPlace
        exact propext (joins_opposite mirrored exact.toDivides)
      rw [turned, transGen_swap] at cycle
      exact Nat.lt_irrefl place (lt_of_transGen_joins exact cycle)

theorem exists_earlier (exact : components.Exact (· ∈ nodes) (Direction.children.Edge nodes))
    (here : components.toList[place]? = some part) {edges : IdSet}
    (read : (condense nodes components (IdSet.ofList nodes.keys) .children).get part.1 = .ok edges) {id : NodeId}
    (isEdge : id ∈ edges) :
    ∃ earlier < place, ∃ other, components.toList[earlier]? = some other ∧ id ∈ other.2 := by
  have divides := exact.toDivides
  -- Unknown ids are not entered, so the id has a component.
  obtain ⟨-, member, -, node, -, -, known⟩ := (mem_entry divides (List.mem_of_getElem? here) read).1 isEdge
  obtain ⟨other, otherListed, otherInside⟩ := List.mem_flatMap.1 ((divides.mem_flatMap_members id).2 known)
  obtain ⟨otherPlace, there⟩ := List.mem_iff_getElem?.1 otherListed
  have before := lt_of_joins exact ⟨part, other, edges, here, there, read, id, otherInside, isEdge⟩
  exact ⟨otherPlace, before, other, there, otherInside⟩

end Direction

/-- The graph of the strongly connected components of a mirrored table. All members of a component read one entry, which
holds the ids outside the component that edges of its members lead to. The two directions are each other's reverse, the
children of a component are listed before it, and there is no cycle in either direction. -/
theorem condense_acyclic (nodes : NodeTable) (mirrored : nodes.Mirrored) :
    (graphComponents nodes).Yields fun components =>
      components.Exact (· ∈ nodes) (Direction.children.Edge nodes) ∧
      (∀ (direction : Direction), ∀ part ∈ components.toList, ∃ edges,
        (∀ id ∈ part.2, (condense nodes components (IdSet.ofList nodes.keys) direction).get id = .ok edges) ∧
        ∀ id, id ∈ edges ↔ id ∉ part.2 ∧ ∃ member ∈ part.2, direction.Edge nodes member id) ∧
      (∀ place otherPlace, Direction.children.Joins nodes components place otherPlace ↔
        Direction.parents.Joins nodes components otherPlace place) ∧
      (∀ (place : Nat) (part : NodeId × List NodeId) (edges : IdSet), components.toList[place]? = some part →
        (condense nodes components (IdSet.ofList nodes.keys) .children).get part.1 = .ok edges →
        ∀ id ∈ edges, ∃ earlier < place, ∃ other, components.toList[earlier]? = some other ∧ id ∈ other.2) ∧
      ∀ (direction : Direction) (place : Nat), ¬ TransGen (direction.Joins nodes components) place place := by
  refine (graphComponents_yields nodes).mono fun components exact => ⟨exact, ?entry, ?reverse, ?earlier, ?acyclic⟩
  case entry =>
    intro direction part listed
    exact ⟨_, fun id member => get_condense exact.toDivides listed member, fun id => mem_outgoing⟩
  case reverse => exact fun place otherPlace => (Direction.joins_opposite mirrored exact.toDivides).symm
  case earlier => exact fun place part edges here read id isEdge => Direction.exists_earlier exact here read isEdge
  case acyclic => exact Direction.not_transGen_joins mirrored exact

def loopedTable : NodeTable :=
  let node (id : NodeId) (children parents : List NodeId) : Node :=
    { id, type := "library", name := toString id, children := .ofSet (.ofList children),
      parents := .ofSet (.ofList parents) }
  ((({} : NodeTable).insert 1 (node 1 [1, 2] [1, 2])).insert 2 (node 2 [1, 9] [1, 3])).insert 3 (node 3 [2] [])

theorem condense_acyclic_loopedTable : loopedTable.Mirrored ∧ ∃ components,
    graphComponents loopedTable .never = .ok (components, .never) ∧ components.toList = [(1, [1, 2]), (3, [3])] ∧
    Direction.children.Joins loopedTable components 1 0 ∧ Direction.parents.Joins loopedTable components 0 1 ∧
    ¬ TransGen (Direction.parents.Joins loopedTable components) 0 0 := by
  have mirrored : loopedTable.Mirrored := by decide +kernel
  obtain ⟨components, run, -, entry, reverse, -, acyclic⟩ := (condense_acyclic loopedTable mirrored).never
  have parts : components.toList = [(1, [1, 2]), (3, [3])] := by
    have found : (graphComponents loopedTable .never).toOption.map (·.1.toList) = some [(1, [1, 2]), (3, [3])] := by
      decide +kernel
    rw [run] at found
    exact Option.some.inj found
  have joined : Direction.children.Joins loopedTable components 1 0 := by
    obtain ⟨edges, read, exactly⟩ := entry .children (3, [3]) (by simp [parts])
    have leads : Direction.children.Edge loopedTable 3 2 :=
      ⟨_, Std.TreeMap.getElem?_insert_self, by decide +kernel, by decide +kernel⟩
    exact ⟨(3, [3]), (1, [1, 2]), edges, by simp [parts], by simp [parts], read 3 (by simp), 2, by simp,
      (exactly 2).2 ⟨by simp, 3, by simp, leads⟩⟩
  exact ⟨mirrored, components, run, parts, joined, (reverse 1 0).1 joined, acyclic .parents 0⟩

end SupplyGraph
