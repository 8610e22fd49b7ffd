import SupplyGraph.Proofs.Format.Bitmap
import SupplyGraph.Proofs.Graph.Progress

/-!
The closures of a graph. Every node has one record, and the record holds exactly what is reachable from the node
along its dependencies and against them.
-/

namespace SupplyGraph

def Closures.Exact (nodes : NodeTable) (closures : Closures) : Prop :=
  ∀ (direction : Direction) other, other ∈ direction.closure closures ↔ direction.Reaches nodes closures.id other

structure Closures.Complete (nodes : NodeTable) (records : List Closures) : Prop where
  ids : (records.map (·.id)).Perm nodes.keys
  exact : ∀ closures ∈ records, closures.Exact nodes

theorem Closures.Complete.congr {nodes other : NodeTable} {records : List Closures}
    (complete : Closures.Complete nodes records) (same : ∀ id : NodeId, nodes[id]? = other[id]?) :
    Closures.Complete other records := by
  have equiv : nodes.Equiv other := Std.TreeMap.Equiv.of_forall_constGet?_eq same
  refine ⟨equiv.keys_eq ▸ complete.ids, fun closures listed direction id => ?_⟩
  rw [Direction.Reaches, ← Direction.edge_congr same]
  exact complete.exact closures listed direction id

theorem Components.Divides.members_perm {nodes : NodeTable} {components : Components}
    {edge : NodeId → NodeId → Prop} (divides : components.Divides (· ∈ nodes) edge) :
    (components.toList.flatMap (·.2)).Perm nodes.keys := by
  refine (List.perm_ext_iff_of_nodup divides.nodup_members Std.TreeMap.nodup_keys).2 fun id => ?_
  rw [divides.mem_flatMap_members, Std.TreeMap.mem_keys]

variable {nodes : NodeTable}

theorem divides_of_mirrored (mirrored : nodes.Mirrored) {components : Components}
    (divides : components.Divides (· ∈ nodes) (Direction.children.Edge nodes)) (direction : Direction) :
    components.Divides (· ∈ nodes) (direction.Edge nodes) := by
  cases direction with
  | children => exact divides
  | parents =>
      have turned : Direction.parents.Edge nodes = Function.swap (Direction.children.Edge nodes) := by
        funext id other
        exact propext (Direction.edge_opposite mirrored id other)
      exact turned ▸ divides.opposite

def PassGives (nodes : NodeTable) (components : Components) (direction : Direction) (table : AliasTable IdSet) : Prop :=
  ∃ final value, ClosurePass.State.Passes (planOf nodes components direction)
      { closures := (planOf nodes components direction).seed } nodes.keys final ∧ table = final.closures ∧
    table.Tabulates components.toList value ∧
    ∀ part ∈ components.toList, ∀ id ∈ part.2, ∀ other, other ∈ value part.1 ↔ direction.Reaches nodes id other

theorem planBeside_yields {components : Components} {direction : Direction} (rear : NodeTable)
    (divides : components.Divides (· ∈ nodes) (direction.Edge nodes)) :
    (ClosurePass.closures (planBeside nodes rear components direction) nodes.keys).Yields fun table =>
      ∃ final value, ClosurePass.State.Passes (planBeside nodes rear components direction)
          { closures := (planBeside nodes rear components direction).seed } nodes.keys final ∧ table = final.closures ∧
        table.Tabulates components.toList value ∧
        ∀ part ∈ components.toList, ∀ id ∈ part.2, ∀ other, other ∈ value part.1 ↔ direction.Reaches nodes id other := by
  obtain ⟨ahead, behind, sound⟩ := planBeside_sound rear divides
  refine (ClosurePass.closures_yield sound fun id listed => Std.TreeMap.mem_keys.1 listed).mono ?_
  rintro table ⟨final, value, passes, same, tabulates, exact⟩
  refine ⟨final, value, passes, same, tabulates, fun part listed id member other => ?_⟩
  have home : (planBeside nodes rear components direction).Represents part.1 id :=
    (divides.members_iff part listed id).1 member
  have present := Std.TreeMap.mem_keys.2 (divides.known_of_found home)
  rw [← ClosurePass.Plan.Sound.representative_eq home]
  exact exact id present other

theorem pass_yields {components : Components} {direction : Direction}
    (divides : components.Divides (· ∈ nodes) (direction.Edge nodes)) :
    (ClosurePass.closures (planOf nodes components direction) nodes.keys).Yields
      (PassGives nodes components direction) :=
  planBeside_yields nodes divides

theorem buildClosures_yields (mirrored : nodes.Mirrored) :
    (buildClosures nodes).Yields fun built =>
      built.2.Exact (· ∈ nodes) (Direction.children.Edge nodes) ∧ Closures.Complete nodes built.1 := by
  refine (graphComponents_yields nodes).bind fun components exact => ?_
  have divides := divides_of_mirrored mirrored exact.toDivides
  refine (pass_yields (divides .children)).bind fun descendants passed => ?_
  obtain ⟨_, below, _, _, belowTable, belowExact⟩ := passed
  refine (pass_yields (divides .parents)).bind fun ancestors passed => ?_
  obtain ⟨_, above, _, _, aboveTable, aboveExact⟩ := passed
  refine Polled.Yields.poll.bind fun _ _ => ?_
  let record (entry : NodeId × IdSet) : Closures :=
    { id := entry.1, ancestors := .ofSet ((ancestors.get? entry.1).getD ∅), descendants := .ofSet entry.2 }
  have entries := belowTable.entries
  have each : ∀ entry ∈ descendants.entries, ∃ part ∈ components.toList, entry.1 ∈ part.2 ∧ entry.2 = below part.1 := by
    intro entry member
    rw [entries] at member
    obtain ⟨part, listed, member⟩ := List.mem_flatMap.1 member
    obtain ⟨id, inside, rfl⟩ := List.mem_map.1 member
    exact ⟨part, listed, inside, rfl⟩
  have records : Polled.Yields (descendants.entries.mapM fun entry => do
      return { id := entry.1, ancestors := .ofSet (← ancestors.get entry.1), descendants := .ofSet entry.2 : Closures })
      (· = descendants.entries.map record) := by
    refine Polled.Yields.mapM fun entry member => ?_
    obtain ⟨part, listed, inside, -⟩ := each entry member
    refine (Polled.Yields.lift (aboveTable.get listed inside) rfl).bind fun found same => .pure ?_
    subst same
    simp only [record, aboveTable.get? listed inside]
    rfl
  refine records.bind fun records same => .pure ⟨exact, ?_⟩
  subst same
  constructor
  case ids =>
    rw [List.map_map, entries, List.map_flatMap]
    simpa [record, Function.comp_def] using exact.toDivides.members_perm
  case exact =>
    intro closures member direction other
    obtain ⟨entry, among, rfl⟩ := List.mem_map.1 member
    obtain ⟨part, listed, inside, isBelow⟩ := each entry among
    cases direction with
    | children =>
        change other ∈ entry.2 ↔ _
        rw [isBelow]
        exact belowExact part listed entry.1 inside other
    | parents =>
        change other ∈ (ancestors.get? entry.1).getD ∅ ↔ _
        rw [aboveTable.get? listed inside]
        exact aboveExact part listed entry.1 inside other
theorem buildClosures_plain (nodes : NodeTable) :
    (buildClosures nodes).Ensures fun built => ∀ closures ∈ built.1, closures.Plain := by
  unfold buildClosures
  refine Polled.Ensures.trivial.bind fun components _ => ?_
  refine Polled.Ensures.trivial.bind fun descendants _ => ?_
  refine Polled.Ensures.trivial.bind fun ancestors _ => ?_
  refine Polled.Ensures.trivial.bind fun _ _ => ?_
  have record (entry : NodeId × IdSet) : Polled.Ensures (do
      return { id := entry.1, ancestors := .ofSet (← ancestors.get entry.1), descendants := .ofSet entry.2 : Closures })
      Closures.Plain :=
    Polled.Ensures.trivial.bind fun above _ => .pure ⟨⟨rfl, rfl⟩, rfl, rfl⟩
  exact (Polled.Ensures.mapM record descendants.entries).bind fun _ plain => .pure plain

/-- Without a cancellation the closures of a mirrored table are computed, each pass ends by itself, and there is one
record for every node. It holds the nodes reachable from its node, and those from which its node is reachable. -/
theorem buildClosures_exact (nodes : NodeTable) (mirrored : nodes.Mirrored) :
    ∃ records components, buildClosures nodes .never = .ok ((records, components), .never) ∧
      (∀ direction, ∃ final,
        ClosurePass.State.Passes (planOf nodes components direction)
          { closures := (planOf nodes components direction).seed } nodes.keys final ∧
        ClosurePass.closures (planOf nodes components direction) nodes.keys .never = .ok (final.closures, .never)) ∧
      (records.map (·.id)).Perm nodes.keys ∧
      ∀ closures ∈ records, ∀ other,
        (other ∈ closures.descendants ↔ Direction.children.Reaches nodes closures.id other) ∧
        (other ∈ closures.ancestors ↔ Direction.children.Reaches nodes other closures.id) := by
  obtain ⟨⟨records, components⟩, run, exact, complete⟩ := (buildClosures_yields mirrored).never
  refine ⟨records, components, run, fun direction => ?_, complete.ids, fun closures listed other => ⟨?_, ?_⟩⟩
  · obtain ⟨table, ran, final, _, passes, same, -⟩ :=
      (pass_yields (divides_of_mirrored mirrored exact.toDivides direction)).never
    exact ⟨final, passes, same ▸ ran⟩
  · exact complete.exact closures listed .children other
  · rw [← Direction.reaches_opposite mirrored]
    exact complete.exact closures listed .parents other

def cyclicTable : NodeTable :=
  let node (id : NodeId) (children parents : IdSet) : Node :=
    { id, type := "library", name := toString id, children := .ofSet children, parents := .ofSet parents }
  (({} : NodeTable).insert 1 (node 1 { toList := [1, 2, 9] } { toList := [1, 2] })).insert 2
    (node 2 { toList := [1] } { toList := [1] })

theorem buildClosures_cyclicTable : cyclicTable.Mirrored ∧
    ∃ records components, buildClosures cyclicTable .never = .ok ((records, components), .never) ∧
      (records.map (·.id)).Perm [1, 2] := by
  have mirrored : cyclicTable.Mirrored := by decide +kernel
  obtain ⟨records, components, run, -, ids, -⟩ := buildClosures_exact cyclicTable mirrored
  have keys : cyclicTable.keys = [1, 2] := by decide +kernel
  exact ⟨mirrored, records, components, run, keys ▸ ids⟩

/-- The pass along the children gives every node what it reaches, and its result is the same whatever its plan holds
behind, be it the parents of the nodes, which need not mirror the children, or those of any other table. -/
theorem descendants_exact (nodes : NodeTable) :
    ∃ (components : Components) (closure : NodeId → IdSet), graphComponents nodes .never = .ok (components, .never) ∧
      (∀ id ∈ nodes, ∀ other, other ∈ closure id ↔ Direction.children.Reaches nodes id other) ∧
      ∀ rear : NodeTable, ∃ final,
        ClosurePass.State.Passes (planBeside nodes rear components .children)
          { closures := (planBeside nodes rear components .children).seed } nodes.keys final ∧
        ClosurePass.closures (planBeside nodes rear components .children) nodes.keys .never =
          .ok (final.closures, .never) ∧
        (∀ id ∈ nodes, final.closures.get id = .ok (closure id)) ∧
        final.closures.entries = components.toList.flatMap fun part => part.2.map fun id => (id, closure id) := by
  obtain ⟨components, run, divided⟩ := (graphComponents_yields nodes).never
  have divides := divided.toDivides
  obtain ⟨_, -, _, value, -, -, -, exact⟩ := (planBeside_yields nodes divides).never
  have home {id : NodeId} (present : id ∈ nodes) : ∃ part ∈ components.toList, id ∈ part.2 := by
    rw [← List.mem_flatMap]
    exact (divides.mem_flatMap_members id).2 present
  let closure (id : NodeId) : IdSet := value ((components.representative? id).getD id)
  have closure_eq {part : NodeId × List NodeId} (listed : part ∈ components.toList) {id : NodeId}
      (member : id ∈ part.2) : closure id = value part.1 := by
    simp only [closure, (divides.members_iff part listed id).1 member, Option.getD_some]
  refine ⟨components, closure, run, fun id present other => ?_, fun rear => ?_⟩
  · obtain ⟨part, listed, member⟩ := home present
    rw [closure_eq listed member]
    exact exact part listed id member other
  · obtain ⟨_, ran, final, again, passes, rfl, tabulates, againExact⟩ := (planBeside_yields rear divides).never
    have same {part : NodeId × List NodeId} (listed : part ∈ components.toList) {id : NodeId} (member : id ∈ part.2) :
        again part.1 = closure id := by
      rw [closure_eq listed member]
      apply IdSet.ext
      intro other
      rw [againExact part listed id member other, exact part listed id member other]
    refine ⟨final, passes, ran, fun id present => ?_, ?_⟩
    · obtain ⟨part, listed, member⟩ := home present
      rw [tabulates.get listed member, same listed member]
    · rw [tabulates.entries]
      refine List.flatMap_congr fun part listed => List.map_congr_left fun id member => ?_
      rw [same listed member]

end SupplyGraph
