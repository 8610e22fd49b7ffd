import SupplyGraph.Proofs.Graph.Paths
import SupplyGraph.Proofs.Graph.Slots
import SupplyGraph.Graph.ClosurePass

/-!
The condensed graph. From a component its edges lead to known ids outside it, and never back into it; so a plan
has no cycle ahead.
-/

namespace SupplyGraph
open Relation

namespace ClosurePass.Plan

structure Sound (plan : Plan) (known : NodeId → Prop) (edge : NodeId → NodeId → Prop)
    (ahead behind : NodeId → IdSet) : Prop where
  divides : plan.components.Divides known edge
  edge_known : ∀ id other, edge id other → known id ∧ known other
  ahead_table : plan.ahead.Tabulates plan.components.toList ahead
  behind_table : plan.behind.Tabulates plan.components.toList behind
  mem_ahead : ∀ part ∈ plan.components.toList, ∀ id,
    id ∈ ahead part.1 ↔ id ∉ part.2 ∧ ∃ member ∈ part.2, edge member id
  behind_known : ∀ part ∈ plan.components.toList, ∀ id ∈ behind part.1, known id

def Represents (plan : Plan) (representative id : NodeId) : Prop :=
  plan.components.representative? id = some representative

namespace Sound

variable {plan : Plan} {known : NodeId → Prop} {edge : NodeId → NodeId → Prop} {ahead behind : NodeId → IdSet}
variable {representative other id otherId : NodeId} {α : Type} {table : AliasTable α} {value : NodeId → α}

theorem represents (sound : plan.Sound known edge ahead behind) (present : known id) :
    plan.Represents (plan.representative id) id := by
  obtain ⟨representative, found⟩ := Option.isSome_iff_exists.1 ((sound.divides.known_iff id).2 present)
  rw [Represents, Plan.representative, found]
  rfl

theorem self (sound : plan.Sound known edge ahead behind) (represents : plan.Represents representative id) :
    plan.Represents representative representative :=
  sound.divides.representative_self represents

theorem representative_eq (represents : plan.Represents representative id) :
    plan.representative id = representative := by
  rw [Plan.representative, show plan.components.representative? id = some representative from represents]
  rfl

theorem part (sound : plan.Sound known edge ahead behind) (represents : plan.Represents representative id) :
    ∃ members, (representative, members) ∈ plan.components.toList ∧
      ∀ other, other ∈ members ↔ plan.Represents representative other := by
  obtain ⟨members, listed⟩ := sound.divides.listed id representative represents
  exact ⟨members, listed, sound.divides.members_iff _ listed⟩

theorem path_out (sound : plan.Sound known edge ahead behind) (represents : plan.Represents representative id) :
    ReflTransGen edge representative id :=
  (sound.divides.together represents).2

theorem path_home (sound : plan.Sound known edge ahead behind) (represents : plan.Represents representative id) :
    ReflTransGen edge id representative :=
  (sound.divides.together represents).1

theorem eq_of_paths (sound : plan.Sound known edge ahead behind)
    (head : plan.Represents representative representative)
    (otherHead : plan.Represents other other) (path : ReflTransGen edge representative other)
    (back : ReflTransGen edge other representative) : representative = other :=
  (sound.divides.same_iff _ _ _ _ head otherHead).2 ⟨path, back⟩

theorem mem_ahead_iff (sound : plan.Sound known edge ahead behind)
    (head : plan.Represents representative representative) :
    id ∈ ahead representative ↔
      ¬ plan.Represents representative id ∧ ∃ member, plan.Represents representative member ∧ edge member id := by
  obtain ⟨members, listed, members_iff⟩ := sound.part head
  rw [sound.mem_ahead _ listed, members_iff]
  simp only [members_iff]

theorem ahead_leads (sound : plan.Sound known edge ahead behind)
    (head : plan.Represents representative representative) (isAhead : id ∈ ahead representative) :
    plan.Represents (plan.representative id) id ∧ plan.representative id ≠ representative ∧
      ReflTransGen edge representative id ∧
      ¬ ReflTransGen edge (plan.representative id) representative := by
  obtain ⟨outside, member, inside, step⟩ := (sound.mem_ahead_iff head).1 isAhead
  have represents := sound.represents (sound.edge_known member id step).2
  have path : ReflTransGen edge representative id := (sound.path_out inside).tail step
  have different : plan.representative id ≠ representative := fun equal => outside (equal ▸ represents)
  refine ⟨represents, different, path, fun back => different ?_⟩
  exact sound.eq_of_paths (sound.self represents) head back (path.trans (sound.path_home represents))

theorem behind_represents (sound : plan.Sound known edge ahead behind)
    (head : plan.Represents representative representative) (isBehind : id ∈ behind representative) :
    plan.Represents (plan.representative id) id := by
  obtain ⟨members, listed, -⟩ := sound.part head
  exact sound.represents (sound.behind_known _ listed id isBehind)

theorem get (sound : plan.Sound known edge ahead behind) (tabulates : table.Tabulates plan.components.toList value)
    (represents : plan.Represents representative id) : table.get id = .ok (value representative) := by
  obtain ⟨members, listed, members_iff⟩ := sound.part represents
  exact tabulates.get listed ((members_iff id).2 represents)

theorem modify (sound : plan.Sound known edge ahead behind)
    (tabulates : table.Tabulates plan.components.toList value)
    (represents : plan.Represents representative id) (change : α → α) :
    ∃ changed, AliasTable.modify id change table = (.ok (), changed) ∧ changed.Tabulates plan.components.toList
      (Function.update value representative (change (value representative))) := by
  obtain ⟨members, listed, members_iff⟩ := sound.part represents
  exact tabulates.modify sound.divides.partition listed ((members_iff id).2 represents) change

theorem unionInto {table : AliasTable IdSet} {value : NodeId → IdSet} (sound : plan.Sound known edge ahead behind)
    (tabulates : table.Tabulates plan.components.toList value) (represents : plan.Represents representative id)
    (otherRepresents : plan.Represents other otherId) (different : representative ≠ other) :
    ∃ merged, AliasTable.unionInto id otherId table = (.ok (), merged) ∧ merged.Tabulates plan.components.toList
      (Function.update value representative (value representative ∪ value other)) := by
  obtain ⟨members, listed, members_iff⟩ := sound.part represents
  obtain ⟨otherMembers, otherListed, other_iff⟩ := sound.part otherRepresents
  exact tabulates.unionInto sound.divides.partition listed otherListed ((members_iff id).2 represents)
    ((other_iff otherId).2 otherRepresents) fun same => different (congrArg Prod.fst same)

theorem seed_tabulates (sound : plan.Sound known edge ahead behind) :
    plan.seed.Tabulates plan.components.toList fun representative =>
      IdSet.ofList (plan.components.members representative) := by
  refine AliasTable.Tabulates.of_parts sound.divides.partition fun part listed => ?_
  rw [sound.divides.members_eq listed]

theorem mem_members (sound : plan.Sound known edge ahead behind)
    (head : plan.Represents representative representative) :
    id ∈ plan.components.members representative ↔ plan.Represents representative id := by
  obtain ⟨members, listed, members_iff⟩ := sound.part head
  rw [sound.divides.members_eq listed]
  exact members_iff id

end Sound

end ClosurePass.Plan

def outgoing (nodes : NodeTable) (known : IdSet) (direction : Direction) (members : List NodeId) : IdSet :=
  (members.foldl (fun edges id =>
    match nodes[id]? with
    | some node => edges ∪ direction.edges node
    | none => edges) ∅ \ IdSet.ofList members) ∩ known

variable {nodes : NodeTable} {direction : Direction}

theorem mem_foldl_edges (members : List NodeId) (edges : IdSet) (id : NodeId) :
    id ∈ members.foldl (fun edges id =>
      match nodes[id]? with
      | some node => edges ∪ direction.edges node
      | none => edges) edges ↔
    id ∈ edges ∨ ∃ member ∈ members, ∃ node, nodes[member]? = some node ∧ id ∈ direction.edges node := by
  induction members generalizing edges with
  | nil => simp
  | cons member members ih =>
      rw [List.foldl_cons, ih]
      cases found : nodes[member]? with
      | none => simp [found]
      | some node => simp [found, or_assoc]

theorem mem_outgoing {members : List NodeId} {id : NodeId} :
    id ∈ outgoing nodes (IdSet.ofList nodes.keys) direction members ↔
      id ∉ members ∧ ∃ member ∈ members, direction.Edge nodes member id := by
  simp only [outgoing, IdSet.mem_inter, IdSet.mem_diff, mem_foldl_edges, IdSet.not_mem_empty, false_or, IdSet.mem_ofList,
    Std.TreeMap.mem_keys, Direction.Edge]
  constructor
  · rintro ⟨⟨⟨member, inside, node, found, leads⟩, outside⟩, present⟩
    exact ⟨outside, member, inside, node, found, leads, present⟩
  · rintro ⟨outside, member, inside, node, found, leads, present⟩
    exact ⟨⟨⟨member, inside, node, found, leads⟩, outside⟩, present⟩

theorem condense_tabulates {components : Components} {known : NodeId → Prop} {edge : NodeId → NodeId → Prop}
    (divides : components.Divides known edge) (ids : IdSet) :
    (condense nodes components ids direction).Tabulates components.toList fun representative =>
      outgoing nodes ids direction (components.members representative) := by
  refine AliasTable.Tabulates.of_parts divides.partition fun part listed => ?_
  rw [divides.members_eq listed]
  rfl

def planOf (nodes : NodeTable) (components : Components) (direction : Direction) : ClosurePass.Plan :=
  ⟨components, condense nodes components (IdSet.ofList nodes.keys) direction,
    condense nodes components (IdSet.ofList nodes.keys) direction.opposite⟩

/-- The plan of a graph whose opposite edges are those of another graph, `rear`. -/
def planBeside (nodes rear : NodeTable) (components : Components) (direction : Direction) : ClosurePass.Plan :=
  ⟨components, condense nodes components (IdSet.ofList nodes.keys) direction,
    condense rear components (IdSet.ofList nodes.keys) direction.opposite⟩

theorem planBeside_sound {components : Components} (rear : NodeTable)
    (divides : components.Divides (· ∈ nodes) (direction.Edge nodes)) :
    ∃ ahead behind, (planBeside nodes rear components direction).Sound (· ∈ nodes) (direction.Edge nodes) ahead behind := by
  refine ⟨_, _, ⟨divides, ?edge_known, condense_tabulates divides _, condense_tabulates divides _, ?mem_ahead,
    ?behind_known⟩⟩
  case edge_known =>
    rintro id other ⟨node, found, -, present⟩
    exact ⟨mem_of_getElem? found, present⟩
  case mem_ahead =>
    intro part listed id
    rw [divides.members_eq listed, mem_outgoing]
  case behind_known =>
    intro part listed id leads
    exact Std.TreeMap.mem_keys.1 (IdSet.mem_ofList.1 (IdSet.mem_inter.1 leads).2)

theorem graphComponents_yields (nodes : NodeTable) :
    (graphComponents nodes).Yields fun components => components.Exact (· ∈ nodes)
    (Direction.children.Edge nodes) := by
  have inside : Components.Inside nodes.keys (fun id => (nodes[id]?.map Direction.children.edges).getD ∅) =
      Direction.children.Edge nodes := by
    funext id child
    cases found : nodes[id]? with
    | none => simp [Components.Inside, Direction.Edge, found]
    | some node => simp [Components.Inside, Direction.Edge, found]
  refine (Components.ofGraph_yields nodes.keys _).mono fun components exact => ?_
  rw [inside] at exact
  simpa only [Std.TreeMap.mem_keys] using exact

end SupplyGraph
