import SupplyGraph.Proofs.Store.Matching

/-!
What a pattern finds after any saves, also of nodes that change their names and of nodes that take the name of
another. A memory store matches the names that its nodes have. The index of a persistent store leads from every name
to the id that was last saved under it, and keeps the names that nodes have given up.
-/

namespace SupplyGraph

/-- The nodes that are wanted, once each and in the order of their ids. -/
structure Lists (wanted : Node → Prop) (found : List Node) : Prop where
  mem : ∀ node, node ∈ found ↔ wanted node
  ascending : found.Pairwise fun left right => left.id < right.id

theorem Lists.unique {wanted : Node → Prop} {found other : List Node} (lists : Lists wanted found)
    (otherLists : Lists wanted other) : found = other := by
  have nodup {nodes : List Node} (ascending : nodes.Pairwise fun left right => left.id < right.id) : nodes.Nodup :=
    ascending.imp fun below same => UInt32.ne_of_lt below (congrArg Node.id same)
  refine List.Perm.eq_of_pairwise (fun _ _ _ _ below above => absurd above (UInt32.lt_asymm below))
    lists.ascending otherLists.ascending ?_
  rw [List.perm_ext_iff_of_nodup (nodup lists.ascending) (nodup otherLists.ascending)]
  exact fun node => (lists.mem node).trans (otherLists.mem node).symm

theorem lists_sortedById {nodes : NodeTable} (own : ∀ (id : NodeId) node, nodes[id]? = some node → node.id = id) :
    Lists (fun node => nodes[node.id]? = some node) (sortedById nodes) := by
  constructor
  case mem =>
    intro node
    rw [mem_sortedById]
    exact ⟨fun ⟨id, found⟩ => own id node found ▸ found, fun found => ⟨_, found⟩⟩
  case ascending => exact sortedById_eq_values own ▸ ascending_values own

theorem Lists.congr {wanted other : Node → Prop} {found : List Node} (lists : Lists wanted found)
    (same : ∀ node, wanted node ↔ other node) : Lists other found :=
  ⟨fun node => (lists.mem node).trans (same node), lists.ascending⟩

theorem Node.plain_of_edgeless {node : Node} (edgeless : node.children = ∅ ∧ node.parents = ∅) : node.Plain := by
  rw [Node.Plain, edgeless.1, edgeless.2]
  exact ⟨⟨rfl, rfl⟩, rfl, rfl⟩

def afterSaves (σ : Type) [GraphStore σ] (saves : List (List Node)) : σ :=
  saves.foldl (fun store nodes => GraphStore.saveNodes nodes store) GraphStore.empty

def lastWithId (id : NodeId) (saved : List Node) : Option Node := (saved.filter fun node => node.id = id).getLast?

def lastWithName (name : String) (saved : List Node) : Option Node :=
  (saved.filter fun node => node.name = name).getLast?

theorem mem_of_lastWithId {id : NodeId} {saved : List Node} {node : Node} (last : lastWithId id saved = some node) :
    node ∈ saved ∧ node.id = id := by
  simpa using List.mem_filter.1 (List.mem_of_getLast? last)

theorem mem_of_lastWithName {name : String} {saved : List Node} {node : Node}
    (last : lastWithName name saved = some node) : node ∈ saved ∧ node.name = name := by
  simpa using List.mem_filter.1 (List.mem_of_getLast? last)

theorem lastWithName_of_mem {saved : List Node} {node : Node} (listed : node ∈ saved) :
    ∃ last, lastWithName node.name saved = some last := by
  have nonempty : (saved.filter fun other => other.name = node.name) ≠ [] :=
    List.ne_nil_of_mem (List.mem_filter.2 ⟨listed, by simp⟩)
  exact ⟨_, List.getLast?_eq_some_getLast nonempty⟩

theorem MemoryStore.afterSaves_eq (saves : List (List Node)) :
    afterSaves MemoryStore saves = saves.flatten.foldl saveNode {} := (List.foldl_flatten ..).symm

theorem PersistentStore.afterSaves_eq (saves : List (List Node)) :
    afterSaves PersistentStore saves = saves.flatten.foldl saveNode {} := (List.foldl_flatten ..).symm

theorem getElem?_nodes_afterSaves (saves : List (List Node)) (id : NodeId) :
    (afterSaves MemoryStore saves).nodes[id]? = lastWithId id saves.flatten := by
  rw [MemoryStore.afterSaves_eq, MemoryStore.foldl_saveNode]
  refine (getElem?_insertAll_last (·.id) (fun node => node) saves.flatten ∅ id).trans ?_
  simp [lastWithId]

theorem getElem?_names_afterSaves (saves : List (List Node)) (name : String) :
    (afterSaves MemoryStore saves).names[name]? = (lastWithName name saves.flatten).map (·.id) := by
  rw [MemoryStore.afterSaves_eq, MemoryStore.foldl_saveNode]
  refine (getElem?_insertAll_last (·.name) (·.id) saves.flatten ∅ name).trans ?_
  simp [lastWithName]

theorem stores_afterSaves {saves : List (List Node)} (plain : ∀ node ∈ saves.flatten, node.Plain) :
    (afterSaves PersistentStore saves).Stores (afterSaves MemoryStore saves) := by
  rw [MemoryStore.afterSaves_eq, PersistentStore.afterSaves_eq]
  exact PersistentStore.stores_empty.saveNodes plain

theorem Engine.nodesMatching_eq {σ : Type} [GraphStore σ] {text : String} {pattern : Glob.Pattern}
    (compiled : Glob.Pattern.ofString text = .ok pattern) (store : σ) :
    nodesMatching text store = GraphStore.nodesMatching store pattern := by
  rw [nodesMatching, compiled]
  rfl

theorem MemoryStore.lists_afterSaves (saves : List (List Node)) (pattern : Glob.Pattern) :
    Lists (fun node => lastWithId node.id saves.flatten = some node ∧ pattern.accepts node.name)
      ((afterSaves MemoryStore saves).nodesMatching pattern) := by
  have found (id : NodeId) (node : Node) :
      ((afterSaves MemoryStore saves).nodes.filter fun _ node => pattern.accepts node.name)[id]? = some node ↔
        lastWithId id saves.flatten = some node ∧ pattern.accepts node.name := by
    rw [Std.TreeMap.getElem?_filter', getElem?_nodes_afterSaves, Option.filter_eq_some_iff]
  refine (lists_sortedById fun id node present => ?_).congr fun node => found node.id node
  exact (mem_of_lastWithId ((found id node).1 present).1).2

theorem PersistentStore.lists_afterSaves {saves : List (List Node)} (plain : ∀ node ∈ saves.flatten, node.Plain)
    (pattern : Glob.Pattern) : ∃ found, (afterSaves PersistentStore saves).nodesMatching pattern = .ok found ∧
      Lists (fun node => lastWithId node.id saves.flatten = some node ∧
        ∃ name last, pattern.accepts name ∧ lastWithName name saves.flatten = some last ∧ last.id = node.id) found := by
  obtain ⟨ids, read, members⟩ := (stores_afterSaves plain).nodesMatching_eq pattern
  have found (id : NodeId) (node : Node) : ((afterSaves MemoryStore saves).nodeTable ids)[id]? = some node ↔
      lastWithId id saves.flatten = some node ∧
        ∃ name last, pattern.accepts name ∧ lastWithName name saves.flatten = some last ∧ last.id = id := by
    rw [MemoryStore.getElem?_nodeTable, getElem?_nodes_afterSaves]
    rw [Option.ite_none_right_eq_some, members, and_comm]
    simp only [getElem?_names_afterSaves, Option.map_eq_some_iff]
    grind
  refine ⟨_, read, (lists_sortedById fun id node present => ?_).congr fun node => found node.id node⟩
  exact (mem_of_lastWithId ((found id node).1 present).1).2

/-- After any saves, a pattern finds in a memory store exactly the nodes whose own names match. In a persistent store it
finds those to which a matching name was last given. The two are the same when no node has changed its name and no two
nodes have had one name. -/
theorem nodesMatching_afterSaves (saves : List (List Node)) {text : String} {pattern : Glob.Pattern}
    (compiled : Glob.Pattern.ofString text = .ok pattern) :
    let saved := saves.flatten
    (∃ found, Engine.nodesMatching text (afterSaves MemoryStore saves) = .ok found ∧
      Lists (fun node => lastWithId node.id saved = some node ∧ pattern.accepts node.name) found) ∧
    ((∀ node ∈ saved, node.Plain) →
      (∃ found, Engine.nodesMatching text (afterSaves PersistentStore saves) = .ok found ∧
        Lists (fun node => lastWithId node.id saved = some node ∧
          ∃ name last, pattern.accepts name ∧ lastWithName name saved = some last ∧ last.id = node.id) found) ∧
      ((∀ node ∈ saved, ∀ other ∈ saved, node.id = other.id ↔ node.name = other.name) →
        Engine.nodesMatching text (afterSaves PersistentStore saves) =
          Engine.nodesMatching text (afterSaves MemoryStore saves))) := by
  intro saved
  have memory : Engine.nodesMatching text (afterSaves MemoryStore saves) = _ := Engine.nodesMatching_eq compiled _
  refine ⟨⟨_, memory, MemoryStore.lists_afterSaves saves pattern⟩, fun plain => ?_⟩
  obtain ⟨found, read, lists⟩ := PersistentStore.lists_afterSaves plain pattern
  have persistent := (Engine.nodesMatching_eq compiled (afterSaves PersistentStore saves)).trans read
  refine ⟨⟨found, persistent, lists⟩, fun named => ?_⟩
  have same (node : Node) : (lastWithId node.id saved = some node ∧
      ∃ name last, pattern.accepts name ∧ lastWithName name saved = some last ∧ last.id = node.id) ↔
      lastWithId node.id saved = some node ∧ pattern.accepts node.name := by
    refine and_congr_right fun current => ?_
    have listed := (mem_of_lastWithId current).1
    constructor
    · rintro ⟨name, last, accepted, given, own⟩
      obtain ⟨lastListed, rfl⟩ := mem_of_lastWithName given
      rwa [← (named last lastListed node listed).1 own]
    · intro accepted
      obtain ⟨last, given⟩ := lastWithName_of_mem listed
      obtain ⟨lastListed, sameName⟩ := mem_of_lastWithName given
      exact ⟨node.name, last, accepted, given, (named last lastListed node listed).2 sameName⟩
  rw [persistent, memory, (lists.congr same).unique (MemoryStore.lists_afterSaves saves pattern)]
  rfl

def catalogue : List (List Node) :=
  [[{ id := 1, type := "library", name := "app" }, { id := 2, type := "library", name := "lib" }],
    [{ id := 1, type := "library", name := "app", metadata := [7] }]]

theorem nodesMatching_afterSaves_catalogue :
    Engine.nodesMatching "a*" (afterSaves PersistentStore catalogue) =
      Engine.nodesMatching "a*" (afterSaves MemoryStore catalogue) ∧
    ∃ found, Engine.nodesMatching "a*" (afterSaves MemoryStore catalogue) = .ok found ∧
      { id := 1, type := "library", name := "app", metadata := [7] } ∈ found ∧ ∀ node ∈ found, node.id ≠ 2 := by
  have accepts : (Glob.Pattern.ofString "a*").map (fun pattern => (pattern.accepts "app", pattern.accepts "lib")) =
      .ok (true, false) := by decide +kernel
  obtain ⟨pattern, compiled, same⟩ := map_eq_ok.1 accepts
  obtain ⟨app, lib⟩ := Prod.mk.inj same
  have edgeless : ∀ node ∈ catalogue.flatten, node.children = ∅ ∧ node.parents = ∅ := by decide
  obtain ⟨⟨found, read, lists⟩, persistent⟩ := nodesMatching_afterSaves catalogue compiled
  obtain ⟨-, agree⟩ := persistent fun node listed => Node.plain_of_edgeless (edgeless node listed)
  refine ⟨agree (by decide), found, read, ?_, fun node listed second => ?_⟩
  · exact (lists.mem _).2 ⟨by decide, app⟩
  · obtain ⟨current, accepted⟩ := (lists.mem node).1 listed
    rw [second] at current
    obtain rfl := Option.some.inj current
    exact Bool.false_ne_true (lib.symm.trans accepted)

def renamedNode : Node := { id := 1, type := "library", name := "b" }

def secondNode : Node := { id := 2, type := "library", name := "b" }

/-- A node is found by the name that it had, and not by the name that another node has taken over from it. -/
theorem nodesMatching_renamed :
    let saves := [[{ renamedNode with name := "a" }], [renamedNode], [secondNode]]
    (Glob.Pattern.ofString "a").map (·.accepts renamedNode.name) = .ok false ∧
    (∃ found, Engine.nodesMatching "a" (afterSaves PersistentStore saves) = .ok found ∧ renamedNode ∈ found) ∧
    lastWithId 1 saves.flatten = some renamedNode ∧
    (Glob.Pattern.ofString "b").map (·.accepts renamedNode.name) = .ok true ∧
    ∃ found, Engine.nodesMatching "b" (afterSaves PersistentStore saves) = .ok found ∧ renamedNode ∉ found := by
  intro saves
  have edgeless : ∀ node ∈ saves.flatten, node.children = ∅ ∧ node.parents = ∅ := by decide
  have plain : ∀ node ∈ saves.flatten, node.Plain := fun node listed => Node.plain_of_edgeless (edgeless node listed)
  have old : (Glob.Pattern.ofString "a").map (fun pattern => (pattern.accepts "a", pattern.accepts "b")) =
      .ok (true, false) := by decide +kernel
  have new : (Glob.Pattern.ofString "b").map (fun pattern => (pattern.accepts "a", pattern.accepts "b")) =
      .ok (false, true) := by decide +kernel
  refine ⟨by decide +kernel, ?_, by decide, by decide +kernel, ?_⟩
  · obtain ⟨pattern, compiled, same⟩ := map_eq_ok.1 old
    obtain ⟨found, read, lists⟩ := PersistentStore.lists_afterSaves plain pattern
    refine ⟨found, (Engine.nodesMatching_eq compiled _).trans read, (lists.mem _).2 ⟨by decide, "a", ?_⟩⟩
    exact ⟨_, (Prod.mk.inj same).1, rfl, rfl⟩
  · obtain ⟨pattern, compiled, same⟩ := map_eq_ok.1 new
    obtain ⟨found, read, lists⟩ := PersistentStore.lists_afterSaves plain pattern
    refine ⟨found, (Engine.nodesMatching_eq compiled _).trans read, fun listed => ?_⟩
    obtain ⟨-, name, last, accepted, given, own⟩ := (lists.mem _).1 listed
    -- Only two names were given, and the one that is accepted leads to the second node.
    have names : ∀ node ∈ saves.flatten, node.name = "a" ∨ node.name = "b" := by decide
    obtain ⟨lastListed, rfl⟩ := mem_of_lastWithName given
    rcases names last lastListed with isOld | isNew
    · rw [isOld, (Prod.mk.inj same).1] at accepted
      cases accepted
    · rw [isNew] at given
      obtain rfl : secondNode = last := Option.some.inj given
      exact absurd own (by decide)

end SupplyGraph
