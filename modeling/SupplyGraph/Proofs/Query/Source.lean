import SupplyGraph.Proofs.Engine.Coherence
import SupplyGraph.Proofs.Graph.Frontier
import SupplyGraph.Proofs.Query.Meaning

/-!
Both ways of reading closures from a store answer exactly: the search always does, and the stored closures do when
they are up to date.
-/

namespace SupplyGraph.Query

variable {generated : Nat} {store : MemoryStore}

theorem mem_foldl_edges_values {direction : Direction} (nodes : List Node) (found : IdSet) (id : NodeId) :
    id ∈ nodes.foldl (fun found node => found ∪ direction.edges node) found ↔
      id ∈ found ∨ ∃ node ∈ nodes, id ∈ direction.edges node := by
  induction nodes generalizing found with
  | nil => simp
  | cons node nodes ih => simp [ih, or_assoc]

theorem neighbours_exact (consistent : Engine.Consistent generated store) (direction : Direction)
    (frontier : IdSet) :
    ∃ found, neighbours store direction frontier = .ok found ∧
      ∀ other, other ∈ found ↔ ∃ id ∈ frontier, direction.Edge store.nodes id other := by
  refine ⟨_, rfl, fun other => ?_⟩
  rw [mem_foldl_edges_values]
  constructor
  · rintro (none | ⟨node, listed, leads⟩)
    · exact absurd none (IdSet.not_mem_empty other)
    · obtain ⟨id, found⟩ := mem_values.1 listed
      rw [MemoryStore.getElem?_nodeTable] at found
      split at found
      · rename_i member
        have stored : (store.nodes[other]?).isSome := by
          cases direction with
          | children => exact consistent.wired.closed id node other found (Or.inl leads)
          | parents => exact consistent.wired.closed id node other found (Or.inr leads)
        exact ⟨id, member, node, found, leads, Std.TreeMap.mem_iff_isSome_getElem?.2 stored⟩
      · cases found
  · rintro ⟨id, member, node, found, leads, -⟩
    refine Or.inr ⟨node, mem_values.2 ⟨id, ?_⟩, leads⟩
    rw [MemoryStore.getElem?_nodeTable, if_pos (IdSet.mem_def.1 member), found]

theorem searchClosure_exact (consistent : Engine.Consistent generated store) (direction : Direction) (id : NodeId) :
    ∃ closure, searchClosure store direction id = .ok closure ∧
      ∀ other, other ∈ closure ↔ direction.Reaches store.nodes id other := by
  obtain ⟨closure, run, exact⟩ := reachable_exact (neighbours_exact consistent direction) (IdSet.singleton id)
  refine ⟨closure, run, fun other => ?_⟩
  rw [exact]
  simp [Direction.Reaches]

theorem foldlM_insert_ok {read : NodeId → Outcome IdSet} {value : NodeId → IdSet} {ids : List NodeId}
    (each : ∀ id ∈ ids, read id = .ok (value id)) (found : Std.TreeMap NodeId IdSet) :
    ∃ table, ids.foldlM (fun found id => do return found.insert id (← read id)) found =
        (.ok table : Outcome (Std.TreeMap NodeId IdSet)) ∧
      ∀ id : NodeId, table[id]? = if id ∈ ids then some (value id) else found[id]? := by
  induction ids generalizing found with
  | nil => exact ⟨found, rfl, fun id => by simp⟩
  | cons first ids ih =>
      obtain ⟨table, run, lookups⟩ :=
        ih (fun id member => each id (List.mem_cons_of_mem _ member)) (found.insert first (value first))
      refine ⟨table, ?_, fun id => ?_⟩
      · rw [List.foldlM_cons, each first List.mem_cons_self]
        exact run
      · rw [lookups]
        by_cases later : id ∈ ids
        · simp [later]
        · by_cases equal : first = id
          · simp [equal]
          · simp [later, equal, Ne.symm equal, Std.TreeMap.getElem?_insert]

theorem takeClosures_ok {direction : Direction} {ids : List NodeId} (nodup : ids.Nodup) {table : ClosureTable}
    (stored : ∀ id ∈ ids, id ∈ table) (found : Std.TreeMap NodeId IdSet) :
    ∃ result, takeClosures direction found table ids = .ok result ∧
      ∀ id : NodeId, result[id]? = if id ∈ ids then (table[id]?).map direction.closure else found[id]? := by
  induction ids generalizing found table with
  | nil => exact ⟨found, rfl, fun id => by simp⟩
  | cons first ids ih =>
      obtain ⟨once, nodup⟩ := List.nodup_cons.1 nodup
      obtain ⟨closures, present⟩ := getElem?_of_mem (stored first (List.mem_cons_self ..))
      have others : ∀ id ∈ ids, first ≠ id := fun id member equal => once (equal ▸ member)
      have rest : ∀ id ∈ ids, id ∈ table.erase first := by
        intro id member
        rw [Std.TreeMap.mem_erase, ne_eq, Std.compare_eq_iff_eq]
        exact ⟨others id member, stored id (List.mem_cons_of_mem _ member)⟩
      obtain ⟨result, run, lookups⟩ := ih nodup rest (found.insert first (direction.closure closures))
      refine ⟨result, ?_, fun id => ?_⟩
      · rw [takeClosures, present]
        exact run
      · rw [lookups]
        by_cases later : id ∈ ids
        · simp [later, Std.TreeMap.getElem?_erase, others id later]
        · by_cases equal : first = id
          · subst equal
            simp [later, present]
          · simp [later, equal, Ne.symm equal, Std.TreeMap.getElem?_insert]

theorem mem_of_takeClosures {direction : Direction} {ids : List NodeId} {table : ClosureTable}
    {found result : Std.TreeMap NodeId IdSet} (taken : takeClosures direction found table ids = .ok result) :
    ∀ id ∈ ids, id ∈ table := by
  induction ids generalizing found table with
  | nil => exact nofun
  | cons first ids ih =>
      rw [takeClosures] at taken
      cases present : table[first]? with
      | none =>
          rw [present] at taken
          cases taken
      | some closures =>
          rw [present] at taken
          intro id member
          rcases List.mem_cons.1 member with rfl | later
          · exact mem_of_getElem? present
          · exact Std.TreeMap.mem_of_mem_erase (ih taken id later)

def HasType (store : MemoryStore) (id : NodeId) (type : String) : Prop :=
  ∃ node, store.nodes[id]? = some node ∧ node.type = type

theorem mem_idsOfType {nodes : List Node} {type : String} {id : NodeId} :
    id ∈ idsOfType nodes type ↔ ∃ node ∈ nodes, node.type = type ∧ node.id = id := by
  simp [idsOfType, and_assoc]

theorem searchClosures_exact (consistent : Engine.Consistent generated store) (direction : Direction)
    (ids : List NodeId) :
    ∃ table, searchClosures store direction ids = .ok table ∧ ∀ id ∈ ids, ∃ closure, table[id]? = some closure ∧
      ∀ other, other ∈ closure ↔ direction.Reaches store.nodes id other := by
  choose value run exact using searchClosure_exact consistent direction
  obtain ⟨table, searched, lookups⟩ := foldlM_insert_ok (fun id _ => run id) ∅
  refine ⟨table, searched, fun id member => ⟨value id, ?_, exact id⟩⟩
  rw [lookups, if_pos member]

theorem readClosures_exact {reaches : NodeId → NodeId → Prop} {direction : Direction} {ids : List NodeId}
    (nodup : ids.Nodup) (stored : ∀ id ∈ ids, ∃ closures, store.closures[id]? = some closures ∧
      ∀ other, other ∈ direction.closure closures ↔ reaches id other) :
    ∃ table, readClosures store direction ids = .ok table ∧ ∀ id ∈ ids, ∃ closure, table[id]? = some closure ∧
      ∀ other, other ∈ closure ↔ reaches id other := by
  have records (id : NodeId) (member : id ∈ ids) :
      ∃ closures, (store.closureTable ids)[id]? = some closures ∧
        ∀ other, other ∈ direction.closure closures ↔ reaches id other := by
    obtain ⟨closures, found, exact⟩ := stored id member
    refine ⟨closures, ?_, exact⟩
    rw [MemoryStore.getElem?_closureTable, if_pos member, found]
  have present : ∀ id ∈ ids, id ∈ store.closureTable ids := by
    intro id member
    obtain ⟨closures, found, -⟩ := records id member
    exact mem_of_getElem? found
  obtain ⟨table, taken, lookups⟩ := takeClosures_ok nodup present ∅
  refine ⟨table, taken, fun id member => ?_⟩
  obtain ⟨closures, found, exact⟩ := records id member
  refine ⟨direction.closure closures, ?_, exact⟩
  rw [lookups, if_pos member, found]
  rfl

theorem liveSource_answers_of_closures (consistent : Engine.Consistent generated store) {coherent : Bool}
    {reaches : Direction → NodeId → NodeId → Prop}
    (closures : ∀ (direction : Direction) (ids : List NodeId), ids.Nodup → (∀ id ∈ ids, id ∈ store.nodes) →
      ∃ table, (liveSource coherent store).closures direction ids = .ok table ∧
        ∀ id ∈ ids, ∃ closure, table[id]? = some closure ∧ ∀ other, other ∈ closure ↔ reaches direction id other) :
    (liveSource coherent store).Answers (· ∈ store.nodes) reaches (HasType store) := by
  constructor
  case closures => exact closures
  case known_of_resolve =>
    intro name id resolved
    obtain ⟨node, found, -⟩ := consistent.named name id (MemoryStore.idOfName_eq_ok.1 resolved)
    exact mem_of_getElem? found
  case retainType =>
    intro ids type
    refine ⟨_, rfl, fun id => ?_⟩
    rw [mem_idsOfType]
    constructor
    · rintro ⟨node, listed, isType, rfl⟩
      obtain ⟨id, found⟩ := mem_values.1 listed
      rw [MemoryStore.getElem?_nodeTable] at found
      split at found
      · rename_i member
        obtain ⟨own, -⟩ := consistent.indexed id node found
        rw [own]
        exact ⟨member, node, found, isType⟩
      · cases found
    · rintro ⟨member, node, found, isType⟩
      refine ⟨node, mem_values.2 ⟨id, ?_⟩, isType, (consistent.indexed id node found).1⟩
      rw [MemoryStore.getElem?_nodeTable, if_pos (IdSet.mem_def.1 member), found]

theorem liveSource_answers (consistent : Engine.Consistent generated store) {coherent : Bool}
    (upToDate : coherent → ∀ id ∈ store.nodes, Engine.UpToDate store id) :
    (liveSource coherent store).Answers (· ∈ store.nodes) (fun direction => direction.Reaches store.nodes)
      (HasType store) := by
  refine liveSource_answers_of_closures consistent fun direction ids nodup stored => ?_
  cases coherent with
  | false => exact searchClosures_exact consistent direction ids
  | true =>
      refine readClosures_exact nodup fun id member => ?_
      obtain ⟨closures, found, exact⟩ := upToDate rfl id (stored id member)
      exact ⟨closures, found, exact direction⟩

end SupplyGraph.Query
