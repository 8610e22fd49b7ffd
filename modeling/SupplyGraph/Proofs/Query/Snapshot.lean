import SupplyGraph.Proofs.Query.Answers

/-!
A snapshot of an idle store answers as queries of the store do. Its index of names is made from the nodes, and does not
depend on the order in which they are entered.
-/

namespace SupplyGraph.Query

open Engine (Consistent UpToDate)
open LawfulGraphStore (Holds)

variable {contents : MemoryStore} {snapshot : Snapshot} {generated : Nat} {order : List Node}

def namesIn (order : List Node) : Std.TreeMap String NodeId :=
  order.foldl (fun names node => names.insert node.name node.id) ∅

def Snapshot.sourceIn (snapshot : Snapshot) (order : List Node) : NodeSource :=
  { snapshot.source with
    resolve := fun name =>
      match (namesIn order)[name]? with
      | some id => .ok id
      | none => .error (.nameNotFound name) }

theorem Snapshot.sourceIn_values (snapshot : Snapshot) : snapshot.sourceIn snapshot.nodes.values = snapshot.source := rfl

structure Snapshot.Shows (snapshot : Snapshot) (contents : MemoryStore) : Prop where
  nodes : ∀ id : NodeId, snapshot.nodes[id]? = contents.nodes[id]?
  closures : ∀ id ∈ contents.nodes, snapshot.closures[id]? = contents.closures[id]?

theorem Snapshot.shows_of_load (loaded : Snapshot.load contents = .ok snapshot) : snapshot.Shows contents := by
  obtain rfl := Except.ok.inj loaded
  constructor
  case nodes => exact contents.getElem?_nodeTable_keys
  case closures =>
    intro id present
    exact (contents.getElem?_closureTable _ id).trans (if_pos (Std.TreeMap.mem_keys.2 present))

namespace Snapshot.Shows

theorem mem_values (shows : snapshot.Shows contents) {node : Node} :
    node ∈ snapshot.nodes.values ↔ ∃ id : NodeId, contents.nodes[id]? = some node := by
  simp only [SupplyGraph.mem_values, shows.nodes]

theorem eq_of_id (shows : snapshot.Shows contents) (consistent : Consistent generated contents) {node other : Node}
    (listed : node ∈ snapshot.nodes.values) (otherListed : other ∈ snapshot.nodes.values) (same : node.id = other.id) :
    node = other := by
  obtain ⟨id, found⟩ := shows.mem_values.1 listed
  obtain ⟨otherId, otherFound⟩ := shows.mem_values.1 otherListed
  obtain rfl := (consistent.indexed id node found).1
  obtain rfl := (consistent.indexed otherId other otherFound).1
  exact Option.some.inj (found.symm.trans (same ▸ otherFound))

theorem nodup_ids (shows : snapshot.Shows contents) (consistent : Consistent generated contents) :
    (snapshot.nodes.values.map (·.id)).Nodup := by
  have keys : snapshot.nodes.values.map (·.id) = snapshot.nodes.keys := by
    rw [values_eq_map_toList, List.map_map, ← Std.TreeMap.map_fst_toList_eq_keys]
    refine List.map_congr_left fun entry member => ?_
    have found := Std.TreeMap.mem_toList_iff_getElem?_eq_some.1 member
    rw [shows.nodes] at found
    exact (consistent.indexed _ _ found).1
  rw [keys]
  exact Std.TreeMap.nodup_keys

theorem nodup_names (shows : snapshot.Shows contents) (consistent : Consistent generated contents) :
    (snapshot.nodes.values.map (·.name)).Nodup := by
  refine List.Nodup.map_on (fun node listed other otherListed same => ?_) (shows.nodup_ids consistent).of_map
  obtain ⟨id, found⟩ := shows.mem_values.1 listed
  obtain ⟨otherId, otherFound⟩ := shows.mem_values.1 otherListed
  obtain ⟨isId, named⟩ := consistent.indexed id node found
  obtain ⟨isOtherId, otherNamed⟩ := consistent.indexed otherId other otherFound
  rw [same, otherNamed] at named
  refine shows.eq_of_id consistent listed otherListed ?_
  rw [isId, isOtherId, Option.some.inj named]

theorem resolve_eq (shows : snapshot.Shows contents) (consistent : Consistent generated contents)
    (perm : order.Perm snapshot.nodes.values) : (snapshot.sourceIn order).resolve = contents.idOfName := by
  have nodup : (order.map (·.name)).Nodup := (perm.map _).nodup_iff.2 (shows.nodup_names consistent)
  have listed (node : Node) : node ∈ order ↔ ∃ id : NodeId, contents.nodes[id]? = some node :=
    perm.mem_iff.trans shows.mem_values
  have names (name : String) : (namesIn order)[name]? = contents.names[name]? := by
    cases known : contents.names[name]? with
    | some id =>
        obtain ⟨node, found, rfl⟩ := consistent.named name id known
        rw [← (consistent.indexed id node found).1]
        exact getElem?_insertAll_of_nodup (·.id) nodup ∅ ((listed node).2 ⟨id, found⟩)
    | none =>
        have absent : name ∉ order.map (·.name) := by
          intro member
          obtain ⟨node, isListed, rfl⟩ := List.mem_map.1 member
          obtain ⟨id, found⟩ := (listed node).1 isListed
          rw [(consistent.indexed id node found).2] at known
          cases known
        exact (getElem?_insertAll_of_not_mem absent ∅).trans Std.TreeMap.getElem?_emptyc
  funext name
  simp only [sourceIn, names]
  rfl

end Snapshot.Shows

def closureIn (closures : ClosureTable) (direction : Direction) (id : NodeId) : Outcome IdSet :=
  (closures[id]?).elim (.error (.closuresNotFound id)) fun record => .ok (direction.closure record)

theorem lookUpClosures_eq (closures : ClosureTable) (direction : Direction) (ids : List NodeId) :
    Snapshot.lookUpClosures closures direction ids =
      ids.foldlM (fun found id => do return found.insert id (← closureIn closures direction id)) ∅ := by
  unfold Snapshot.lookUpClosures
  congr 1
  funext found id
  unfold closureIn
  cases closures[id]? <;> rfl

theorem lookUpClosures_exact {closures : ClosureTable} {reaches : NodeId → NodeId → Prop} {direction : Direction}
    {ids : List NodeId} (stored : ∀ id ∈ ids, ∃ record, closures[id]? = some record ∧
      ∀ other, other ∈ direction.closure record ↔ reaches id other) :
    ∃ table, Snapshot.lookUpClosures closures direction ids = .ok table ∧ ∀ id ∈ ids, ∃ closure,
      table[id]? = some closure ∧ ∀ other, other ∈ closure ↔ reaches id other := by
  let value (id : NodeId) : IdSet := (closures[id]?).elim ∅ direction.closure
  have each : ∀ id ∈ ids, closureIn closures direction id = .ok (value id) := by
    intro id member
    obtain ⟨record, found, -⟩ := stored id member
    simp only [closureIn, value, found, Option.elim_some]
  obtain ⟨table, run, lookups⟩ := foldlM_insert_ok each ∅
  refine ⟨table, (lookUpClosures_eq closures direction ids).trans run, fun id member => ⟨value id, ?_, ?_⟩⟩
  · rw [lookups, if_pos member]
  · obtain ⟨record, found, exact⟩ := stored id member
    simpa only [value, found, Option.elim_some] using exact

theorem Snapshot.Shows.answers (shows : snapshot.Shows contents) (consistent : Consistent generated contents)
    (upToDate : ∀ id ∈ contents.nodes, UpToDate contents id) (perm : order.Perm snapshot.nodes.values) :
    (snapshot.sourceIn order).Answers (· ∈ contents.nodes) (fun direction => direction.Reaches contents.nodes)
      (HasType contents) := by
  constructor
  case known_of_resolve =>
    intro name id resolved
    rw [shows.resolve_eq consistent perm] at resolved
    obtain ⟨node, found, -⟩ := consistent.named name id (MemoryStore.idOfName_eq_ok.1 resolved)
    exact mem_of_getElem? found
  case closures =>
    intro direction ids _ stored
    refine lookUpClosures_exact fun id member => ?_
    obtain ⟨record, found, exact⟩ := upToDate id (stored id member)
    exact ⟨record, (shows.closures id (stored id member)).trans found, exact direction⟩
  case retainType =>
    intro ids type
    refine ⟨_, rfl, fun id => ?_⟩
    rw [mem_idsOfType]
    simp only [List.mem_filterMap, shows.nodes, ← IdSet.mem_def]
    constructor
    · rintro ⟨node, ⟨key, member, found⟩, isType, rfl⟩
      rw [(consistent.indexed key node found).1]
      exact ⟨member, node, found, isType⟩
    · rintro ⟨member, node, found, isType⟩
      exact ⟨node, ⟨id, member, found⟩, isType, (consistent.indexed id node found).1⟩

variable {σ : Type} [GraphStore σ] [LawfulGraphStore σ] {store : σ} {script : String} {expr : Expr}

theorem snapshot_ids (reachable : Engine.Reachable generated store) (few : generated < UInt32.size)
    (idle : isCoherent store = .ok true) (loaded : Snapshot.load store = .ok snapshot)
    (perm : order.Perm snapshot.nodes.values) (parsed : parseScript script = .ok expr) (fallback : Option String) :
    (Engine.query script fallback store).map (·.ids) = expr.evaluate (snapshot.sourceIn order) fallback := by
  obtain ⟨contents, described, holds⟩ := reachable.described few
  have consistent := described.consistent few
  have shows := Snapshot.shows_of_load ((load_congr holds).symm.trans loaded)
  have empty : contents.worklist = [] :=
    List.isEmpty_iff.1 (Except.ok.inj ((Engine.isCoherent_congr holds).symm.trans idle))
  have answers := shows.answers consistent (described.coherent few empty) perm
  rw [query_ids reachable few consistent holds (shows.resolve_eq consistent perm) answers parsed,
    evaluateScript_eq parsed]

end SupplyGraph.Query
