import SupplyGraph.Proofs.Engine.Call
import SupplyGraph.Proofs.Engine.Rebuild

/-!
Rebuilding and dropping closures is upkeep: it leaves nodes, names and the count of ids alone, and the calls that ask
about these or change these cannot tell stores apart that differ in closures and worklist.
-/

namespace SupplyGraph.Engine

open LawfulGraphStore (Holds tracks)
open Update (Agrees)

structure SameGraph (store other : MemoryStore) : Prop where
  lastId : store.lastId = other.lastId
  nodes : store.nodes = other.nodes
  names : store.names = other.names

namespace SameGraph

variable {store other : MemoryStore}

theorem refl (store : MemoryStore) : SameGraph store store := ⟨rfl, rfl, rfl⟩

theorem symm (same : SameGraph store other) : SameGraph other store :=
  ⟨same.lastId.symm, same.nodes.symm, same.names.symm⟩

theorem saveNodes (same : SameGraph store other) (nodes : List Node) :
    SameGraph (nodes.foldl MemoryStore.saveNode store) (nodes.foldl MemoryStore.saveNode other) := by
  induction nodes generalizing store other with
  | nil => exact same
  | cons node nodes ih =>
      apply ih
      constructor
      · exact same.lastId
      · exact congrArg (·.insert node.id node) same.nodes
      · exact congrArg (·.insert node.name node.id) same.names

theorem nodeTable (same : SameGraph store other) (ids : List NodeId) : store.nodeTable ids = other.nodeTable ids := by
  unfold MemoryStore.nodeTable
  rw [same.nodes]

theorem tracks : Tracks SameGraph where
  newId_eq same := congrArg (· + 1) same.lastId
  newId same := ⟨congrArg (· + 1) same.lastId, same.nodes, same.names⟩
  saveNodes nodes same _ := same.saveNodes nodes
  node same id := by
    change MemoryStore.node _ id = _
    rw [MemoryStore.node, MemoryStore.node, same.nodes]
  nodes same ids := congrArg Except.ok (same.nodeTable ids)
  idOfName same name := by
    change MemoryStore.idOfName _ name = _
    rw [MemoryStore.idOfName, MemoryStore.idOfName, same.names]
  saveClosures := by
    intro store other records same _
    rw [show GraphStore.saveClosures records store = _ from MemoryStore.foldl_saveClosures records store,
      MemoryStore.foldl_saveClosures records other]
    exact ⟨same.lastId, same.nodes, same.names⟩

theorem rebuild (same : SameGraph store other) (cancellation : Cancellation) :
    SameGraph (Engine.rebuild cancellation store).2 other := by
  rw [rebuild_eq]
  split
  · exact same
  · exact same
  · rename_i records report _
    rw [show GraphStore.saveClosures records store = _ from MemoryStore.foldl_saveClosures records store]
    exact ⟨same.lastId, same.nodes, same.names⟩

theorem clear (same : SameGraph store other) : SameGraph (Engine.clear store).2 other :=
  ⟨same.lastId, same.nodes, same.names⟩

theorem nodesMatching (same : SameGraph store other) (pattern : String) :
    Engine.nodesMatching pattern store = Engine.nodesMatching pattern other := by
  have matching (parsed : Glob.Pattern) :
      GraphStore.nodesMatching store parsed = GraphStore.nodesMatching other parsed := by
    change Except.ok (store.nodesMatching parsed) = Except.ok (other.nodesMatching parsed)
    rw [MemoryStore.nodesMatching, MemoryStore.nodesMatching, same.nodes]
  simp only [Engine.nodesMatching, matching]

theorem allNodes (same : SameGraph store other) : Engine.allNodes store = Engine.allNodes other := by
  have listed : GraphStore.nodeIds store = GraphStore.nodeIds other :=
    congrArg (fun nodes : NodeTable => Except.ok nodes.keys) same.nodes
  have nodes (ids : List NodeId) : GraphStore.nodes store ids = GraphStore.nodes other ids :=
    congrArg Except.ok (same.nodeTable ids)
  simp only [Engine.allNodes, listed, nodes]

theorem nodeByName (same : SameGraph store other) (name : String) :
    Engine.nodeByName name store = Engine.nodeByName name other := by
  have named : GraphStore.idOfName store name = GraphStore.idOfName other name := tracks.idOfName same name
  have nodes (id : NodeId) : GraphStore.node store id = GraphStore.node other id := tracks.node same id
  simp only [Engine.nodeByName, named, nodes]

theorem query_unparsed {script : String} {error : Query.SyntaxError} (failed : Query.parseScript script = .error error)
    (fallback : Option String) (store : MemoryStore) :
    Engine.query script fallback store = .error (.invalidQuery error.message) := by
  have rejected (source : Query.NodeSource) :
      Query.evaluateScript source script fallback = .error (.invalidQuery error.message) := by
    unfold Query.evaluateScript Query.readScript
    rw [failed]
    rfl
  change (do
    let ids ← Query.evaluateScript (Query.liveSource store.worklist.isEmpty store) script fallback
    return { ids, nodes := sortedById (← GraphStore.nodes store ids.toList) } : Outcome QueryAnswer) = _
  rw [rejected]
  rfl

theorem query {generated more : Nat} (same : SameGraph store other) (reachable : Reachable generated store)
    (few : generated < UInt32.size) (otherReachable : Reachable more other) (otherFew : more < UInt32.size)
    (script : String) (fallback : Option String) :
    Engine.query script fallback store = Engine.query script fallback other := by
  cases parsed : Query.parseScript script with
  | error error => rw [query_unparsed parsed, query_unparsed parsed]
  | ok expr =>
      have view : GraphStore.view store = GraphStore.view other := by
        funext id
        unfold GraphStore.view
        rw [show GraphStore.node store id = GraphStore.node other id from tracks.node same id]
      exact Query.query_eq_of_view otherReachable otherFew reachable few view parsed

end SameGraph

def Call.SeesGraph : Call → Prop
  | rebuild _ | clear | isCoherent | leaderboard .. => False
  | _ => True

theorem Call.ids_hidden {σ : Type} [GraphStore σ] {call : Call} (hidden : ¬call.SeesGraph) (store : σ) :
    call.ids store = 0 := by
  cases call <;> first | rfl | exact absurd trivial hidden

theorem Call.snd_run_same {store other : MemoryStore} (same : SameGraph store other) {call : Call}
    (hidden : ¬call.SeesGraph) : SameGraph (call.run store).2 other := by
  rw [snd_run]
  cases call with
  | rebuild cancellation => exact same.rebuild cancellation
  | clear => exact same.clear
  | isCoherent => exact same
  | leaderboard => exact same
  | _ => exact absurd trivial hidden

theorem Call.run_same {generated : Nat} {store other : MemoryStore} (same : SameGraph store other)
    (reachable : Reachable generated store) (otherReachable : Reachable generated other) {call : Call}
    (sees : call.SeesGraph) (few : generated < UInt32.size) :
    Agrees SameGraph call.run call.run store other := by
  have grounded := (otherReachable.consistent (by omega)).grounded
  cases call with
  | addNode new => exact ((insertNode_agrees SameGraph.tracks same new).returning Prod.fst).returning _
  | setDependency parent child =>
      exact (setDependency_agrees SameGraph.tracks grounded same parent child).returning _
  | addDependencies edges => exact (link_agrees SameGraph.tracks grounded same edges).returning _
  | ingest batch => exact (ingest_agrees SameGraph.tracks grounded same batch).returning _
  | rebuild => exact sees.elim
  | clear => exact sees.elim
  | node id => exact (Agrees.read same (SameGraph.tracks.node same id)).returning _
  | nodeByName name => exact (Agrees.read same (same.nodeByName name)).returning _
  | nodesMatching pattern => exact (Agrees.read same (same.nodesMatching pattern)).returning _
  | allNodes => exact (Agrees.read same same.allNodes).returning _
  | isCoherent => exact sees.elim
  | query script fallback =>
      have answers := same.query reachable (by omega) otherReachable (by omega) script fallback
      exact (Agrees.read same answers).returning _
  | leaderboard => exact sees.elim

end SupplyGraph.Engine
