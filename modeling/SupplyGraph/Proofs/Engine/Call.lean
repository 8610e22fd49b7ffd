import SupplyGraph.Proofs.Query.Answers
import SupplyGraph.Proofs.Store.Matching

/-!
All calls of the engine as one type, with what they answer. A call on any store answers as it does on the memory store
that describes it, and what it leaves behind is described again.
-/

namespace SupplyGraph.Engine

open LawfulGraphStore (Holds tracks)
open Update (Agrees)

inductive Call
  | addNode (new : NewNode)
  | setDependency (parent child : NodeId)
  | addDependencies (edges : List (NodeId × NodeId))
  | ingest (batch : IngestBatch)
  | rebuild (cancellation : Cancellation)
  | clear
  | node (id : NodeId)
  | nodeByName (name : String)
  | nodesMatching (pattern : String)
  | allNodes
  | isCoherent
  | query (script : String) (fallback : Option String)
  | leaderboard (script : String) (limit : Option Nat) (cancellation : Cancellation)

inductive Answer
  | done
  | flag (value : Bool)
  | count (edges : Nat)
  | node (found : Node)
  | nodes (found : List Node)
  | ingested (report : IngestReport)
  | rebuilt (report : Option RebuildReport)
  | selected (answer : QueryAnswer)
  | ranked (entries : List Query.LeaderboardEntry)
deriving DecidableEq

namespace Call

variable {σ : Type} [GraphStore σ]

def run : Call → Update σ Answer
  | addNode new => return .node (← Engine.addNode new)
  | setDependency parent child => do
    Engine.setDependency parent child
    return .done
  | addDependencies edges => return .count (← Engine.addDependencies edges)
  | ingest batch => return .ingested (← Engine.ingest batch)
  | rebuild cancellation => return .rebuilt (← Engine.rebuild cancellation)
  | clear => do
    Engine.clear
    return .done
  | node id => return .node (← Update.read (Engine.node id))
  | nodeByName name => return .node (← Update.read (Engine.nodeByName name))
  | nodesMatching pattern => return .nodes (← Update.read (Engine.nodesMatching pattern))
  | allNodes => return .nodes (← Update.read Engine.allNodes)
  | isCoherent => return .flag (← Update.read SupplyGraph.isCoherent)
  | query script fallback => return .selected (← Update.read (Engine.query script fallback))
  | leaderboard script limit cancellation =>
    return .ranked (← Update.read (Engine.leaderboard script limit cancellation))

def ids (call : Call) (store : σ) : Nat :=
  match call with
  | addNode new => idsOfNode new store
  | ingest batch => idsOfNodes batch.nodes store
  | _ => 0

def operation? : Call → Option Operation
  | addNode new => some (.addNode new)
  | setDependency parent child => some (.setDependency parent child)
  | addDependencies edges => some (.addDependencies edges)
  | ingest batch => some (.ingest batch)
  | rebuild cancellation => some (.rebuild cancellation)
  | clear => some .clear
  | _ => none

theorem snd_run (call : Call) (store : σ) :
    (call.run store).2 = (call.operation?.map fun operation => operation.apply store).getD store := by
  cases call <;> exact congrArg Prod.snd (Update.bind_pure _ _ store)

theorem ids_eq (call : Call) (store : σ) :
    call.ids store = (call.operation?.map fun operation => operation.ids store).getD 0 := by
  cases call <;> rfl

theorem ids_congr {related : σ → MemoryStore → Prop} (tracks : Tracks related) {store : σ} {contents : MemoryStore}
    (holds : related store contents) (call : Call) : call.ids store = call.ids contents := by
  simp only [ids_eq, Operation.ids_congr tracks holds]

theorem reachable_run {generated : Nat} {store : σ} (reachable : Reachable generated store) (call : Call) :
    Reachable (generated + call.ids store) (call.run store).2 := by
  rw [snd_run, ids_eq]
  cases call.operation? with
  | none => exact reachable
  | some operation => exact .step generated store operation reachable

end Call

variable {σ : Type} [GraphStore σ] [MatchingGraphStore σ] {store : σ} {contents : MemoryStore} {generated : Nat}

theorem node_congr (holds : Holds store contents) (id : NodeId) : Engine.node id store = Engine.node id contents :=
  LawfulGraphStore.node holds id

theorem nodeByName_congr (holds : Holds store contents) (name : String) :
    nodeByName name store = nodeByName name contents := by
  have named : GraphStore.idOfName store name = GraphStore.idOfName contents name :=
    LawfulGraphStore.idOfName holds name
  have nodes (id : NodeId) : GraphStore.node store id = GraphStore.node contents id := node_congr holds id
  simp only [nodeByName, named, nodes]

theorem nodesMatching_congr (consistent : Consistent generated contents) (holds : Holds store contents)
    (pattern : String) : nodesMatching pattern store = nodesMatching pattern contents := by
  have matching (parsed : Glob.Pattern) :
      GraphStore.nodesMatching store parsed = GraphStore.nodesMatching contents parsed :=
    MatchingGraphStore.nodesMatching holds consistent parsed
  simp only [nodesMatching, matching]

theorem allNodes_congr (holds : Holds store contents) : allNodes store = allNodes contents := by
  have listed : GraphStore.nodeIds store = GraphStore.nodeIds contents := LawfulGraphStore.nodeIds holds
  simp only [allNodes, listed, nodes_congr holds]

theorem leaderboard_congr (holds : Holds store contents) (script : String) (limit : Option Nat)
    (cancellation : Cancellation) :
    leaderboard script limit cancellation store = leaderboard script limit cancellation contents := by
  simp only [leaderboard, Query.leaderboard, isCoherent_congr holds, Query.load_congr holds]

theorem Call.run_agrees (consistent : Consistent generated contents) (holds : Holds store contents) (call : Call) :
    Agrees Holds call.run call.run store contents := by
  cases call with
  | addNode new =>
      exact ((insertNode_agrees tracks holds new).returning Prod.fst).returning _
  | setDependency parent child =>
      exact (setDependency_agrees tracks consistent.grounded holds parent child).returning _
  | addDependencies edges => exact (link_agrees tracks consistent.grounded holds edges).returning _
  | ingest batch => exact (ingest_agrees tracks consistent.grounded holds batch).returning _
  | rebuild cancellation => exact (rebuild_agrees holds cancellation).returning _
  | clear =>
      exact (Agrees.write (LawfulGraphStore.dropClosures holds)).returning _
  | node id => exact (Agrees.read holds (node_congr holds id)).returning _
  | nodeByName name => exact (Agrees.read holds (nodeByName_congr holds name)).returning _
  | nodesMatching pattern =>
      exact (Agrees.read holds (nodesMatching_congr consistent holds pattern)).returning _
  | allNodes => exact (Agrees.read holds (allNodes_congr holds)).returning _
  | isCoherent => exact (Agrees.read holds (isCoherent_congr holds)).returning _
  | query script fallback =>
      exact (Agrees.read holds (Query.query_congr holds script fallback)).returning _
  | leaderboard script limit cancellation =>
      exact (Agrees.read holds (leaderboard_congr holds script limit cancellation)).returning _

end SupplyGraph.Engine
