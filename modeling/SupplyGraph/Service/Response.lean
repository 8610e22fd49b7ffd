import SupplyGraph.Service.Request

/-!
The replies to requests, as documents.
-/

namespace SupplyGraph

/-- A row of a leaderboard as clients see it, with the ids of the answer in a list. -/
structure RankedNode where
  node : Node
  outputIds : List NodeId
deriving DecidableEq

def RankedNode.ofEntry (entry : Query.LeaderboardEntry) : RankedNode := ⟨entry.node, entry.output.toList⟩

inductive Response
  | ok (done : Bool)
  | error (message kind : String)
  | node (found : Node)
  | nodes (found : List Node)
  | leaderboard (serviceVersion : String) (entries : List RankedNode)
  | status (word : String)
  | ingested (report : IngestReport)
deriving DecidableEq

namespace Response

def serviceVersion : String := "v1"

def ofFailure (failure : Failure) : Response := .error failure.message failure.kind.name

def entryDocument (entry : RankedNode) : Document :=
  .record [("node", entry.node.toDocument), ("outputIds", .list (entry.outputIds.map fun id => .natural id.toNat))]

def edgeDocument (edge : String × String) : Document := .record [("from", .text edge.1), ("to", .text edge.2)]

def toDocument : Response → Document
  | ok done => .record [("ok", .bool done)]
  | error message kind => .record [("error", .text message), ("kind", .text kind)]
  | node found => .record [("node", found.toDocument)]
  | nodes found => .record [("nodes", .list (found.map Node.toDocument))]
  | leaderboard version entries =>
    .record [("serviceVersion", .text version), ("entries", .list (entries.map entryDocument))]
  | status word => .record [("status", .text word)]
  | ingested report =>
    .record [("nodesAdded", .natural report.nodesAdded), ("edgesAdded", .natural report.edgesAdded),
      ("skippedEdges", .list (report.skippedEdges.map edgeDocument))]

end Response

end SupplyGraph
