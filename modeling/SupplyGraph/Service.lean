import SupplyGraph.Format.MessagePack
import SupplyGraph.Service.Response

/-!
The service: a graph that answers requests one by one. A payload that is no request gets an error as its reply;
the reply to a request that fails is the failure.
-/

namespace SupplyGraph

structure Service (σ : Type) where
  store : σ
  cancelled : Bool := false
  shuttingDown : Bool := false

namespace Service

variable {σ : Type} [GraphStore σ]

def start : Service σ := { store := GraphStore.empty }

def cancel (service : Service σ) : Service σ := { service with cancelled := true }

def answer (read : σ → Outcome Response) : Update (Service σ) Response := Update.read fun service => read service.store

/-- Changes the store; a failure keeps what was changed before it. -/
def change {α : Type} (update : Update σ α) : Update (Service σ) α := fun service =>
  let (result, store) := update service.store
  (result, { service with store })

def ingest (batch : IngestBatch) : Update (Service σ) Response := return .ingested (← change (Engine.ingest batch))

/-- Answers a request; the cancellation is what reaches the request while it is answered. -/
def dispatch (cancellation : Cancellation) : Request → Update (Service σ) Response
  | .addNodes nodes edges => ingest { nodes, edges }
  | .addDependencies edges => ingest { edges }
  | .cache => do
    let _ ← change (Engine.rebuild cancellation)
    return .ok true
  | .clear => do
    change Engine.clear
    return .ok true
  | .getNode id => answer fun store => return .node (← Engine.node id store)
  | .getNodeByName name => answer fun store => return .node (← Engine.nodeByName name store)
  | .getNodesByGlob pattern => answer fun store => return .nodes (← Engine.nodesMatching pattern store)
  | .allKeys => answer fun store => return .nodes (← Engine.allNodes store)
  | .query script fallback => answer fun store => return .nodes (← Engine.query script fallback store).nodes
  | .customLeaderboard script limit =>
    answer fun store => do
      let entries ← Engine.leaderboard script limit cancellation store
      return .leaderboard Response.serviceVersion (entries.map .ofEntry)
  | .check => return .status "ok"
  | .shutdown => do
    modify fun service => { service with shuttingDown := true }
    return .ok true

def handleDuring (cancellation : Cancellation) (request : Request) (service : Service σ) : Response × Service σ :=
  let (result, service) := dispatch cancellation request service
  match result with
  | .ok response => (response, service)
  | .error failure => (.ofFailure failure, service)

/-- Handles a request in whose course nobody cancels anything. -/
def handle (request : Request) (service : Service σ) : Response × Service σ :=
  service.handleDuring (.ofFlag service.cancelled) request

def decodeRequest (payload : Bytes) : Option Request := do
  let (value, _) ← MessagePack.read payload
  Request.ofValue? true value

def encodeResponse (response : Response) : Bytes := MessagePack.write response.toDocument

def invalidRequest : Response := .error "Invalid request: not a request" FailureKind.invalidInput.name

def handleFrameDuring (cancellation : Cancellation) (payload : Bytes) (service : Service σ) : Bytes × Service σ :=
  match decodeRequest payload with
  | some request =>
    let (response, service) := service.handleDuring cancellation request
    (encodeResponse response, service)
  | none => (encodeResponse invalidRequest, service)

def handleFrame (payload : Bytes) (service : Service σ) : Bytes × Service σ :=
  service.handleFrameDuring (.ofFlag service.cancelled) payload

end Service

end SupplyGraph
