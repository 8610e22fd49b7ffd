import SupplyGraph.Proofs.Engine.Call
import SupplyGraph.Service

/-!
What handling a payload comes to: at most one call of the engine, whose answer is the reply. A payload that asks for no
call gets the same reply from every service.
-/

namespace SupplyGraph

open Engine (Answer Call idsOfNodes)

def Request.call? (cancellation : Cancellation) : Request → Option Call
  | .addNodes nodes edges => some (.ingest { nodes, edges })
  | .addDependencies edges => some (.ingest { edges })
  | .cache => some (.rebuild cancellation)
  | .clear => some .clear
  | .getNode id => some (.node id)
  | .getNodeByName name => some (.nodeByName name)
  | .getNodesByGlob pattern => some (.nodesMatching pattern)
  | .allKeys => some .allNodes
  | .query script fallback => some (.query script fallback)
  | .customLeaderboard script limit => some (.leaderboard script limit cancellation)
  | .check | .shutdown => none

namespace Response

def ofAnswer : Answer → Response
  | .node found => .node found
  | .nodes found => .nodes found
  | .ingested report => .ingested report
  | .selected answer => .nodes answer.nodes
  | .ranked entries => .leaderboard serviceVersion (entries.map .ofEntry)
  | .done | .flag _ | .count _ | .rebuilt _ => .ok true

def ofResult : Outcome Answer → Response
  | .ok answer => .ofAnswer answer
  | .error failure => .ofFailure failure

end Response

namespace Service

variable {σ α : Type}

theorem change_returning (update : Update σ α) (answer : α → Answer) (service : Service σ) :
    (do return .ofAnswer (answer (← change update)) : Update (Service σ) Response) service =
      (((do return answer (← update) : Update σ Answer) service.store).1.map .ofAnswer,
        { service with store := ((do return answer (← update) : Update σ Answer) service.store).2 }) := by
  rw [Update.bind_pure, Update.bind_pure]
  unfold change
  rcases update service.store with ⟨result, after⟩
  cases result <;> rfl

theorem answer_returning (query : σ → Outcome α) (answer : α → Answer) (service : Service σ) :
    Service.answer (fun store => return .ofAnswer (answer (← query store))) service =
      (((do return answer (← Update.read query) : Update σ Answer) service.store).1.map .ofAnswer,
        { service with store := ((do return answer (← Update.read query) : Update σ Answer) service.store).2 }) := by
  rw [Update.bind_pure]
  unfold Service.answer Update.read
  dsimp only
  cases query service.store <;> rfl

variable [GraphStore σ]

theorem dispatch_of_call {cancellation : Cancellation} {request : Request} {call : Call}
    (asks : request.call? cancellation = some call) (service : Service σ) :
    dispatch cancellation request service =
      ((call.run service.store).1.map .ofAnswer, { service with store := (call.run service.store).2 }) := by
  cases request with
  | check => cases asks
  | shutdown => cases asks
  | addNodes => cases asks; exact change_returning _ .ingested service
  | addDependencies => cases asks; exact change_returning _ .ingested service
  | cache => cases asks; exact change_returning _ .rebuilt service
  | clear => cases asks; exact change_returning _ (fun _ => .done) service
  | getNode => cases asks; exact answer_returning _ .node service
  | getNodeByName => cases asks; exact answer_returning _ .node service
  | getNodesByGlob => cases asks; exact answer_returning _ .nodes service
  | allKeys => cases asks; exact answer_returning _ .nodes service
  | query => cases asks; exact answer_returning _ .selected service
  | customLeaderboard => cases asks; exact answer_returning _ .ranked service

theorem handleDuring_of_call {cancellation : Cancellation} {request : Request} {call : Call}
    (asks : request.call? cancellation = some call) (service : Service σ) :
    service.handleDuring cancellation request =
      (.ofResult (call.run service.store).1, { service with store := (call.run service.store).2 }) := by
  unfold handleDuring
  rw [dispatch_of_call asks]
  cases (call.run service.store).1 <;> rfl

def callOf? (cancellation : Cancellation) (payload : Bytes) : Option Call := do
  (← decodeRequest payload).call? cancellation

theorem handleFrameDuring_of_call {cancellation : Cancellation} {payload : Bytes} {call : Call}
    (asks : callOf? cancellation payload = some call) (service : Service σ) :
    service.handleFrameDuring cancellation payload =
      (encodeResponse (.ofResult (call.run service.store).1),
        { service with store := (call.run service.store).2 }) := by
  obtain ⟨request, decoded, asks⟩ := Option.bind_eq_some_iff.1 asks
  unfold handleFrameDuring
  rw [decoded]
  dsimp only
  rw [handleDuring_of_call asks]

variable (σ) in
theorem handleFrameDuring_of_none {cancellation : Cancellation} {payload : Bytes}
    (asks : callOf? cancellation payload = none) :
    ∃ reply, ∀ (service : Service σ) (other : Cancellation),
      (service.handleFrameDuring other payload).1 = reply ∧
        (service.handleFrameDuring other payload).2.store = service.store := by
  unfold handleFrameDuring
  unfold callOf? at asks
  cases decoded : decodeRequest payload with
  | none => exact ⟨encodeResponse invalidRequest, fun _ _ => ⟨rfl, rfl⟩⟩
  | some request =>
      rw [decoded] at asks
      cases request with
      | check => exact ⟨encodeResponse (.status "ok"), fun _ _ => ⟨rfl, rfl⟩⟩
      | shutdown => exact ⟨encodeResponse (.ok true), fun _ _ => ⟨rfl, rfl⟩⟩
      | _ => cases asks

def idsOfPayload (payload : Bytes) (store : σ) : Nat :=
  match decodeRequest payload with
  | some (.addNodes nodes _) => idsOfNodes nodes store
  | _ => 0

theorem idsOfPayload_of_call {cancellation : Cancellation} {payload : Bytes} {call : Call}
    (asks : callOf? cancellation payload = some call) (store : σ) : idsOfPayload payload store = call.ids store := by
  obtain ⟨request, decoded, asks⟩ := Option.bind_eq_some_iff.1 asks
  unfold idsOfPayload
  rw [decoded]
  cases request <;> cases asks <;> rfl

theorem idsOfPayload_of_none {cancellation : Cancellation} {payload : Bytes}
    (asks : callOf? cancellation payload = none) (store : σ) : idsOfPayload payload store = 0 := by
  unfold idsOfPayload
  unfold callOf? at asks
  cases decoded : decodeRequest payload with
  | none => rfl
  | some request =>
      rw [decoded] at asks
      cases request <;> first | rfl | cases asks

end Service

end SupplyGraph
