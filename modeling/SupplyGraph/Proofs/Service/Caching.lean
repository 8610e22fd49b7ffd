import SupplyGraph.Proofs.Engine.Upkeep
import SupplyGraph.Proofs.Service.Handling

/-!
Caching is no affair of clients. Requests to rebuild or drop closures may come at any time, or not at all, and be cut
short by a cancellation: the replies to all other requests, rankings excepted, are the same to the last byte.
-/

namespace SupplyGraph

open Engine (Call Reachable SameGraph)
open LawfulGraphStore (Holds tracks)

namespace Service

def isUpkeep (payload : Bytes) : Bool :=
  match decodeRequest payload with
  | some .cache | some .clear => true
  | _ => false

def isPlain (payload : Bytes) : Bool :=
  match decodeRequest payload with
  | some .cache | some .clear | some (.customLeaderboard ..) => false
  | _ => true

theorem isPlain_of_isUpkeep {payload : Bytes} (upkeep : isUpkeep payload = true) : isPlain payload = false := by
  unfold isUpkeep at upkeep
  unfold isPlain
  split at upkeep
  · rename_i asked
    rw [asked]
  · rename_i asked
    rw [asked]
  · cases upkeep

theorem callOf?_cases {cancellation : Cancellation} {payload : Bytes} {call : Call}
    (asks : callOf? cancellation payload = some call) (other : Cancellation) :
    (call.SeesGraph ∧ callOf? other payload = some call ∧ isUpkeep payload = false) ∨
      (¬call.SeesGraph ∧ isPlain payload = false ∧
        ∃ otherCall, callOf? other payload = some otherCall ∧ ¬otherCall.SeesGraph) := by
  obtain ⟨request, decoded, asks⟩ := Option.bind_eq_some_iff.1 asks
  unfold callOf? isUpkeep isPlain
  rw [decoded]
  cases request <;> cases asks
  -- Only the two calls that take a cancellation differ between the sides, and neither sees the graph.
  all_goals first
    | exact Or.inl ⟨trivial, rfl, rfl⟩
    | exact Or.inr ⟨id, rfl, _, rfl, id⟩

variable {σ : Type} [GraphStore σ]

structure Exchange where
  payload : Bytes
  cancellation : Cancellation

def Exchange.handle (sent : Exchange) (service : Service σ) : Bytes × Service σ :=
  service.handleFrameDuring sent.cancellation sent.payload

def replies : List Exchange → Service σ → List (Bytes × Bytes)
  | [], _ => []
  | sent :: rest, service => (sent.payload, (sent.handle service).1) :: replies rest (sent.handle service).2

def idsOfExchanges : List Exchange → Service σ → Nat
  | [], _ => 0
  | sent :: rest, service => idsOfPayload sent.payload service.store + idsOfExchanges rest (sent.handle service).2

def common (exchanges : List Exchange) : List Bytes :=
  (exchanges.map (·.payload)).filter fun payload => !isUpkeep payload

def plainReplies (exchanges : List Exchange) (service : Service σ) : List (Bytes × Bytes) :=
  (replies exchanges service).filter fun (payload, _) => isPlain payload

theorem plainReplies_cons (sent : Exchange) (rest : List Exchange) (service : Service σ) :
    plainReplies (sent :: rest) service =
      (if isPlain sent.payload then [(sent.payload, (sent.handle service).1)] else []) ++
        plainReplies rest (sent.handle service).2 := by
  cases plain : isPlain sent.payload <;> simp [plainReplies, replies, plain]

/-- The same payloads in the same order, with upkeep anywhere on either side. -/
inductive Interleaved : List Exchange → List Exchange → Prop
  | done : Interleaved [] []
  | left {sent : Exchange} {first second : List Exchange} (upkeep : isUpkeep sent.payload = true)
      (rest : Interleaved first second) : Interleaved (sent :: first) second
  | right {sent : Exchange} {first second : List Exchange} (upkeep : isUpkeep sent.payload = true)
      (rest : Interleaved first second) : Interleaved first (sent :: second)
  | both {sent other : Exchange} {first second : List Exchange} (same : sent.payload = other.payload)
      (rest : Interleaved first second) : Interleaved (sent :: first) (other :: second)

theorem common_upkeep {sent : Exchange} (upkeep : isUpkeep sent.payload = true) (rest : List Exchange) :
    common (sent :: rest) = common rest := by
  simp [common, upkeep]

theorem common_other {sent : Exchange} (upkeep : isUpkeep sent.payload = false) (rest : List Exchange) :
    common (sent :: rest) = sent.payload :: common rest := by
  simp [common, upkeep]

theorem interleaved_of_common {first second : List Exchange} (same : common first = common second) :
    Interleaved first second := by
  induction first generalizing second with
  | nil =>
      induction second with
      | nil => exact .done
      | cons other second ih =>
          cases upkeep : isUpkeep other.payload with
          | true =>
              rw [common_upkeep upkeep] at same
              exact .right upkeep (ih same)
          | false =>
              rw [common_other upkeep] at same
              cases same
  | cons sent first ih =>
      cases upkeep : isUpkeep sent.payload with
      | true =>
          rw [common_upkeep upkeep] at same
          exact .left upkeep (ih same)
      | false =>
          rw [common_other upkeep] at same
          induction second with
          | nil => cases same
          | cons other second otherIh =>
              cases otherUpkeep : isUpkeep other.payload with
              | true =>
                  rw [common_upkeep otherUpkeep] at same
                  exact .right otherUpkeep (otherIh same)
              | false =>
                  rw [common_other otherUpkeep] at same
                  obtain ⟨payload, rest⟩ := List.cons.inj same
                  exact .both payload (ih rest)

end Service

variable {σ : Type} [GraphStore σ] [MatchingGraphStore σ] {store other : σ} {generated : Nat}

/-- Both stores are behind runs that generated as many ids, and they differ in closures and worklist at most. -/
def Alike (generated : Nat) (store other : σ) : Prop :=
  ∃ contents otherContents : MemoryStore, Reachable generated contents ∧ Reachable generated otherContents ∧
    Holds store contents ∧ Holds other otherContents ∧ SameGraph contents otherContents

namespace Alike

theorem empty : Alike 0 (GraphStore.empty : σ) GraphStore.empty :=
  ⟨GraphStore.empty, GraphStore.empty, .empty, .empty, LawfulGraphStore.empty, LawfulGraphStore.empty, .refl _⟩

theorem symm (alike : Alike generated store other) : Alike generated other store := by
  obtain ⟨contents, otherContents, reachable, otherReachable, holds, otherHolds, same⟩ := alike
  exact ⟨otherContents, contents, otherReachable, reachable, otherHolds, holds, same.symm⟩

theorem run_hidden (alike : Alike generated store other) {call : Call} (hidden : ¬call.SeesGraph)
    (few : generated < UInt32.size) : Alike generated (call.run store).2 other := by
  obtain ⟨contents, otherContents, reachable, otherReachable, holds, otherHolds, same⟩ := alike
  have none : call.ids contents = 0 := Call.ids_hidden hidden contents
  have after := Call.reachable_run reachable call
  rw [none, Nat.add_zero] at after
  have agrees := call.run_agrees (reachable.consistent few) holds
  exact ⟨_, otherContents, after, otherReachable, agrees.2, otherHolds, Call.snd_run_same same hidden⟩

theorem run_seen (alike : Alike generated store other) {call : Call} (sees : call.SeesGraph)
    (few : generated + call.ids store < UInt32.size) : (call.run store).1 = (call.run other).1 ∧
      Alike (generated + call.ids store) (call.run store).2 (call.run other).2 := by
  obtain ⟨contents, otherContents, reachable, otherReachable, holds, otherHolds, same⟩ := alike
  have ids : call.ids store = call.ids contents := Call.ids_congr tracks holds call
  have otherIds : call.ids contents = call.ids otherContents := Call.ids_congr SameGraph.tracks same call
  have agrees := call.run_agrees (reachable.consistent (by omega)) holds
  have otherAgrees := call.run_agrees (otherReachable.consistent (by omega)) otherHolds
  have between := Call.run_same same reachable otherReachable sees (by omega)
  refine ⟨agrees.1.trans (between.1.trans otherAgrees.1.symm), _, _, ?_, ?_, agrees.2, otherAgrees.2, between.2⟩
  · rw [ids]
    exact Call.reachable_run reachable call
  · rw [ids, otherIds]
    exact Call.reachable_run otherReachable call

end Alike

namespace Service

theorem alike_upkeep {service other : Service σ} (alike : Alike generated service.store other.store) {sent : Exchange}
    (upkeep : isUpkeep sent.payload = true) (few : generated < UInt32.size) :
    idsOfPayload sent.payload service.store = 0 ∧ Alike generated (sent.handle service).2.store other.store := by
  unfold Exchange.handle
  cases asks : callOf? sent.cancellation sent.payload with
  | none =>
      obtain ⟨_, unchanged⟩ := handleFrameDuring_of_none σ asks
      rw [(unchanged service sent.cancellation).2]
      exact ⟨idsOfPayload_of_none asks service.store, alike⟩
  | some call =>
      rcases callOf?_cases asks sent.cancellation with ⟨_, _, plain⟩ | ⟨hidden, _⟩
      · rw [upkeep] at plain
        cases plain
      · rw [handleFrameDuring_of_call asks, idsOfPayload_of_call asks, Call.ids_hidden hidden]
        exact ⟨rfl, alike.run_hidden hidden few⟩

theorem alike_both {service other : Service σ} (alike : Alike generated service.store other.store)
    {sent twin : Exchange} (same : sent.payload = twin.payload)
    (few : generated + idsOfPayload sent.payload service.store < UInt32.size) :
    (isPlain sent.payload = true → (sent.handle service).1 = (twin.handle other).1) ∧
      Alike (generated + idsOfPayload sent.payload service.store)
        (sent.handle service).2.store (twin.handle other).2.store := by
  unfold Exchange.handle
  rw [← same]
  cases asks : callOf? sent.cancellation sent.payload with
  | none =>
      obtain ⟨reply, fixed⟩ := handleFrameDuring_of_none σ asks
      obtain ⟨replied, kept⟩ := fixed service sent.cancellation
      obtain ⟨otherReplied, otherKept⟩ := fixed other twin.cancellation
      rw [replied, kept, otherReplied, otherKept, idsOfPayload_of_none asks]
      exact ⟨fun _ => rfl, alike⟩
  | some call =>
      rw [idsOfPayload_of_call asks] at few ⊢
      rw [handleFrameDuring_of_call asks]
      rcases callOf?_cases asks twin.cancellation with
        ⟨sees, otherAsks, _⟩ | ⟨hidden, notPlain, otherCall, otherAsks, otherHidden⟩
      · rw [handleFrameDuring_of_call otherAsks]
        obtain ⟨answers, after⟩ := alike.run_seen sees few
        exact ⟨fun _ => by rw [answers], after⟩
      · rw [handleFrameDuring_of_call otherAsks]
        rw [Call.ids_hidden hidden] at few ⊢
        constructor
        · intro plain
          rw [notPlain] at plain
          cases plain
        · have left := alike.run_hidden hidden few
          exact (left.symm.run_hidden otherHidden few).symm

theorem plainReplies_congr {first second : List Exchange} (interleaved : Interleaved first second)
    {service other : Service σ} (alike : Alike generated service.store other.store)
    (few : generated + idsOfExchanges first service < UInt32.size) :
    plainReplies first service = plainReplies second other := by
  -- Both sides stay alike. Upkeep generates no ids, so the bound on one side is enough.
  induction interleaved generalizing service other generated with
  | done => rfl
  | left upkeep rest ih =>
      obtain ⟨noIds, after⟩ := alike_upkeep alike upkeep (by omega)
      rw [idsOfExchanges, noIds, Nat.zero_add] at few
      rw [plainReplies_cons, isPlain_of_isUpkeep upkeep]
      exact ih after few
  | right upkeep rest ih =>
      obtain ⟨-, after⟩ := alike_upkeep alike.symm upkeep (by omega)
      rw [plainReplies_cons, isPlain_of_isUpkeep upkeep]
      exact ih after.symm few
  | both same rest ih =>
      rw [idsOfExchanges, ← Nat.add_assoc] at few
      obtain ⟨reply, after⟩ := alike_both alike same (by omega)
      rw [plainReplies_cons, plainReplies_cons, ← same, ih after few]
      split
      · rename_i plain
        rw [reply plain]
      · rfl

/-- Two clients of services of their own, who send the same apart from upkeep and whose requests are cancelled at any
points, get the same replies. -/
theorem upkeep_invisible (first second : List Exchange) (same : common first = common second)
    (few : idsOfExchanges first (start : Service σ) < UInt32.size - 1) :
    plainReplies first (start : Service σ) = plainReplies second (start : Service σ) := by
  apply plainReplies_congr (interleaved_of_common same) Alike.empty
  omega

def payloadOf (command : String) (fields : List (String × Document)) : Bytes :=
  MessagePack.write (.record (("cmd", .text command) :: fields))

def linkedPair : Bytes := payloadOf "addNodes"
  [("nodes", .list [.record [("type", .text "library"), ("name", .text "parent")],
      .record [("type", .text "library"), ("name", .text "child")]]),
    ("edges", .list [.record [("from", .text "parent"), ("to", .text "child")]])]

def childrenOfParent : Bytes := payloadOf "query" [("script", .text "dependencies library parent")]

def cachedFirst : List Exchange :=
  [⟨linkedPair, .never⟩, ⟨payloadOf "cache" [], .never⟩, ⟨childrenOfParent, .never⟩, ⟨[], .never⟩]

def cachedTooLate : List Exchange :=
  [⟨payloadOf "clear" [], .never⟩, ⟨linkedPair, .never⟩, ⟨childrenOfParent, .already⟩, ⟨[], .already⟩,
    ⟨payloadOf "cache" [], .already⟩]

theorem upkeep_invisible_linkedPair : common cachedFirst = common cachedTooLate ∧
    idsOfExchanges cachedFirst (start : Service PersistentStore) = 2 ∧
    plainReplies cachedFirst (start : Service PersistentStore) =
      plainReplies cachedTooLate (start : Service PersistentStore) ∧
    plainReplies cachedFirst (start : Service MemoryStore) =
      plainReplies cachedTooLate (start : Service MemoryStore) := by
  have same : common cachedFirst = common cachedTooLate := by decide +kernel
  have ids : idsOfExchanges cachedFirst (start : Service PersistentStore) = 2 := by decide +kernel
  refine ⟨same, ids, ?_, ?_⟩
  · apply upkeep_invisible cachedFirst cachedTooLate same
    rw [ids]
    decide
  · apply upkeep_invisible cachedFirst cachedTooLate same
    decide +kernel

end Service

end SupplyGraph
