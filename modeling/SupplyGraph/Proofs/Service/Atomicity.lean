import SupplyGraph.Proofs.Engine.Atomicity
import SupplyGraph.Proofs.Service.Caching

/-!
A request that fails has done nothing. Whatever was sent to a service before, and whatever was cancelled, a reply that
is an error comes with the store as it was, and to add nodes or dependencies never fails.
-/

namespace SupplyGraph

open Engine (Answer Call)
open LawfulGraphStore (Holds)

namespace MessagePack

theorem writeText_short {text : String} (short : (Bytes.ofString text).length < 0x20) :
    writeText text = UInt8.ofNat (0xA0 + (Bytes.ofString text).length) :: Bytes.ofString text := if_pos short

theorem writeMapLength_small {length : Nat} (small : length < 0x10) :
    writeMapLength length = [UInt8.ofNat (0x80 + length)] := if_pos small

theorem eq_of_write_record {name other : String} {value otherValue : Document}
    {rest otherRest : List (String × Document)} (short : (Bytes.ofString name).length < 0x20)
    (few : rest.length < 0xF) (otherShort : (Bytes.ofString other).length < 0x20) (otherFew : otherRest.length < 0xF)
    (same : write (.record ((name, value) :: rest)) = write (.record ((other, otherValue) :: otherRest))) :
    name = other := by
  simp only [write, writeFields, List.length_cons] at same
  rw [writeMapLength_small (by omega), writeMapLength_small (by omega), writeText_short short,
    writeText_short otherShort] at same
  simp only [List.cons_append, List.nil_append, List.append_assoc, List.cons.injEq] at same
  obtain ⟨-, marks, names⟩ := same
  have lengths := congrArg UInt8.toNat marks
  rw [UInt8.toNat_ofNat', UInt8.toNat_ofNat'] at lengths
  exact Bytes.ofString_inj (List.append_inj names (by omega)).1

end MessagePack

namespace Service

/-- The reply is the map of an error: a message and its kind. -/
def IsErrorMap (reply : Bytes) : Prop := ∃ message kind, reply = encodeResponse (.error message kind)

theorem isErrorMap_iff (response : Response) :
    IsErrorMap (encodeResponse response) ↔ ∃ message kind, response = .error message kind := by
  constructor
  · rintro ⟨message, kind, same⟩
    have named {name : String} {value : Document} {rest : List (String × Document)}
        (isRecord : response.toDocument = .record ((name, value) :: rest))
        (short : (Bytes.ofString name).length < 0x20) (few : rest.length < 0xF) : name = "error" := by
      unfold encodeResponse at same
      rw [isRecord] at same
      exact MessagePack.eq_of_write_record short few (by decide +kernel) (by simp) same
    -- Every other map starts with a field of another name.
    cases response with
    | error message kind => exact ⟨message, kind, rfl⟩
    | _ => exact absurd (named rfl (by decide +kernel) (by simp)) (by decide)
  · rintro ⟨message, kind, rfl⟩
    exact ⟨message, kind, rfl⟩

theorem isErrorMap_ofResult {result : Outcome Answer} (error : IsErrorMap (encodeResponse (.ofResult result))) :
    ∃ failure, result = .error failure := by
  obtain ⟨message, kind, isError⟩ := (isErrorMap_iff _).1 error
  cases result with
  | ok answer => cases answer <;> cases isError
  | error failure => exact ⟨failure, rfl⟩

def isIngest (payload : Bytes) : Bool :=
  match decodeRequest payload with
  | some (.addNodes ..) | some (.addDependencies ..) => true
  | _ => false

theorem isIngest_of_call {cancellation : Cancellation} {payload : Bytes} {call : Call}
    (asks : callOf? cancellation payload = some call) : call.isIngest = isIngest payload := by
  obtain ⟨request, decoded, asks⟩ := Option.bind_eq_some_iff.1 asks
  unfold isIngest
  rw [decoded]
  cases request <;> cases asks <;> rfl

theorem exists_ingest {payload : Bytes} (ingests : isIngest payload = true) (cancellation : Cancellation) :
    ∃ batch, callOf? cancellation payload = some (.ingest batch) := by
  unfold isIngest at ingests
  unfold callOf?
  split at ingests
  · rename_i nodes edges decoded
    exact ⟨{ nodes, edges }, by rw [decoded]; rfl⟩
  · rename_i edges decoded
    exact ⟨{ edges }, by rw [decoded]; rfl⟩
  · cases ingests

theorem operation?_of_call {cancellation : Cancellation} {payload : Bytes} {call : Call}
    (asks : callOf? cancellation payload = some call) (notIngest : isIngest payload = false)
    (notUpkeep : isUpkeep payload = false) : call.operation? = none := by
  obtain ⟨request, decoded, asks⟩ := Option.bind_eq_some_iff.1 asks
  unfold isIngest at notIngest
  unfold isUpkeep at notUpkeep
  rw [decoded] at notIngest notUpkeep
  cases request with
  | addNodes => cases notIngest
  | addDependencies => cases notIngest
  | cache => cases notUpkeep
  | clear => cases notUpkeep
  | _ => cases asks <;> rfl

variable {σ : Type} [GraphStore σ]

theorem handle_of_none {sent : Exchange} (asks : callOf? sent.cancellation sent.payload = none) (service : Service σ) :
    (sent.handle service).2.store = service.store := by
  obtain ⟨_, fixed⟩ := handleFrameDuring_of_none σ asks
  exact (fixed service sent.cancellation).2

theorem handle_of_reads {sent : Exchange} (notIngest : isIngest sent.payload = false)
    (notUpkeep : isUpkeep sent.payload = false) (service : Service σ) :
    (sent.handle service).2.store = service.store := by
  cases asks : callOf? sent.cancellation sent.payload with
  | none => exact handle_of_none asks service
  | some call =>
      unfold Exchange.handle
      rw [handleFrameDuring_of_call asks, Call.snd_run, operation?_of_call asks notIngest notUpkeep]
      rfl

theorem handle_of_error {sent : Exchange} (notIngest : isIngest sent.payload = false) {service : Service σ}
    (error : IsErrorMap (sent.handle service).1) : (sent.handle service).2.store = service.store := by
  cases asks : callOf? sent.cancellation sent.payload with
  | none => exact handle_of_none asks service
  | some call =>
      unfold Exchange.handle at error ⊢
      rw [handleFrameDuring_of_call asks] at error ⊢
      obtain ⟨failure, failed⟩ := isErrorMap_ofResult error
      exact Call.atomic_run ((isIngest_of_call asks).trans notIngest) service.store failure _ (Prod.ext failed rfl)

theorem handle_undecodable {sent : Exchange} (undecodable : decodeRequest sent.payload = none) (service : Service σ) :
    IsErrorMap (sent.handle service).1 := by
  unfold Exchange.handle handleFrameDuring
  rw [undecodable]
  exact ⟨_, _, rfl⟩

/-- The services behind any payloads and cancellations, with the number of ids generated so far. A cancellation may
come at any time, also while a payload is handled. -/
inductive Reachable : Nat → Service σ → Prop
  | start : Reachable 0 start
  | handle (generated : Nat) (service : Service σ) (sent : Exchange) (reachable : Reachable generated service) :
      Reachable (generated + idsOfPayload sent.payload service.store) (sent.handle service).2
  | cancel (generated : Nat) (service : Service σ) (reachable : Reachable generated service) :
      Reachable generated service.cancel

theorem Reachable.engine {generated : Nat} {service : Service σ} (reachable : Reachable generated service) :
    Engine.Reachable generated service.store := by
  induction reachable with
  | start => exact .empty
  | cancel generated service _ ih => exact ih
  | handle generated service sent _ ih =>
      cases asks : callOf? sent.cancellation sent.payload with
      | none =>
          rw [handle_of_none asks, idsOfPayload_of_none asks]
          exact ih
      | some call =>
          unfold Exchange.handle
          rw [handleFrameDuring_of_call asks, idsOfPayload_of_call asks]
          exact Call.reachable_run ih call

variable [MatchingGraphStore σ]

theorem Reachable.handle_ingest {generated : Nat} {service : Service σ} (reachable : Reachable generated service)
    (few : generated < UInt32.size) {sent : Exchange} (ingests : isIngest sent.payload = true) :
    ∃ report, (sent.handle service).1 = encodeResponse (.ingested report) := by
  obtain ⟨contents, described, holds⟩ := reachable.engine.described few
  obtain ⟨batch, asks⟩ := exists_ingest ingests sent.cancellation
  obtain ⟨report, answer⟩ := Call.run_ingest (described.consistent few) holds batch
  refine ⟨report, ?_⟩
  unfold Exchange.handle
  rw [handleFrameDuring_of_call asks, answer]
  rfl

/-- Whatever a client sends to a reachable service, and whatever is cancelled: only four commands change the store, no
reply is an error once anything has changed, and to add nodes or dependencies never fails. -/
theorem errors_without_effect {generated : Nat} {service : Service σ} (reachable : Reachable generated service)
    (few : generated < UInt32.size - 1) (sent : Exchange) :
    (isIngest sent.payload = false → isUpkeep sent.payload = false → (sent.handle service).2.store = service.store) ∧
      (IsErrorMap (sent.handle service).1 → (sent.handle service).2.store = service.store) ∧
      (decodeRequest sent.payload = none → IsErrorMap (sent.handle service).1) ∧
      (isIngest sent.payload = true → ¬IsErrorMap (sent.handle service).1) := by
  have ingested (ingests : isIngest sent.payload = true) : ¬IsErrorMap (sent.handle service).1 := by
    obtain ⟨report, reply⟩ := reachable.handle_ingest (by omega) ingests
    rw [reply, isErrorMap_iff]
    rintro ⟨message, kind, isError⟩
    cases isError
  refine ⟨fun notIngest notUpkeep => handle_of_reads notIngest notUpkeep service, fun error => ?_,
    fun undecodable => handle_undecodable undecodable service, ingested⟩
  cases ingests : isIngest sent.payload with
  | true => exact absurd error (ingested ingests)
  | false => exact handle_of_error ingests error

def newPair : Bytes := payloadOf "addNodes"
  [("nodes", .list [.record [("type", .text "library"), ("name", .text "parent")],
    .record [("type", .text "library"), ("name", .text "child")]])]

def cancelledPair : Service PersistentStore := ((⟨newPair, .never⟩ : Exchange).handle start).2.cancel

theorem reachable_cancelledPair : Reachable 2 cancelledPair := by
  have added := Reachable.handle 0 (start : Service PersistentStore) ⟨newPair, .never⟩ .start
  have ids : 0 + idsOfPayload newPair (start : Service PersistentStore).store = 2 := by decide +kernel
  rw [ids] at added
  exact .cancel 2 _ added

theorem isErrorMap_cancelledPair :
    IsErrorMap ((⟨payloadOf "cache" [], .already⟩ : Exchange).handle cancelledPair).1 := by
  have asks : callOf? .already (payloadOf "cache" []) = some (.rebuild .already) := rfl
  have pending : GraphStore.worklist cancelledPair.store ≠ .ok [] := by
    have listed : GraphStore.worklist cancelledPair.store = .ok [1, 2] := by decide +kernel
    rw [listed]
    simp
  obtain ⟨failure, failed⟩ := Engine.rebuild_already pending
  have answer : ((Call.rebuild .already).run cancelledPair.store).1 = .error failure :=
    congrArg Prod.fst (Update.bind_error failed)
  unfold Exchange.handle
  rw [handleFrameDuring_of_call asks, answer]
  exact ⟨_, _, rfl⟩

theorem errors_without_effect_cancelledPair :
    Reachable 2 cancelledPair ∧ 2 < UInt32.size - 1 ∧
      (let cache : Exchange := ⟨payloadOf "cache" [], .already⟩
      IsErrorMap (cache.handle cancelledPair).1 ∧ (cache.handle cancelledPair).2.store = cancelledPair.store) ∧
      (let linked : Exchange := ⟨linkedPair, .already⟩
      isIngest linked.payload = true ∧ ¬IsErrorMap (linked.handle cancelledPair).1) := by
  have few : 2 < UInt32.size - 1 := by decide
  have ingests : isIngest linkedPair = true := by decide +kernel
  obtain ⟨-, kept, -, -⟩ := errors_without_effect reachable_cancelledPair few ⟨payloadOf "cache" [], .already⟩
  obtain ⟨-, -, -, succeeds⟩ := errors_without_effect reachable_cancelledPair few ⟨linkedPair, .already⟩
  exact ⟨reachable_cancelledPair, few, ⟨isErrorMap_cancelledPair, kept isErrorMap_cancelledPair⟩, ingests,
    succeeds ingests⟩

end Service

end SupplyGraph
