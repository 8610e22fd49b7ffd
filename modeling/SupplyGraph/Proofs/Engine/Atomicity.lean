import SupplyGraph.Proofs.Engine.Call

/-!
Calls that fail leave the store as it is, whatever it holds, also records that cannot be read: every call but one
reads first and writes once nothing can fail any more. Ingestion reads again after it has written, but on the stores
that runs leave behind these reads cannot fail.
-/

namespace SupplyGraph

namespace Update

variable {σ α β : Type}

def Atomic (update : Update σ α) : Prop :=
  ∀ store failure after, update store = (.error failure, after) → after = store

def Sure (update : Update σ α) : Prop := ∀ store, ∃ value after, update store = (.ok value, after)

namespace Sure

theorem pure (value : α) : Sure (pure value : Update σ α) := fun store => ⟨value, store, rfl⟩

theorem write (change : σ → σ) : Sure (Update.write change) := fun store => ⟨(), change store, rfl⟩

theorem modifyGet (change : σ → α × σ) : Sure (modifyGet change : Update σ α) :=
  fun store => ⟨(change store).1, (change store).2, rfl⟩

theorem bind {first : Update σ α} {next : α → Update σ β} (sure : Sure first) (rest : ∀ value, Sure (next value)) :
    Sure (first >>= next) := by
  intro store
  obtain ⟨value, between, ran⟩ := sure store
  rw [bind_ok ran]
  exact rest value between

theorem atomic {update : Update σ α} (sure : Sure update) : Atomic update := by
  intro store failure after ran
  obtain ⟨value, between, succeeds⟩ := sure store
  cases succeeds.symm.trans ran

end Sure

namespace Atomic

theorem throw_bind (failure : Failure) (next : α → Update σ β) : Atomic (throw failure >>= next) := by
  intro store other after ran
  exact (Prod.mk.inj ran).2.symm

theorem tryWrite (change : σ → Outcome σ) : Atomic (Update.tryWrite change) := by
  intro store failure after ran
  unfold Update.tryWrite at ran
  split at ran
  · cases ran
  · exact (Prod.mk.inj ran).2.symm

theorem read_bind (query : σ → Outcome α) {next : α → Update σ β} (rest : ∀ value, Atomic (next value)) :
    Atomic (Update.read query >>= next) := by
  intro store failure after ran
  cases found : query store with
  | ok value =>
      rw [bind_read query found] at ran
      exact rest value store failure after ran
  | error reason =>
      rw [bind_read_error query found] at ran
      exact (Prod.mk.inj ran).2.symm

theorem bind_sure {first : Update σ α} {next : α → Update σ β} (atomic : Atomic first)
    (rest : ∀ value, Sure (next value)) : Atomic (first >>= next) := by
  intro store failure after ran
  rcases started : first store with ⟨result, between⟩
  cases result with
  | ok value =>
      obtain ⟨answer, last, succeeds⟩ := rest value between
      rw [bind_ok started] at ran
      cases succeeds.symm.trans ran
  | error reason =>
      rw [bind_error started] at ran
      obtain rfl := (Prod.mk.inj ran).2
      exact atomic store reason between started

theorem returning {update : Update σ α} (atomic : Atomic update) (answer : α → β) :
    Atomic (do return answer (← update)) :=
  atomic.bind_sure fun value => .pure (answer value)

theorem reading (query : σ → Outcome α) (answer : α → β) : Atomic (do return answer (← Update.read query)) :=
  read_bind query fun value => (Sure.pure (answer value)).atomic

end Atomic

end Update

namespace Engine

open LawfulGraphStore (Holds)
open Update (Atomic Sure)

section

variable {σ : Type} [GraphStore σ]

theorem atomic_insertNode (new : NewNode) : Atomic (insertNode new : Update σ (Node × Bool)) := by
  refine Atomic.read_bind (lookUp · new.name) fun known => ?_
  cases known with
  | some id => exact Atomic.reading (GraphStore.node · id) fun node => (node, false)
  | none =>
      refine (Sure.bind (.modifyGet GraphStore.newId) fun id => ?_).atomic
      exact (Sure.write _).bind fun _ => (Sure.write _).bind fun _ => .pure _

theorem atomic_link (edges : List (NodeId × NodeId)) : Atomic (link edges : Update σ Nat) :=
  Atomic.read_bind (planLinks edges) fun plan => ((Sure.write _).bind fun _ => .pure plan.2).atomic

theorem atomic_setDependency (parent child : NodeId) : Atomic (setDependency parent child : Update σ Unit) := by
  unfold setDependency
  split
  · exact .throw_bind _ _
  · exact (atomic_link _).returning _

theorem atomic_rebuild (cancellation : Cancellation) :
    Atomic (rebuild cancellation : Update σ (Option RebuildReport)) := by
  refine Atomic.read_bind (fun store => (planRebuild store).run' cancellation) fun plan => ?_
  cases plan with
  | none => exact (Sure.pure none).atomic
  | some plan => exact ((Sure.write _).bind fun _ => (Sure.write _).bind fun _ => .pure (some plan.2)).atomic

theorem atomic_putField (tag key field : String) (data : Bytes) :
    Atomic (putField tag key field data : Update σ Unit) := .tryWrite _

theorem sure_clear : Sure (clear : Update σ Unit) := Sure.write GraphStore.dropClosures

def Call.isIngest : Call → Bool
  | ingest _ => true
  | _ => false

theorem Call.atomic_run {call : Call} (other : call.isIngest = false) : Atomic (call.run : Update σ Answer) := by
  cases call with
  | addNode new => exact ((atomic_insertNode new).returning Prod.fst).returning _
  | setDependency parent child => exact (atomic_setDependency parent child).returning _
  | addDependencies edges => exact (atomic_link edges).returning _
  | ingest batch => cases other
  | rebuild cancellation => exact (atomic_rebuild cancellation).returning _
  | clear => exact sure_clear.atomic.returning _
  | node id => exact .reading (Engine.node id) _
  | nodeByName name => exact .reading (Engine.nodeByName name) _
  | nodesMatching pattern => exact .reading (Engine.nodesMatching pattern) _
  | allNodes => exact .reading Engine.allNodes _
  | isCoherent => exact .reading SupplyGraph.isCoherent _
  | query script fallback => exact .reading (Engine.query script fallback) _
  | leaderboard script limit cancellation => exact .reading (Engine.leaderboard script limit cancellation) _

end

variable {σ : Type} [GraphStore σ] [MatchingGraphStore σ] {store : σ} {contents : MemoryStore} {generated : Nat}

theorem Call.run_ingest (consistent : Consistent generated contents) (holds : Holds store contents)
    (batch : IngestBatch) : ∃ report, ((Call.ingest batch).run store).1 = .ok (.ingested report) := by
  obtain ⟨report, after, ran, -⟩ := consistent.grounded.ingest batch
  have described : (Call.ingest batch).run contents = (.ok (.ingested report), after) := Update.bind_ok ran
  have agrees := Call.run_agrees consistent holds (.ingest batch)
  exact ⟨report, agrees.1.trans (congrArg Prod.fst described)⟩

/-- Whatever the tables of a database hold, a call that fails leaves all of them as they are, and a call that only
reads does so in any case. -/
theorem failures_leave_tables (store : PersistentStore) :
    (∀ new failure after, addNode new store = (.error failure, after) → after = store) ∧
    (∀ parent child failure after, setDependency parent child store = (.error failure, after) → after = store) ∧
    (∀ edges failure after, addDependencies edges store = (.error failure, after) → after = store) ∧
    (∀ tag key field data failure after, putField tag key field data store = (.error failure, after) →
      after = store) ∧
    (∀ call : Call, call.operation? = none → (call.run store).2 = store) ∧
    ∀ tag key, (Update.read (fields tag key) store).2 = store := by
  refine ⟨?addNode, ?setDependency, ?addDependencies, ?putField, ?reads, fun tag key => rfl⟩
  case addNode => exact fun new => (atomic_insertNode new).returning Prod.fst store
  case setDependency => exact fun parent child => atomic_setDependency parent child store
  case addDependencies => exact fun edges => atomic_link edges store
  case putField => exact fun tag key field data => atomic_putField tag key field data store
  case reads =>
    intro call reads
    rw [call.snd_run, reads]
    rfl

def tornStore : PersistentStore where
  nodes := .ofList [(PersistentStore.keyOfId 3, ({ id := 3, type := "library", name := "whole" } : Node).toJson),
    (PersistentStore.keyOfId 2, [])]
  names := .ofList [(Bytes.ofString "short", [0, 1]), (Bytes.ofString "lost", PersistentStore.keyOfId 7),
    (Bytes.ofString "torn", PersistentStore.keyOfId 2)]
  custom := .ofList [(PersistentStore.customKey "tag" "key", ([1] : Bytes))]

theorem failures_leave_tables_tornStore :
    addNode { type := "library", name := "short" } tornStore =
      (.error (.corruptRecord "id key of 2 bytes"), tornStore) ∧
    addNode { type := "library", name := "lost" } tornStore = (.error (.nodeNotFound 7), tornStore) ∧
    setDependency 3 2 tornStore = (.error (.json "malformed node record"), tornStore) ∧
    addDependencies [(3, 4), (3, 2)] tornStore = (.error (.json "malformed node record"), tornStore) ∧
    putField "tag" "key" "field" [] tornStore = (.error (.serialization "malformed field map"), tornStore) ∧
    (Call.nodeByName "torn").run tornStore = (.error (.json "malformed node record"), tornStore) := by
  obtain ⟨adding, setting, linking, putting, reading, -⟩ := failures_leave_tables tornStore
  have short : (addNode { type := "library", name := "short" } tornStore).1 =
      .error (.corruptRecord "id key of 2 bytes") := by decide +kernel
  have lost : (addNode { type := "library", name := "lost" } tornStore).1 = .error (.nodeNotFound 7) := by
    decide +kernel
  have edge : (setDependency 3 2 tornStore).1 = .error (.json "malformed node record") := by decide +kernel
  have edges : (addDependencies [(3, 4), (3, 2)] tornStore).1 = .error (.json "malformed node record") := by
    decide +kernel
  have field : (putField "tag" "key" "field" [] tornStore).1 = .error (.serialization "malformed field map") := by
    decide +kernel
  have torn : ((Call.nodeByName "torn").run tornStore).1 = .error (.json "malformed node record") := by decide +kernel
  exact ⟨Prod.ext short (adding _ _ _ (Prod.ext short rfl)), Prod.ext lost (adding _ _ _ (Prod.ext lost rfl)),
    Prod.ext edge (setting _ _ _ _ (Prod.ext edge rfl)), Prod.ext edges (linking _ _ _ (Prod.ext edges rfl)),
    Prod.ext field (putting _ _ _ _ _ _ (Prod.ext field rfl)), Prod.ext torn (reading (.nodeByName "torn") rfl)⟩

end Engine

end SupplyGraph
