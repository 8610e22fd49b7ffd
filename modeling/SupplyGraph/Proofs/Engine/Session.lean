import SupplyGraph.Proofs.Engine.Call

/-!
Sessions: calls in any order, between which the store may be closed and opened again. What a client sees of a session
on a database is what it sees of the session on a memory store.
-/

namespace SupplyGraph.Engine

open LawfulGraphStore (Holds)

inductive Event
  | call (call : Call)
  | reopen

structure Observation where
  answer : Option (Outcome Answer)
  pending : Outcome IdSet
deriving DecidableEq

section

variable {σ : Type} [GraphStore σ]

def Event.answer (event : Event) (store : σ) : Option (Outcome Answer) :=
  match event with
  | .call made => some (made.run store).1
  | .reopen => none

def Event.apply (reopen : σ → σ) (event : Event) (store : σ) : σ :=
  match event with
  | .call made => (made.run store).2
  | .reopen => reopen store

def Event.ids (event : Event) (store : σ) : Nat :=
  match event with
  | .call made => made.ids store
  | .reopen => 0

def pendingIds (store : σ) : Outcome IdSet := return IdSet.ofList (← GraphStore.worklist store)

def transcript (reopen : σ → σ) : List Event → σ → List Observation
  | [], _ => []
  | event :: rest, store =>
    let after := event.apply reopen store
    ⟨event.answer store, pendingIds after⟩ :: transcript reopen rest after

def idsOfSession (reopen : σ → σ) : List Event → σ → Nat
  | [], _ => 0
  | event :: rest, store => event.ids store + idsOfSession reopen rest (event.apply reopen store)

end

variable {σ : Type} [GraphStore σ] [MatchingGraphStore σ] {store : σ} {contents : MemoryStore} {generated : Nat}

theorem pendingIds_congr (holds : Holds store contents) : pendingIds store = pendingIds contents := by
  obtain ⟨ids, read, members⟩ := LawfulGraphStore.worklist holds
  have same : IdSet.ofList ids = IdSet.ofList contents.worklist := by
    apply IdSet.ext
    intro id
    rw [IdSet.mem_ofList, IdSet.mem_ofList, members]
  unfold pendingIds
  rw [read]
  exact congrArg Except.ok same

theorem Event.agrees {reopen : σ → σ} (kept : ∀ store contents, Holds store contents → Holds (reopen store) contents)
    (consistent : Consistent generated contents) (holds : Holds store contents) (event : Event) :
    event.answer store = event.answer contents ∧ Holds (event.apply reopen store) (event.apply id contents) := by
  cases event with
  | call call =>
      obtain ⟨same, after⟩ := call.run_agrees consistent holds
      exact ⟨congrArg some same, after⟩
  | reopen => exact ⟨rfl, kept store contents holds⟩

theorem Event.reachable (reachable : Reachable generated contents) (event : Event) :
    Reachable (generated + event.ids contents) (event.apply id contents) := by
  cases event with
  | call call => exact Call.reachable_run reachable call
  | reopen => exact reachable

theorem transcript_congr {reopen : σ → σ}
    (kept : ∀ store contents, Holds store contents → Holds (reopen store) contents) (events : List Event)
    (reachable : Reachable generated contents) (holds : Holds store contents)
    (few : generated + idsOfSession id events contents < UInt32.size) :
    transcript reopen events store = transcript id events contents := by
  induction events generalizing store contents generated with
  | nil => rfl
  | cons event events ih =>
      rw [idsOfSession, ← Nat.add_assoc] at few
      obtain ⟨answer, after⟩ := event.agrees kept (reachable.consistent (by omega)) holds
      rw [transcript, transcript, answer, pendingIds_congr after, ih (event.reachable reachable) after few]

/-- A session on a database, which may be closed and opened again at any time, is seen as it is on a memory store. -/
theorem transcript_persistent (events : List Event)
    (few : idsOfSession id events ({} : MemoryStore) < UInt32.size - 1) :
    transcript PersistentStore.reopen events {} = transcript id events ({} : MemoryStore) := by
  have kept (store : PersistentStore) (contents : MemoryStore) (holds : Holds store contents) :
      Holds store.reopen contents := by
    rwa [PersistentStore.reopen_eq]
  exact transcript_congr kept events .empty LawfulGraphStore.empty (by omega)

def storedPair : List Event :=
  [.call (.addNode { type := "library", name := "parent" }), .call (.addNode { type := "library", name := "child" }),
    .reopen, .call (.setDependency 1 2), .call (.nodesMatching "p*"), .call (.rebuild .never), .reopen,
    .call (.query "dependencies library parent" none), .call (.node 3)]

theorem transcript_storedPair : idsOfSession id storedPair ({} : MemoryStore) = 2 ∧
    transcript PersistentStore.reopen storedPair {} = transcript id storedPair ({} : MemoryStore) := by
  have few : idsOfSession id storedPair ({} : MemoryStore) = 2 := by decide +kernel
  exact ⟨few, transcript_persistent storedPair (by rw [few]; decide)⟩

end SupplyGraph.Engine
