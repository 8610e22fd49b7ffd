import SupplyGraph.Engine
import Mathlib.Tactic.Common

/-!
Runs of the engine. A run starts with an empty store and makes any calls in any order, failing ones included. The
calls that only read leave the store as it is.
-/

namespace SupplyGraph.Engine

inductive Operation
  | addNode (new : NewNode)
  | setDependency (parent child : NodeId)
  | addDependencies (edges : List (NodeId × NodeId))
  | ingest (batch : IngestBatch)
  | rebuild (cancellation : Cancellation)
  | clear
  | putField (tag key field : String) (data : Bytes)

variable {σ : Type} [GraphStore σ]

def idsOfNode (new : NewNode) (store : σ) : Nat :=
  match lookUp store new.name with
  | .ok none => 1
  | _ => 0

def idsOfNodes : List NewNode → σ → Nat
  | [], _ => 0
  | new :: rest, store =>
    idsOfNode new store + match insertNode new store with
      | (.ok _, next) => idsOfNodes rest next
      | (.error _, _) => 0

namespace Operation

def apply (operation : Operation) (store : σ) : σ :=
  match operation with
  | addNode new => (Engine.addNode new store).2
  | setDependency parent child => (Engine.setDependency parent child store).2
  | addDependencies edges => (Engine.addDependencies edges store).2
  | ingest batch => (Engine.ingest batch store).2
  | rebuild cancellation => (Engine.rebuild cancellation store).2
  | clear => (Engine.clear store).2
  | putField tag key field data => (Engine.putField tag key field data store).2

def ids (operation : Operation) (store : σ) : Nat :=
  match operation with
  | addNode new => idsOfNode new store
  | ingest batch => idsOfNodes batch.nodes store
  | _ => 0

end Operation

/-- The stores behind any number of calls, with the number of ids generated so far. -/
inductive Reachable : Nat → σ → Prop
  | empty : Reachable 0 GraphStore.empty
  | step (generated : Nat) (store : σ) (operation : Operation) (reachable : Reachable generated store) :
      Reachable (generated + operation.ids store) (operation.apply store)

def run : List Operation → σ → σ
  | [], store => store
  | operation :: rest, store => run rest (operation.apply store)

def idsOfRun : List Operation → σ → Nat
  | [], _ => 0
  | operation :: rest, store => operation.ids store + idsOfRun rest (operation.apply store)

theorem run_append (earlier later : List Operation) (store : σ) :
    run (earlier ++ later) store = run later (run earlier store) := by
  induction earlier generalizing store with
  | nil => rfl
  | cons operation earlier ih => exact ih (operation.apply store)

theorem idsOfRun_append (earlier later : List Operation) (store : σ) :
    idsOfRun (earlier ++ later) store = idsOfRun earlier store + idsOfRun later (run earlier store) := by
  induction earlier generalizing store with
  | nil => exact (Nat.zero_add _).symm
  | cons operation earlier ih =>
      rw [List.cons_append, idsOfRun, idsOfRun, ih, Nat.add_assoc]
      rfl

theorem Reachable.run {generated : Nat} {store : σ} (reachable : Reachable generated store)
    (operations : List Operation) :
    Reachable (generated + idsOfRun operations store) (Engine.run operations store) := by
  induction operations generalizing generated store with
  | nil => exact reachable
  | cons operation rest ih =>
      have later := ih (.step generated store operation reachable)
      rwa [Nat.add_assoc] at later

end SupplyGraph.Engine
