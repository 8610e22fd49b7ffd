import SupplyGraph.IdSet

/-!
Why an operation fails: the causes, the kind that clients see, and the wording; and operations that may fail.
-/

namespace SupplyGraph

inductive Failure
  | nodeNotFound (id : NodeId)
  | nameNotFound (name : String)
  | closuresNotFound (id : NodeId)
  | keyNotBound (id : NodeId)
  | invalidQuery (reason : String)
  | invalidPattern (reason : String)
  | selfDependency (id : NodeId)
  | precondition (reason : String)
  | cancelled
  | io (reason : String)
  | json (reason : String)
  | serialization (reason : String)
  | storage (reason : String)
  | base64 (reason : String)
  | corruptRecord (reason : String)
  | threadPool (reason : String)
deriving DecidableEq

/-- The class of a failure, which decides how a client reacts. -/
inductive FailureKind
  | notFound | invalidInput | conflict | precondition | backend | cancelled
deriving DecidableEq

def FailureKind.name : FailureKind → String
  | .notFound => "not_found"
  | .invalidInput => "invalid_input"
  | .conflict => "conflict"
  | .precondition => "precondition"
  | .backend => "backend"
  | .cancelled => "cancelled"

namespace Failure

def kind : Failure → FailureKind
  | nodeNotFound _ | nameNotFound _ | closuresNotFound _ | keyNotBound _ => .notFound
  | invalidQuery _ | invalidPattern _ => .invalidInput
  | selfDependency _ => .conflict
  | precondition _ => .precondition
  | cancelled => .cancelled
  | io _ | json _ | serialization _ | storage _ | base64 _ | corruptRecord _ | threadPool _ => .backend

def message : Failure → String
  | nodeNotFound id => s!"Node not found: {id}"
  | nameNotFound name => s!"Node name not found: {name}"
  | closuresNotFound id => s!"Cache not found for node {id}"
  | keyNotBound id => s!"Key not bound: {id}"
  | invalidQuery reason => s!"Invalid query: {reason}"
  | invalidPattern reason => s!"Invalid glob pattern: {reason}"
  | selfDependency id => s!"Node {id} cannot depend on itself"
  | precondition reason => s!"Precondition failed: {reason}"
  | cancelled => "Operation cancelled"
  | io reason => s!"IO error: {reason}"
  | json reason => s!"JSON error: {reason}"
  | serialization reason => s!"Serialization error: {reason}"
  | storage reason => s!"Storage error: {reason}"
  | base64 reason => s!"Base64 error: {reason}"
  | corruptRecord reason => s!"Corrupt record: {reason}"
  | threadPool reason => s!"Thread pool error: {reason}"

end Failure

abbrev Outcome (α : Type) := Except Failure α

/-- An operation that reads and writes a state; the state is there also when the operation fails. -/
abbrev Update (σ α : Type) := ExceptT Failure (StateM σ) α

namespace Update

variable {σ α : Type}

def read (query : σ → Outcome α) : Update σ α := fun state => (query state, state)

def write (change : σ → σ) : Update σ Unit := fun state => (.ok (), change state)

/-- A change that does nothing when it fails. -/
def tryWrite (change : σ → Outcome σ) : Update σ Unit := fun state =>
  match change state with
  | .ok changed => (.ok (), changed)
  | .error failure => (.error failure, state)

end Update

end SupplyGraph
