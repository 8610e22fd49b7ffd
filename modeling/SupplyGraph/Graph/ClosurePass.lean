import SupplyGraph.Graph.AliasTable
import SupplyGraph.Graph.Components
import SupplyGraph.Graph.Node

/-!
The closures of all nodes of a graph. Cycles are condensed first: every component shares one slot of an alias
table, and the edges between components form an acyclic graph. A depth-first pass over it, once for each
direction, fills the slots from the ends of the paths towards their starts.
-/

namespace SupplyGraph

/-- For every component the ids outside it that its members' edges lead to. -/
def condense (nodes : NodeTable) (components : Components) (known : IdSet) (direction : Direction) :
    AliasTable IdSet :=
  components.toList.foldl (fun table (representative, members) =>
    let edges := members.foldl (fun edges id =>
      match nodes[id]? with
      | some node => edges ∪ direction.edges node
      | none => edges) ∅
    (table.bind id members).set representative ((edges \ IdSet.ofList members) ∩ known)) ∅

namespace ClosurePass

structure Plan where
  components : Components
  ahead : AliasTable IdSet
  /-- What becomes ready when a component is done; it only affects the order of the work. -/
  behind : AliasTable IdSet

namespace Plan

def representative (plan : Plan) (id : NodeId) : NodeId := (plan.components.representative? id).getD id

def edgeCount (plan : Plan) (table : AliasTable IdSet) : Nat :=
  plan.components.toList.foldl (fun count (representative, _) =>
    count + ((table.get? representative).getD ∅).size) 0

/-- Enough steps for a pass whose plan has no cycle ahead: between two completions it descends along one path and
looks at every edge at most once. -/
def budget (plan : Plan) : Nat :=
  let count := plan.components.size
  (count + 1) * (plan.edgeCount plan.ahead + plan.edgeCount plan.behind + 2 * count + 2)

def seed (plan : Plan) : AliasTable IdSet :=
  plan.components.toList.foldl (fun table (representative, members) =>
    (table.bind id members).set representative (IdSet.ofList members)) ∅

end Plan

structure Frame where
  id : NodeId
  remaining : List NodeId

structure State where
  closures : AliasTable IdSet
  done : Std.TreeSet NodeId := ∅
  waiting : Std.TreeSet NodeId := ∅
  frames : List Frame := []
  steps : Nat := 0

namespace State

def push (plan : Plan) (state : State) (id : NodeId) : Outcome State := do
  let ahead ← plan.ahead.get id
  return { state with waiting := state.waiting.insert id, frames := ⟨id, ahead.toList⟩ :: state.frames }

def pop (state : State) (frame : Frame) (below : List Frame) : State :=
  { state with waiting := state.waiting.erase frame.id, frames := below }

def complete (plan : Plan) (state : State) (frame : Frame) (below : List Frame) : Outcome State := do
  let completed := { state.pop frame below with done := state.done.insert frame.id }
  (← plan.behind.get frame.id).toList.foldlM (fun state id =>
    let ready := plan.representative id
    if ready ∈ state.done ∨ ready ∈ state.waiting then pure state else state.push plan ready) completed

/-- The ids that are reached through a component that is done, and the id in it. -/
def merge (id ahead reached : NodeId) : Update (AliasTable IdSet) Unit := do
  AliasTable.unionInto id ahead
  AliasTable.modify id (·.insert reached)

def step (plan : Plan) (state : State) (frame : Frame) (below : List Frame) : Outcome State :=
  if frame.id ∈ state.done then pure (state.pop frame below)
  else match frame.remaining with
    | [] => state.complete plan frame below
    | id :: remaining =>
      let ahead := plan.representative id
      let advanced := { state with frames := { frame with remaining } :: below }
      if ahead = frame.id then pure advanced
      else if ahead ∈ state.done then do
        let (merged, closures) := merge frame.id ahead id state.closures
        merged
        return { advanced with closures }
      else state.push plan ahead

def run (plan : Plan) : (budget : Nat) → State → Polled State
  | 0, state => pure state
  | budget + 1, state =>
    match state.frames with
    | [] => pure state
    | frame :: below => do
      Polled.tick state.steps
      let next ← state.step plan frame below
      run plan budget { next with steps := state.steps + 1 }

def visit (plan : Plan) (state : State) (id : NodeId) : Polled State := do
  let start := plan.representative id
  if start ∈ state.done then return state
  run plan plan.budget (← state.push plan start)

end State

def closures (plan : Plan) (ids : List NodeId) : Polled (AliasTable IdSet) := do
  let state ← ids.foldlM (State.visit plan) { closures := plan.seed }
  return state.closures

end ClosurePass

def graphComponents (nodes : NodeTable) : Polled Components :=
  Components.ofGraph nodes.keys fun id => (nodes[id]?.map Direction.children.edges).getD ∅

def buildClosures (nodes : NodeTable) : Polled (List Closures × Components) := do
  let ids := nodes.keys
  let components ← graphComponents nodes
  let known := IdSet.ofList ids
  let children := condense nodes components known .children
  let parents := condense nodes components known .parents
  let descendants ← ClosurePass.closures ⟨components, children, parents⟩ ids
  let ancestors ← ClosurePass.closures ⟨components, parents, children⟩ ids
  Polled.poll
  let closures ← descendants.entries.mapM fun (id, below) => do
    return { id, ancestors := .ofSet (← ancestors.get id), descendants := .ofSet below : Closures }
  return (closures, components)

end SupplyGraph
