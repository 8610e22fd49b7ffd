import SupplyGraph.Graph.ClosurePass
import SupplyGraph.Query.Leaderboard

/-!
The operations on a graph in any store: adding nodes and dependencies, keeping the closures up to date, and
asking questions.
-/

namespace SupplyGraph

structure NewNode where
  type : String
  name : String
  metadata : Bytes := []
deriving DecidableEq

/-- Nodes to be added, and dependencies between names: the first one depends on the second one. -/
structure IngestBatch where
  nodes : List NewNode := []
  edges : List (String × String) := []
deriving DecidableEq

structure IngestReport where
  nodesAdded : Nat
  edgesAdded : Nat
  skippedEdges : List (String × String)
deriving DecidableEq

structure RebuildReport where
  nodes : Nat
  components : Nat
deriving DecidableEq

structure QueryAnswer where
  ids : IdSet
  nodes : List Node
deriving DecidableEq

structure LinkChanges where
  nodes : NodeTable
  changed : IdSet := ∅
  added : Nat := 0

def LinkChanges.add (changes : LinkChanges) (edge : NodeId × NodeId) : LinkChanges :=
  let (parent, child) := edge
  if parent = child then changes
  else
    let newChild := (changes.nodes[parent]?).any fun node => !node.children.contains child
    let newParent := (changes.nodes[child]?).any fun node => !node.parents.contains parent
    if newChild || newParent then
      { nodes := (changes.nodes.modify parent fun node => { node with children := node.children.insert child }).modify
          child fun node => { node with parents := node.parents.insert parent }
        changed := (changes.changed.insert parent).insert child
        added := changes.added + 1 }
    else changes

namespace Engine

variable {σ : Type} [GraphStore σ]

/-! ## Nodes -/

def lookUp (store : σ) (name : String) : Outcome (Option NodeId) :=
  match GraphStore.idOfName store name with
  | .ok id => .ok (some id)
  | .error (.nameNotFound _) => .ok none
  | .error failure => .error failure

/-- The node of a name, which is new when the flag is set. -/
def insertNode (new : NewNode) : Update σ (Node × Bool) := do
  match ← Update.read (lookUp · new.name) with
  | some id => return (← Update.read (GraphStore.node · id), false)
  | none =>
    let id ← modifyGet GraphStore.newId
    let node : Node := { id, type := new.type, name := new.name, metadata := new.metadata }
    Update.write (GraphStore.saveNodes [node])
    Update.write (GraphStore.saveClosures [{ id }])
    return (node, true)

def addNode (new : NewNode) : Update σ Node := return (← insertNode new).1

def node (id : NodeId) (store : σ) : Outcome Node := GraphStore.node store id

def nodeByName (name : String) (store : σ) : Outcome Node := do
  GraphStore.node store (← GraphStore.idOfName store name)

def nodesMatching (pattern : String) (store : σ) : Outcome (List Node) := do
  GraphStore.nodesMatching store (← Glob.Pattern.ofString pattern)

def allNodes (store : σ) : Outcome (List Node) := do
  return sortedById (← GraphStore.nodes store (← GraphStore.nodeIds store))

/-! ## Dependencies -/

def touchedIds (edges : List (NodeId × NodeId)) : IdSet :=
  IdSet.ofList ((edges.filter fun (parent, child) => parent != child).flatMap fun (parent, child) => [parent, child])

def planLinks (edges : List (NodeId × NodeId)) (store : σ) : Outcome (List Node × Nat) := do
  let touched := (touchedIds edges).toList
  let nodes ← GraphStore.nodes store touched
  match touched.find? fun id => !nodes.contains id with
  | some missing => throw (.nodeNotFound missing)
  | none =>
    let changes := edges.foldl LinkChanges.add { nodes }
    return (changes.changed.toList.filterMap (changes.nodes[·]?), changes.added)

def link (edges : List (NodeId × NodeId)) : Update σ Nat := do
  let (changed, added) ← Update.read (planLinks edges)
  Update.write (GraphStore.saveNodes changed)
  return added

/-- Makes `parent` depend on `child`. -/
def setDependency (parent child : NodeId) : Update σ Unit := do
  if parent = child then throw (.selfDependency parent)
  let _ ← link [(parent, child)]

def addDependencies (edges : List (NodeId × NodeId)) : Update σ Nat := link edges

/-! ## Ingestion -/

def insertNodes (nodes : List NewNode) : Update σ Nat :=
  nodes.foldlM (fun count new => do
    let (_, created) ← insertNode new
    return if created then count + 1 else count) 0

def resolveEdges (store : σ) :
    List (String × String) → Outcome (List (NodeId × NodeId) × List (String × String))
  | [] => .ok ([], [])
  | (parent, child) :: rest => do
    let parentId ← lookUp store parent
    let childId ← lookUp store child
    let (resolved, skipped) ← resolveEdges store rest
    match parentId, childId with
    | some parentId, some childId =>
      if parentId = childId then return (resolved, (parent, child) :: skipped)
      else return ((parentId, childId) :: resolved, skipped)
    | _, _ => return (resolved, (parent, child) :: skipped)

def ingest (batch : IngestBatch) : Update σ IngestReport := do
  let nodesAdded ← insertNodes batch.nodes
  let (resolved, skippedEdges) ← Update.read (resolveEdges · batch.edges)
  let edgesAdded ← link resolved
  return { nodesAdded, edgesAdded, skippedEdges }

/-! ## Closures -/

def planRebuild (store : σ) : Polled (Option (List Closures × RebuildReport)) := do
  if ← isCoherent store then return none
  let nodes ← GraphStore.nodes store (← GraphStore.nodeIds store)
  let (closures, components) ← buildClosures nodes
  Polled.poll
  return some (closures, { nodes := closures.length, components := components.size })

/-- Brings all closures up to date. Nothing is written before everything is computed. -/
def rebuild (cancellation : Cancellation) : Update σ (Option RebuildReport) := do
  match ← Update.read fun store => (planRebuild store).run' cancellation with
  | none => return none
  | some (closures, report) =>
    Update.write (GraphStore.saveClosures closures)
    Update.write GraphStore.clearWork
    return some report

def clear : Update σ Unit := Update.write GraphStore.dropClosures

/-! ## Questions -/

def query (script : String) (fallback : Option String) (store : σ) : Outcome QueryAnswer := do
  let source := Query.liveSource (← isCoherent store) store
  let ids ← Query.evaluateScript source script fallback
  return { ids, nodes := sortedById (← GraphStore.nodes store ids.toList) }

def leaderboard (script : String) (limit : Option Nat) (cancellation : Cancellation) (store : σ) :
    Outcome (List Query.LeaderboardEntry) :=
  (Query.leaderboard store script limit).run' cancellation

/-! ## Custom data -/

def putField (tag key field : String) (data : Bytes) : Update σ Unit :=
  Update.tryWrite (GraphStore.putField tag key field data)

def fields (tag key : String) (store : σ) : Outcome FieldMap := GraphStore.fields tag key store

end Engine

end SupplyGraph
