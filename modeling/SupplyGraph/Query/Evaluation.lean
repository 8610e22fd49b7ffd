import SupplyGraph.Failure
import SupplyGraph.Query.Parser
import Std.Data.TreeMap

/-!
Evaluation of expressions. The names of all leaves are resolved first, from left to right; then the closures of
the named nodes are loaded, one batch for each direction; then the answers of the leaves are combined.
-/

namespace SupplyGraph.Query

structure NodeSource where
  resolve : String → Outcome NodeId
  /-- The closure of each id, the id included. -/
  closures : Direction → List NodeId → Outcome (Std.TreeMap NodeId IdSet)
  retainType : IdSet → String → Outcome IdSet

structure Loaded where
  ids : Std.TreeMap String NodeId
  children : Std.TreeMap NodeId IdSet
  parents : Std.TreeMap NodeId IdSet

namespace Loaded

def closures (loaded : Loaded) : Direction → Std.TreeMap NodeId IdSet
  | .children => loaded.children
  | .parents => loaded.parents

def closure (loaded : Loaded) (direction : Direction) (name : String) : Outcome IdSet :=
  match loaded.ids[name]? with
  | none => .error (.nameNotFound name)
  | some id =>
    match (loaded.closures direction)[id]? with
    | none => .error (.closuresNotFound id)
    | some closure => .ok closure

end Loaded

def Leaf.requireName (leaf : Leaf) (fallback : Option String) : Outcome String :=
  match leaf.nameOr fallback with
  | some name => .ok name
  | none => .error (.invalidQuery s!"no node name for '{leaf.render}' and no default given")

structure Wanted where
  ids : Std.TreeMap String NodeId := ∅
  children : IdSet := ∅
  parents : IdSet := ∅

def Wanted.add (source : NodeSource) (fallback : Option String) (wanted : Wanted) (leaf : Leaf) : Outcome Wanted := do
  let name ← leaf.requireName fallback
  let id ← match wanted.ids[name]? with
    | some id => pure id
    | none => source.resolve name
  let resolved := { wanted with ids := wanted.ids.insert name id }
  match leaf.relation.direction with
  | .children => return { resolved with children := wanted.children.insert id }
  | .parents => return { resolved with parents := wanted.parents.insert id }

namespace Expr

def load (source : NodeSource) (fallback : Option String) (expr : Expr) : Outcome Loaded := do
  let wanted ← (gather [expr]).foldlM (Wanted.add source fallback) {}
  let children ← source.closures .children wanted.children.toList
  let parents ← source.closures .parents wanted.parents.toList
  return { ids := wanted.ids, children, parents }

def combine (source : NodeSource) (loaded : Loaded) (fallback : Option String) : Expr → Outcome IdSet
  | leaf query => do
    let name ← query.requireName fallback
    source.retainType (← loaded.closure query.relation.direction name) query.nodeType
  | group _ inner => inner.combine source loaded fallback
  | binary operator left right => do
    let answer ← left.combine source loaded fallback
    return operator.apply answer (← right.combine source loaded fallback)

/-- The ids that an expression selects; leaves without a name are about the node `fallback`. -/
def evaluate (source : NodeSource) (fallback : Option String) (expr : Expr) : Outcome IdSet := do
  expr.combine source (← expr.load source fallback) fallback

end Expr

def readScript (script : String) : Outcome Expr := (parseScript script).mapError fun error => .invalidQuery error.message

def evaluateScript (source : NodeSource) (script : String) (fallback : Option String) : Outcome IdSet := do
  (← readScript script).evaluate source fallback

end SupplyGraph.Query
