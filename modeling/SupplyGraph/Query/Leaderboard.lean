import SupplyGraph.Cancellation
import SupplyGraph.Query.Live

/-!
Leaderboards: one script evaluated about every node that has a name, the largest answers first.
-/

namespace SupplyGraph.Query

structure LeaderboardEntry where
  node : Node
  output : IdSet
deriving DecidableEq

/-- Larger answers come first, and of two equal ones the smaller id. -/
def LeaderboardEntry.precedes (entry other : LeaderboardEntry) : Bool :=
  other.output.size < entry.output.size ||
    (other.output.size == entry.output.size && entry.node.id ≤ other.node.id)

def rankNodes (expr : Expr) (source : NodeSource) (nodes : List Node) : Polled (List LeaderboardEntry) := do
  let entries ← (nodes.filter fun node => !node.name.isEmpty).mapM fun node => do
    Polled.poll
    let output ← expr.evaluate source (some node.name)
    return { node, output : LeaderboardEntry }
  return entries.mergeSort LeaderboardEntry.precedes

def leaderboard {σ : Type} [GraphStore σ] (store : σ) (script : String) (limit : Option Nat) :
    Polled (List LeaderboardEntry) := do
  if !(← isCoherent store) then
    throw (.precondition "cannot use sorted leaderboards without caching")
  let expr ← readScript script
  let snapshot ← Snapshot.load store
  let entries ← rankNodes expr snapshot.source snapshot.nodes.values
  match limit with
  | some limit => return entries.take limit
  | none => return entries

end SupplyGraph.Query
