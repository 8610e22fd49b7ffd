import SupplyGraph.IdSet

/-!
Search by frontiers. Each frontier is handed to `expand` as a whole, which gives back the neighbours of its
members; the neighbours not met before are the next frontier.
-/

namespace SupplyGraph

/-- Goes on from a frontier that is not empty, when the frontiers so far make up `visited`. -/
@[specialize] def expandFrontier {m : Type → Type} [Monad m] (expand : IdSet → m IdSet)
    (visited frontier : IdSet) : m IdSet := do
  let neighbours ← expand frontier
  let next := neighbours \ visited
  if _last : next = ∅ then
    return visited
  else
    expandFrontier expand (visited ∪ next) next
termination_by UInt32.size - visited.size
decreasing_by
  have grown := IdSet.size_union_diff visited neighbours
  have bounded := IdSet.size_le (visited ∪ (neighbours \ visited))
  have positive : (neighbours \ visited).size ≠ 0 := fun zero => _last (IdSet.size_eq_zero.1 zero)
  omega

@[specialize] def reachable {m : Type → Type} [Monad m] (expand : IdSet → m IdSet) (start : IdSet) : m IdSet :=
  if start = ∅ then pure start else expandFrontier expand start start

end SupplyGraph
