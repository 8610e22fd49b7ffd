import SupplyGraph.Graph.Reachable
import Mathlib.Logic.Relation
import Mathlib.Tactic.Common

/-!
The search by frontiers finds exactly what is reachable. What is visited is reachable, and the neighbours of all
visited ids but those of the frontier are visited; with nothing new behind the frontier the visited ids are closed.
-/

namespace SupplyGraph
open Relation

variable {ε : Type} {expand : IdSet → Except ε IdSet} {edge : NodeId → NodeId → Prop}

structure Searched (edge : NodeId → NodeId → Prop) (start visited frontier : IdSet) : Prop where
  started : ∀ id ∈ start, id ∈ visited
  reached : ∀ id ∈ visited, ∃ origin ∈ start, ReflTransGen edge origin id
  newest : ∀ id ∈ frontier, id ∈ visited
  expanded : ∀ id ∈ visited, id ∉ frontier → ∀ other, edge id other → other ∈ visited

theorem Searched.advance {start visited frontier neighbours : IdSet}
    (searched : Searched edge start visited frontier)
    (exact : ∀ other, other ∈ neighbours ↔ ∃ id ∈ frontier, edge id other) :
    Searched edge start (visited ∪ (neighbours \ visited)) (neighbours \ visited) := by
  constructor
  case started => exact fun id member => IdSet.mem_union.2 (Or.inl (searched.started id member))
  case reached =>
    intro id member
    rcases IdSet.mem_union.1 member with old | new
    · exact searched.reached id old
    · obtain ⟨before, inside, step⟩ := (exact id).1 (IdSet.mem_diff.1 new).1
      obtain ⟨origin, isStart, path⟩ := searched.reached before (searched.newest before inside)
      exact ⟨origin, isStart, path.tail step⟩
  case newest => exact fun id member => IdSet.mem_union.2 (Or.inr member)
  case expanded =>
    intro id member outside other step
    have old : id ∈ visited := (IdSet.mem_union.1 member).resolve_right outside
    by_cases seen : other ∈ visited
    · exact IdSet.mem_union.2 (Or.inl seen)
    · by_cases inside : id ∈ frontier
      · exact IdSet.mem_union.2 (Or.inr (IdSet.mem_diff.2 ⟨(exact other).2 ⟨id, inside, step⟩, seen⟩))
      · exact absurd (searched.expanded id old inside other step) seen

theorem Searched.complete {start visited frontier neighbours : IdSet}
    (searched : Searched edge start visited frontier)
    (exact : ∀ other, other ∈ neighbours ↔ ∃ id ∈ frontier, edge id other) (ended : neighbours \ visited = ∅)
    (id : NodeId) : id ∈ visited ↔ ∃ origin ∈ start, ReflTransGen edge origin id := by
  have closed : ∀ id ∈ visited, ∀ other, edge id other → other ∈ visited := by
    intro id member other step
    by_cases inside : id ∈ frontier
    · by_contra missing
      have new := IdSet.mem_diff.2 ⟨(exact other).2 ⟨id, inside, step⟩, missing⟩
      rw [ended] at new
      exact IdSet.not_mem_empty other new
    · exact searched.expanded id member inside other step
  constructor
  · exact searched.reached id
  · rintro ⟨origin, isStart, path⟩
    induction path with
    | refl => exact searched.started origin isStart
    | tail _ step ih => exact closed _ ih _ step

theorem expandFrontier_exact
    (exact : ∀ frontier, ∃ found, expand frontier = .ok found ∧ ∀ other, other ∈ found ↔ ∃ id ∈ frontier, edge id other)
    {start visited frontier : IdSet} (searched : Searched edge start visited frontier) :
    ∃ result, expandFrontier expand visited frontier = .ok result ∧
      ∀ id, id ∈ result ↔ ∃ origin ∈ start, ReflTransGen edge origin id := by
  -- The search ends because it visits more and more ids, so the induction is that of its own recursion.
  induction visited, frontier using expandFrontier.induct with
  | case1 visited frontier ih =>
      obtain ⟨neighbours, expanded, found⟩ := exact frontier
      rw [expandFrontier, expanded]
      by_cases ended : neighbours \ visited = ∅
      · refine ⟨visited, ?_, searched.complete found ended⟩
        simp only [bind, Except.bind, dif_pos ended]
        rfl
      · obtain ⟨result, run, members⟩ := ih neighbours ended (searched.advance found)
        refine ⟨result, ?_, members⟩
        simp only [bind, Except.bind, dif_neg ended]
        exact run

theorem reachable_exact
    (exact : ∀ frontier, ∃ found, expand frontier = .ok found ∧ ∀ other, other ∈ found ↔ ∃ id ∈ frontier, edge id other)
    (start : IdSet) :
    ∃ result, reachable expand start = .ok result ∧
      ∀ id, id ∈ result ↔ ∃ origin ∈ start, ReflTransGen edge origin id := by
  unfold reachable
  split
  · rename_i empty
    subst empty
    exact ⟨∅, rfl, fun id => by simp⟩
  · refine expandFrontier_exact exact ⟨fun id member => member, ?_, fun id member => member, ?_⟩
    · exact fun id member => ⟨id, member, .refl⟩
    · exact fun id member outside => absurd member outside

end SupplyGraph
