import SupplyGraph.Proofs.Update
import SupplyGraph.Graph.Reachable
import Mathlib.Logic.ExistsUnique

/-!
The frontiers of a search, whatever `expand` does between two calls. A frontier holds only ids that no earlier one
held, so there is an end to them. Where the answers are neighbours in a graph, the frontiers are the layers of
breadth-first search: what is `n` steps from the start and not nearer.
-/

namespace SupplyGraph

variable {σ : Type} {expand : IdSet → Update σ IdSet} {adjacency : NodeId → IdSet}
variable {start visited frontier : IdSet} {result : Outcome IdSet}

structure Expansion where
  frontier : IdSet
  answer : Outcome IdSet

def recording (expand : IdSet → Update σ IdSet) (frontier : IdSet) : Update (List Expansion × σ) IdSet :=
  fun (calls, state) =>
    let (answer, after) := expand frontier state
    (answer, (calls ++ [⟨frontier, answer⟩], after))

def Expansion.Answers (expand : IdSet → Update σ IdSet) (call : Expansion) : Prop :=
  ∃ state, (expand call.frontier state).1 = call.answer

def frontiers (calls : List Expansion) : List IdSet := calls.map (·.frontier)

inductive Explored : (visited frontier : IdSet) → List Expansion → Outcome IdSet → Prop
  | failed (visited frontier : IdSet) (failure : Failure) :
      Explored visited frontier [⟨frontier, .error failure⟩] (.error failure)
  | ended (visited frontier neighbours : IdSet) (known : neighbours \ visited = ∅) :
      Explored visited frontier [⟨frontier, .ok neighbours⟩] (.ok visited)
  | onward (visited frontier neighbours : IdSet) (later : List Expansion) (result : Outcome IdSet)
      (new : neighbours \ visited ≠ ∅)
      (onward : Explored (visited ∪ (neighbours \ visited)) (neighbours \ visited) later result) :
      Explored visited frontier (⟨frontier, .ok neighbours⟩ :: later) result

theorem expandFrontier_recording (expand : IdSet → Update σ IdSet) (visited frontier : IdSet)
    (calls : List Expansion) (state : σ) :
    ∃ result later last, expandFrontier expand visited frontier state = (result, last) ∧
      expandFrontier (recording expand) visited frontier (calls, state) = (result, (calls ++ later, last)) ∧
      Explored visited frontier later result ∧ ∀ call ∈ later, call.Answers expand := by
  induction visited, frontier using expandFrontier.induct generalizing calls state with
  | case1 visited frontier ih =>
      rw [expandFrontier, expandFrontier]
      rcases ran : expand frontier state with ⟨answer, after⟩
      have noted : recording expand frontier (calls, state) = (answer, (calls ++ [⟨frontier, answer⟩], after)) := by
        simp [recording, ran]
      have answers : Expansion.Answers expand ⟨frontier, answer⟩ := ⟨state, congrArg Prod.fst ran⟩
      cases answer with
      | error failure =>
          rw [Update.bind_error ran, Update.bind_error noted]
          exact ⟨_, _, _, rfl, rfl, .failed visited frontier failure, by simpa using answers⟩
      | ok neighbours =>
          rw [Update.bind_ok ran, Update.bind_ok noted]
          by_cases known : neighbours \ visited = ∅
          · simp only [dif_pos known]
            exact ⟨_, _, _, rfl, rfl, .ended visited frontier neighbours known, by simpa using answers⟩
          · simp only [dif_neg known]
            obtain ⟨result, later, last, plain, recorded, explored, answered⟩ :=
              ih neighbours known (calls ++ [⟨frontier, .ok neighbours⟩]) after
            rw [List.append_assoc] at recorded
            exact ⟨result, _, last, plain, recorded, .onward visited frontier neighbours later result known explored,
              List.forall_mem_cons.2 ⟨answers, answered⟩⟩

namespace Explored

variable {calls : List Expansion}

theorem frontiers_eq (explored : Explored visited frontier calls result) :
    frontiers calls = frontier :: (frontiers calls).tail := by
  cases explored <;> rfl

theorem nonempty (explored : Explored visited frontier calls result) (inhabited : frontier ≠ ∅) :
    ∀ layer ∈ frontiers calls, layer ≠ ∅ := by
  induction explored with
  | failed => simpa [frontiers] using inhabited
  | ended => simpa [frontiers] using inhabited
  | onward visited frontier neighbours later result new _ ih =>
      intro layer listed
      rcases List.mem_cons.1 listed with rfl | listed
      · exact inhabited
      · exact ih new layer listed

theorem fresh (explored : Explored visited frontier calls result) :
    ∀ layer ∈ (frontiers calls).tail, ∀ id ∈ layer, id ∉ visited := by
  induction explored with
  | failed => simp [frontiers]
  | ended => simp [frontiers]
  | onward visited frontier neighbours later result new onward ih =>
      intro layer listed id member before
      change layer ∈ frontiers later at listed
      rw [onward.frontiers_eq] at listed
      rcases List.mem_cons.1 listed with rfl | listed
      · exact (IdSet.mem_diff.1 member).2 before
      · exact ih layer listed id member (IdSet.mem_union.2 (Or.inl before))

theorem apart (explored : Explored visited frontier calls result) (newest : ∀ id ∈ frontier, id ∈ visited) :
    (frontiers calls).Pairwise fun left right => ∀ id ∈ left, id ∉ right := by
  induction explored with
  | failed => simp [frontiers]
  | ended => simp [frontiers]
  | onward visited frontier neighbours later result new onward ih =>
      apply List.pairwise_cons.2
      constructor
      · intro layer listed id member again
        have whole := Explored.onward visited frontier neighbours later result new onward
        exact whole.fresh layer listed id again (newest id member)
      · exact ih fun id member => IdSet.mem_union.2 (Or.inr member)

theorem bounded (explored : Explored visited frontier calls result) :
    visited.size + calls.length ≤ UInt32.size + 1 := by
  induction explored with
  | failed visited => exact Nat.add_le_add_right visited.size_le 1
  | ended visited => exact Nat.add_le_add_right visited.size_le 1
  | onward visited frontier neighbours later result new _ ih =>
      have grown := IdSet.size_union_diff visited neighbours
      have added : (neighbours \ visited).size ≠ 0 := fun none => new (IdSet.size_eq_zero.1 none)
      rw [List.length_cons]
      omega

theorem stops (explored : Explored visited frontier calls result) {call : Expansion} (listed : call ∈ calls)
    {failure : Failure} (failed : call.answer = .error failure) :
    calls.getLast? = some call ∧ result = .error failure := by
  induction explored with
  | failed visited frontier _ =>
      obtain rfl := List.mem_singleton.1 listed
      cases failed
      exact ⟨rfl, rfl⟩
  | ended =>
      obtain rfl := List.mem_singleton.1 listed
      cases failed
  | onward visited frontier neighbours later result new onward ih =>
      rcases List.mem_cons.1 listed with rfl | listed
      · cases failed
      · obtain ⟨last, returned⟩ := ih listed
        exact ⟨by rw [List.getLast?_cons, last]; rfl, returned⟩

theorem failed_at {failure : Failure} (explored : Explored visited frontier calls (.error failure)) :
    ∃ call ∈ calls, call.answer = .error failure := by
  generalize returned : (Except.error failure : Outcome IdSet) = result at explored
  induction explored with
  | failed visited frontier _ =>
      cases returned
      exact ⟨_, List.mem_singleton_self _, rfl⟩
  | ended => cases returned
  | onward _ _ _ _ _ _ _ ih =>
      obtain ⟨call, listed, failed⟩ := ih returned
      exact ⟨call, List.mem_cons_of_mem _ listed, failed⟩

theorem mem_found {found : IdSet} (explored : Explored visited frontier calls (.ok found)) (id : NodeId) :
    id ∈ found ↔ id ∈ visited ∨ ∃ layer ∈ (frontiers calls).tail, id ∈ layer := by
  generalize returned : (Except.ok found : Outcome IdSet) = result at explored
  induction explored with
  | failed => cases returned
  | ended =>
      cases returned
      simp [frontiers]
  | onward visited frontier neighbours later result new onward ih =>
      change _ ↔ id ∈ visited ∨ ∃ layer ∈ frontiers later, id ∈ layer
      rw [ih returned, IdSet.mem_union, or_assoc, onward.frontiers_eq]
      simp only [List.tail_cons, List.mem_cons, exists_eq_or_imp]

end Explored

def joined (adjacency : NodeId → IdSet) (ids : IdSet) : IdSet :=
  ids.toList.foldl (fun found id => found ∪ adjacency id) ∅

@[simp] theorem mem_joined {ids : IdSet} {other : NodeId} :
    other ∈ joined adjacency ids ↔ ∃ id ∈ ids, other ∈ adjacency id := by
  have fold (list : List NodeId) (found : IdSet) :
      other ∈ list.foldl (fun found id => found ∪ adjacency id) found ↔
        other ∈ found ∨ ∃ id ∈ list, other ∈ adjacency id := by
    induction list generalizing found with
    | nil => simp
    | cons id list ih => simp [ih, or_assoc]
  simpa [joined, IdSet.mem_def] using fold ids.toList ∅

inductive Walk (adjacency : NodeId → IdSet) (start : IdSet) : Nat → NodeId → Prop
  | here (id : NodeId) (member : id ∈ start) : Walk adjacency start 0 id
  | step (n : Nat) (id other : NodeId) (walk : Walk adjacency start n id) (edge : other ∈ adjacency id) :
      Walk adjacency start (n + 1) other

/-- The shortest walks from the start have `n` steps. -/
def AtDistance (adjacency : NodeId → IdSet) (start : IdSet) (n : Nat) (id : NodeId) : Prop :=
  Walk adjacency start n id ∧ ∀ m < n, ¬Walk adjacency start m id

theorem AtDistance.unique {n m : Nat} {id : NodeId} (first : AtDistance adjacency start n id)
    (second : AtDistance adjacency start m id) : n = m := by
  rcases Nat.lt_trichotomy n m with less | equal | greater
  · exact absurd first.1 (second.2 n less)
  · exact equal
  · exact absurd second.1 (first.2 m greater)

theorem Walk.exists_distance {n : Nat} {id : NodeId} (walk : Walk adjacency start n id) :
    ∃ m ≤ n, AtDistance adjacency start m id := by
  induction n using Nat.strongRecOn with
  | _ n ih =>
      by_cases nearer : ∃ m < n, Walk adjacency start m id
      · obtain ⟨m, less, short⟩ := nearer
        obtain ⟨least, below, distance⟩ := ih m less short
        exact ⟨least, Nat.le_trans below (Nat.le_of_lt less), distance⟩
      · exact ⟨n, Nat.le_refl n, walk, fun m less short => nearer ⟨m, less, short⟩⟩

structure Layered (adjacency : NodeId → IdSet) (start : IdSet) (n : Nat) (visited frontier : IdSet) : Prop where
  within : ∀ id, id ∈ visited ↔ ∃ m ≤ n, Walk adjacency start m id
  outermost : ∀ id, id ∈ frontier ↔ AtDistance adjacency start n id

theorem layered_start (adjacency : NodeId → IdSet) (start : IdSet) : Layered adjacency start 0 start start := by
  have here (id : NodeId) : id ∈ start ↔ Walk adjacency start 0 id := by
    constructor
    · exact Walk.here id
    · rintro ⟨_, member⟩
      exact member
  constructor
  case within => simpa using here
  case outermost => simpa [AtDistance] using here

namespace Layered

variable {n : Nat}

theorem mem_next (layered : Layered adjacency start n visited frontier) (id : NodeId) :
    id ∈ joined adjacency frontier \ visited ↔ AtDistance adjacency start (n + 1) id := by
  have old (notNearer : ∀ m < n + 1, ¬Walk adjacency start m id) : id ∉ visited := by
    intro member
    obtain ⟨m, within, walk⟩ := (layered.within id).1 member
    exact notNearer m (Nat.lt_succ_of_le within) walk
  rw [IdSet.mem_diff, mem_joined]
  constructor
  · rintro ⟨⟨before, member, edge⟩, fresh⟩
    -- What is nearer has been visited.
    have walk := ((layered.outermost before).1 member).1
    apply And.intro (walk.step n before id edge)
    intro m less short
    exact fresh ((layered.within id).2 ⟨m, Nat.le_of_lt_succ less, short⟩)
  · rintro ⟨walk, notNearer⟩
    cases walk with
    | step _ before _ walk edge =>
        apply And.intro _ (old notNearer)
        apply Exists.intro before
        apply And.intro _ edge
        apply (layered.outermost before).2
        -- A shorter walk to the id before would make a shorter walk to this one.
        exact ⟨walk, fun m less short => notNearer (m + 1) (Nat.succ_lt_succ less) (short.step m before id edge)⟩

theorem next (layered : Layered adjacency start n visited frontier) :
    Layered adjacency start (n + 1) (visited ∪ (joined adjacency frontier \ visited))
      (joined adjacency frontier \ visited) := by
  constructor
  case outermost => exact layered.mem_next
  case within =>
    intro id
    rw [IdSet.mem_union, layered.mem_next, layered.within]
    constructor
    · rintro (⟨m, within, walk⟩ | ⟨walk, _⟩)
      · exact ⟨m, Nat.le_succ_of_le within, walk⟩
      · exact ⟨n + 1, Nat.le_refl _, walk⟩
    · rintro ⟨m, within, walk⟩
      obtain ⟨least, below, distance⟩ := walk.exists_distance
      rcases Nat.lt_or_eq_of_le (Nat.le_trans below within) with less | rfl
      · exact Or.inl ⟨least, Nat.le_of_lt_succ less, distance.1⟩
      · exact Or.inr distance

theorem complete (layered : Layered adjacency start n visited frontier)
    (ended : joined adjacency frontier \ visited = ∅) (id : NodeId) :
    id ∈ visited ↔ ∃ m, Walk adjacency start m id := by
  rw [layered.within]
  constructor
  · rintro ⟨m, _, walk⟩
    exact ⟨m, walk⟩
  · rintro ⟨m, walk⟩
    induction walk with
    | here id member => exact ⟨0, Nat.zero_le n, .here id member⟩
    | step _ before id _ edge ih =>
        obtain ⟨m, within, short⟩ := ih
        obtain ⟨least, below, distance⟩ := (short.step m before id edge).exists_distance
        have reached : least ≠ n + 1 := by
          rintro rfl
          have member := (layered.mem_next id).2 distance
          rw [ended] at member
          exact IdSet.not_mem_empty id member
        exact ⟨least, by omega, distance.1⟩

end Layered

def Expansion.Follows (adjacency : NodeId → IdSet) (call : Expansion) : Prop :=
  ∀ found, call.answer = .ok found → found = joined adjacency call.frontier

namespace Explored

variable {calls : List Expansion} {n : Nat}

theorem mem_layer (explored : Explored visited frontier calls result)
    (layered : Layered adjacency start n visited frontier) (follows : ∀ call ∈ calls, call.Follows adjacency)
    {k : Nat} {layer : IdSet} (listed : (frontiers calls)[k]? = some layer) (id : NodeId) :
    id ∈ layer ↔ AtDistance adjacency start (n + k) id := by
  induction k generalizing visited frontier calls n with
  | zero =>
      rw [explored.frontiers_eq] at listed
      rw [← Option.some.inj listed]
      exact layered.outermost id
  | succ k ih =>
      cases explored with
      | failed => cases listed
      | ended => cases listed
      | onward _ _ neighbours later _ _ onward =>
          have answer : neighbours = joined adjacency frontier := follows _ List.mem_cons_self neighbours rfl
          subst answer
          have beyond := ih onward layered.next (fun call member => follows call (List.mem_cons_of_mem _ member)) listed
          rwa [Nat.add_right_comm] at beyond

theorem found_iff {found : IdSet} (explored : Explored visited frontier calls (.ok found))
    (layered : Layered adjacency start n visited frontier) (follows : ∀ call ∈ calls, call.Follows adjacency)
    (id : NodeId) : id ∈ found ↔ ∃ m, Walk adjacency start m id := by
  generalize returned : (Except.ok found : Outcome IdSet) = result at explored
  induction explored generalizing n with
  | failed => cases returned
  | ended visited frontier neighbours known =>
      have answer : neighbours = joined adjacency frontier := follows _ List.mem_cons_self neighbours rfl
      subst answer
      cases returned
      exact layered.complete known id
  | onward visited frontier neighbours later result _ _ ih =>
      have answer : neighbours = joined adjacency frontier := follows _ List.mem_cons_self neighbours rfl
      subst answer
      exact ih layered.next (fun call member => follows call (List.mem_cons_of_mem _ member)) returned

end Explored

structure Explores (expand : IdSet → Update σ IdSet) (start : IdSet) (calls : List Expansion)
    (result : Outcome IdSet) : Prop where
  answered : ∀ call ∈ calls, call.Answers expand
  first : (frontiers calls).head? = if start = ∅ then none else some start
  nonempty : ∀ layer ∈ frontiers calls, layer ≠ ∅
  apart : (frontiers calls).Pairwise fun left right => ∀ id ∈ left, id ∉ right
  bounded : calls.length ≤ UInt32.size
  stops : ∀ call ∈ calls, ∀ failure, call.answer = .error failure →
    calls.getLast? = some call ∧ result = .error failure
  failed_at : ∀ failure, result = .error failure → ∃ call ∈ calls, call.answer = .error failure
  returns : (∀ frontier state, ∃ found, (expand frontier state).1 = .ok found) → ∃ found, result = .ok found
  mem_found : ∀ found, result = .ok found → ∀ id, id ∈ found ↔ ∃ layer ∈ frontiers calls, id ∈ layer

structure Layers (adjacency : NodeId → IdSet) (start : IdSet) (calls : List Expansion) (result : Outcome IdSet) :
    Prop where
  mem_layer : ∀ n layer, (frontiers calls)[n]? = some layer →
    ∀ id, id ∈ layer ↔ AtDistance adjacency start n id
  found_iff : ∀ found, result = .ok found → ∀ id, id ∈ found ↔ ∃ n, Walk adjacency start n id
  once : ∀ found, result = .ok found → ∀ id ∈ found,
    ∃! n : Nat, ∃ layer : IdSet, (frontiers calls)[n]? = some layer ∧ id ∈ layer

theorem explores_empty (expand : IdSet → Update σ IdSet) : Explores expand ∅ [] (.ok ∅) := by
  constructor <;> simp [frontiers]

theorem layers_empty (adjacency : NodeId → IdSet) : Layers adjacency ∅ [] (.ok ∅) := by
  have nowhere (n : Nat) (id : NodeId) : ¬Walk adjacency ∅ n id := by
    intro walk
    induction walk with
    | here id member => exact IdSet.not_mem_empty id member
    | step _ _ _ _ _ ih => exact ih
  constructor <;> simp [frontiers, nowhere]

theorem Explored.explores {calls : List Expansion} (explored : Explored start start calls result)
    (inhabited : start ≠ ∅) (answered : ∀ call ∈ calls, call.Answers expand) :
    Explores expand start calls result := by
  constructor
  case answered => exact answered
  case first => rw [explored.frontiers_eq, if_neg inhabited, List.head?_cons]
  case nonempty => exact explored.nonempty inhabited
  case apart => exact explored.apart fun id member => member
  case bounded =>
    have bound := explored.bounded
    have positive : start.size ≠ 0 := fun none => inhabited (IdSet.size_eq_zero.1 none)
    omega
  case stops => exact fun call listed failure => explored.stops listed
  case failed_at =>
    rintro failure rfl
    exact explored.failed_at
  case returns =>
    intro succeeds
    cases result with
    | ok found => exact ⟨found, rfl⟩
    | error failure =>
        obtain ⟨call, listed, failed⟩ := explored.failed_at
        obtain ⟨state, answer⟩ := answered call listed
        obtain ⟨found, succeeded⟩ := succeeds call.frontier state
        rw [answer, failed] at succeeded
        cases succeeded
  case mem_found =>
    rintro found rfl id
    rw [explored.mem_found, explored.frontiers_eq]
    simp

theorem Explored.layers {calls : List Expansion} (explored : Explored start start calls result)
    (follows : ∀ call ∈ calls, call.Follows adjacency) : Layers adjacency start calls result := by
  have layered := layered_start adjacency start
  have distance (n : Nat) (layer : IdSet) (listed : (frontiers calls)[n]? = some layer) (id : NodeId) :
      id ∈ layer ↔ AtDistance adjacency start n id := by
    rw [explored.mem_layer layered follows listed, Nat.zero_add]
  constructor
  case mem_layer => exact distance
  case found_iff =>
    rintro found rfl
    exact explored.found_iff layered follows
  case once =>
    rintro found rfl id member
    have expanded : ∃ layer ∈ frontiers calls, id ∈ layer := by
      rw [explored.mem_found] at member
      rw [explored.frontiers_eq]
      simpa using member
    obtain ⟨layer, listed, inside⟩ := expanded
    obtain ⟨n, atIndex⟩ := List.mem_iff_getElem?.1 listed
    apply ExistsUnique.intro n ⟨layer, atIndex, inside⟩
    rintro m ⟨other, atOther, again⟩
    exact ((distance m other atOther id).1 again).unique ((distance n layer atIndex id).1 inside)

/-- The search hands `expand` frontiers that share no id, so it ends; it stops at the first failure, and only there
without a result. When `expand` gives the neighbours in a graph, the frontiers are the layers around the start and
what is found is what can be reached. -/
theorem reachable_layers (expand : IdSet → Update σ IdSet) (start : IdSet) (state : σ) :
    ∃ result calls last, reachable expand start state = (result, last) ∧
      reachable (recording expand) start ([], state) = (result, (calls, last)) ∧
      Explores expand start calls result ∧
      ∀ adjacency,
        (∀ frontier state found, (expand frontier state).1 = .ok found → found = joined adjacency frontier) →
        Layers adjacency start calls result := by
  unfold reachable
  by_cases empty : start = ∅
  · subst empty
    exact ⟨.ok ∅, [], state, rfl, rfl, explores_empty expand, fun adjacency _ => layers_empty adjacency⟩
  · obtain ⟨result, calls, last, plain, recorded, explored, answered⟩ :=
      expandFrontier_recording expand start start [] state
    rw [if_neg empty, if_neg empty]
    apply Exists.intro result
    apply Exists.intro calls
    apply Exists.intro last
    refine ⟨plain, recorded, explored.explores empty answered, fun adjacency follows => explored.layers ?_⟩
    intro call listed found succeeded
    obtain ⟨before, answer⟩ := answered call listed
    exact follows call.frontier before found (answer.trans succeeded)

def circle (id : NodeId) : IdSet :=
  match id with
  | 1 => .singleton 2
  | 2 => .singleton 3
  | 3 => .ofList [1, 5]
  | _ => ∅

theorem reachable_layers_circle :
    ∃ found calls last, reachable (recording fun frontier (count : Nat) => (.ok (joined circle frontier), count + 1))
        (.singleton 2) ([], 0) = (.ok found, (calls, last)) ∧ Layers circle (.singleton 2) calls (.ok found) := by
  obtain ⟨result, calls, last, _, recorded, explores, layers⟩ :=
    reachable_layers (fun frontier (count : Nat) => (.ok (joined circle frontier), count + 1)) (.singleton 2) 0
  obtain ⟨found, rfl⟩ := explores.returns fun frontier count => ⟨joined circle frontier, rfl⟩
  apply Exists.intro found
  apply Exists.intro calls
  apply Exists.intro last
  exact ⟨recorded, layers circle fun frontier count found answer => (Except.ok.inj answer).symm⟩

end SupplyGraph
