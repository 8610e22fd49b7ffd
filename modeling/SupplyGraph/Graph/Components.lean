import SupplyGraph.Cancellation
import Std.Data.TreeMap
import Std.Data.TreeSet

/-!
Strongly connected components. One depth-first search takes its roots in the order given and the children of a
node in ascending order. It keeps its own stack of frames, so depth costs no recursion. A component is complete
when the search leaves the member that it met first, the component's representative; hence a component is
listed after every component that it reaches.
-/

namespace SupplyGraph

structure Components where
  /-- Each representative with its component's members in the order of discovery, the first completed first. -/
  toList : List (NodeId × List NodeId) := []
  representatives : Std.TreeMap NodeId NodeId := ∅

namespace Components

def representative? (components : Components) (id : NodeId) : Option NodeId := components.representatives[id]?

def same (components : Components) (id other : NodeId) : Bool :=
  match components.representative? id, components.representative? other with
  | some representative, some otherRepresentative => representative == otherRepresentative
  | _, _ => false

def members (components : Components) (representative : NodeId) : List NodeId :=
  (components.toList.lookup representative).getD []

def size (components : Components) : Nat := components.toList.length

structure Frame where
  id : NodeId
  number : Nat
  /-- The least number met so far from the node among nodes whose component is open. -/
  low : Nat
  remaining : List NodeId

structure Search where
  unseen : Std.TreeSet NodeId
  numbers : Std.TreeMap NodeId Nat := ∅
  frames : List Frame := []
  stack : List NodeId := []
  completedReversed : List (NodeId × List NodeId) := []
  representatives : Std.TreeMap NodeId NodeId := ∅
  steps : Nat := 0

namespace Search

def enter (children : NodeId → List NodeId) (search : Search) (id : NodeId) : Search :=
  let number := search.numbers.size
  { search with
    unseen := search.unseen.erase id
    numbers := search.numbers.insert id number
    frames := ⟨id, number, number, children id⟩ :: search.frames
    stack := id :: search.stack }

def lower (candidate : Nat) : List Frame → List Frame
  | [] => []
  | frame :: below => { frame with low := min frame.low candidate } :: below

def complete (search : Search) (first : NodeId) : Search :=
  let later := search.stack.takeWhile (· ≠ first)
  let members := first :: later.reverse
  { search with
    stack := (search.stack.dropWhile (· ≠ first)).tail
    completedReversed := (first, members) :: search.completedReversed
    representatives := members.foldl (fun table id => table.insert id first) search.representatives }

def leave (search : Search) (frame : Frame) (below : List Frame) : Search :=
  let left := { search with frames := lower frame.low below }
  if frame.low = frame.number then left.complete frame.id else left

def step (children : NodeId → List NodeId) (search : Search) : Option Search :=
  match search.frames with
  | [] => none
  | frame :: below => some <|
    let counted := { search with steps := search.steps + 1 }
    match frame.remaining with
    | [] => counted.leave frame below
    | child :: remaining =>
      let frames := { frame with remaining } :: below
      if child ∈ search.unseen then { counted with frames }.enter children child
      else match search.numbers[child]?, search.representatives[child]? with
        | some number, none => { counted with frames := lower number frames }
        | _, _ => { counted with frames }

/-- The steps that the open frames still need, unless they meet new nodes. -/
def work : List Frame → Nat
  | [] => 0
  | frame :: below => frame.remaining.length + 1 + work below

@[simp] theorem work_lower (candidate : Nat) (frames : List Frame) : work (lower candidate frames) = work frames := by
  cases frames <;> simp [work, lower]

theorem work_frames_leave (search : Search) (frame : Frame) (below : List Frame) :
    (search.leave frame below).unseen = search.unseen ∧ work (search.leave frame below).frames = work below := by
  unfold leave
  split <;> simp [complete]

/-- The steps that are left: a node that is not met yet takes one for each child and one to leave it. -/
def stepsLeft (children : NodeId → List NodeId) (search : Search) : Nat :=
  (search.unseen.toList.flatMap fun id => id :: children id).length + work search.frames

theorem perm_erase {ids : Std.TreeSet NodeId} {id : NodeId} (member : id ∈ ids) :
    ids.toList.Perm (id :: (ids.erase id).toList) := by
  have nodup (ids : Std.TreeSet NodeId) : ids.toList.Nodup :=
    (Std.TreeSet.ordered_toList (t := ids)).imp fun less => UInt32.ne_of_lt (Std.compare_eq_lt.1 less)
  refine (List.perm_ext_iff_of_nodup (nodup ids) (List.nodup_cons.2 ⟨?_, nodup _⟩)).2 fun other => ?_
  · simp [Std.TreeSet.mem_toList]
  · rw [List.mem_cons, Std.TreeSet.mem_toList, Std.TreeSet.mem_toList, Std.TreeSet.mem_erase]
    by_cases same : other = id
    · simp [same, member]
    · simp [same, Ne.symm same]

theorem step_decreases {children : NodeId → List NodeId} {search next : Search}
    (moved : search.step children = some next) : next.stepsLeft children < search.stepsLeft children := by
  unfold step at moved
  split at moved
  · cases moved
  · rename_i frame below frames
    injection moved with moved
    unfold stepsLeft
    split at moved
    · obtain ⟨unseen, less⟩ := work_frames_leave { search with steps := search.steps + 1 } frame below
      subst moved
      rw [unseen, less, frames, work]
      exact Nat.add_lt_add_left (by omega) _
    · rename_i child remaining hasChild
      rw [frames, work, hasChild]
      split at moved
      · rename_i fresh
        subst moved
        rw [((perm_erase fresh).flatMap_right _).length_eq]
        simp only [enter, work, List.flatMap_cons, List.length_append, List.length_cons]
        omega
      · split at moved
        all_goals
          subst moved
          simp [work, lower]

def run (children : NodeId → List NodeId) (search : Search) : Polled Search :=
  match _moved : search.step children with
  | none => pure search
  | some next => do
    Polled.tick search.steps
    run children next
termination_by search.stepsLeft children
decreasing_by exact step_decreases _moved

def visit (children : NodeId → List NodeId) (search : Search) (root : NodeId) : Polled Search :=
  if root ∈ search.unseen then (search.enter children root).run children else pure search

end Search

/-- The components of the graph on `ids`; children outside `ids` do not count. -/
def ofGraph (ids : List NodeId) (children : NodeId → IdSet) : Polled Components := do
  let known := Std.TreeSet.ofList ids
  let knownChildren (id : NodeId) : List NodeId := (children id).toList.filter known.contains
  let search ← ids.foldlM (Search.visit knownChildren) { unseen := known }
  return { toList := search.completedReversed.reverse, representatives := search.representatives }

end Components

end SupplyGraph
