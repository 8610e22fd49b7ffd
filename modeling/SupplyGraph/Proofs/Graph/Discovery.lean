import SupplyGraph.Proofs.Graph.Components
import Mathlib.Data.List.Perm.Subperm

/-!
The order of discovery. The search keeps a stack of frames where a recursive search would keep its calls: what the
frames still have to look at, the innermost one first, followed by the later roots, is what the recursion has still to
visit. So both meet the ids in the same order, and each component is cut from a stack that is in this order too.
-/

namespace SupplyGraph.Components
open Relation

/-- A recursive depth-first search takes the ids in turn. It passes over an id that it has met; it searches the children
of a new one before the ids that follow. The lists are what was met before and after, in the order of discovery. -/
inductive DepthFirst (children : NodeId → List NodeId) : (met ids after : List NodeId) → Prop
  | done (met : List NodeId) : DepthFirst children met [] met
  | again (met after : List NodeId) (id : NodeId) (rest : List NodeId) (before : id ∈ met)
      (later : DepthFirst children met rest after) : DepthFirst children met (id :: rest) after
  | discover (met between after : List NodeId) (id : NodeId) (rest : List NodeId) (fresh : id ∉ met)
      (below : DepthFirst children (met ++ [id]) (children id) between)
      (later : DepthFirst children between rest after) : DepthFirst children met (id :: rest) after

namespace DepthFirst

variable {children : NodeId → List NodeId} {met after : List NodeId}

theorem unique {ids other : List NodeId} (first : DepthFirst children met ids after)
    (second : DepthFirst children met ids other) : after = other := by
  induction first generalizing other with
  | done met =>
      cases second
      rfl
  | again met after id rest before later ih =>
      cases second with
      | again _ _ _ _ _ second => exact ih second
      | discover _ _ _ _ _ fresh => exact absurd before fresh
  | discover met between after id rest fresh below later belowIh laterIh =>
      cases second with
      | again _ _ _ _ before => exact absurd before fresh
      | discover _ _ _ _ _ _ secondBelow second =>
          rw [← belowIh secondBelow] at second
          exact laterIh second

theorem split {first second : List NodeId} (search : DepthFirst children met (first ++ second) after) :
    ∃ between, DepthFirst children met first between ∧ DepthFirst children between second after := by
  induction first generalizing met with
  | nil => exact ⟨met, .done met, search⟩
  | cons id first ih =>
      cases search with
      | again _ _ _ _ before later =>
          obtain ⟨between, front, back⟩ := ih later
          exact ⟨between, .again met between id first before front, back⟩
      | discover _ middle _ _ _ fresh below later =>
          obtain ⟨between, front, back⟩ := ih later
          exact ⟨between, .discover met middle between id first fresh below front, back⟩

end DepthFirst

namespace Search

variable {children : NodeId → List NodeId} {known : NodeId → Prop} {search : Search} {ids order : List NodeId}

def Resumes (children : NodeId → List NodeId) (ids order waiting : List NodeId) : Prop :=
  ∀ after, DepthFirst children order waiting after → DepthFirst children [] ids after

theorem Resumes.again {id : NodeId} {waiting : List NodeId} (resumes : Resumes children ids order (id :: waiting))
    (before : id ∈ order) : Resumes children ids order waiting := by
  intro after later
  exact resumes after (.again order after id waiting before later)

theorem Resumes.discover {id : NodeId} {waiting : List NodeId} (resumes : Resumes children ids order (id :: waiting))
    (fresh : id ∉ order) : Resumes children ids (order ++ [id]) (children id ++ waiting) := by
  intro after search
  obtain ⟨between, below, later⟩ := search.split
  exact resumes after (.discover order between after id waiting fresh below later)

def waiting (search : Search) : List NodeId := search.frames.flatMap (·.remaining)

theorem waiting_leave (search : Search) (frame : Frame) (below : List Frame) :
    (search.leave frame below).waiting = below.flatMap (·.remaining) := by
  have lowered (candidate : Nat) : (lower candidate below).flatMap (·.remaining) = below.flatMap (·.remaining) := by
    cases below <;> simp [lower]
  unfold leave
  split
  · simp [waiting, complete, lowered]
  · simp [waiting, lowered]

structure Discovers (order : List NodeId) (search : Search) : Prop where
  mem_iff : ∀ id, id ∈ order ↔ id ∈ search.numbers
  nodup : order.Nodup
  stack_sublist : search.stack.reverse.Sublist order
  part_sublist : ∀ part ∈ search.completedReversed, part.2.Sublist order

theorem Discovers.not_mem (discovers : Discovers order search) (numbered : Numbered known search) {id : NodeId}
    (fresh : id ∈ search.unseen) : id ∉ order :=
  fun before => numbered.not_met fresh ((discovers.mem_iff id).1 before)

theorem Discovers.enter (discovers : Discovers order search) (numbered : Numbered known search) {id : NodeId}
    (fresh : id ∈ search.unseen) : Discovers (order ++ [id]) (search.enter children id) := by
  have absent := discovers.not_mem numbered fresh
  constructor
  case mem_iff =>
    intro other
    rw [List.mem_append, List.mem_singleton, mem_numbers_enter, discovers.mem_iff, or_comm, eq_comm]
  case nodup =>
    apply List.Nodup.append discovers.nodup (List.nodup_singleton id)
    simpa using absent
  case stack_sublist =>
    change (id :: search.stack).reverse.Sublist (order ++ [id])
    rw [List.reverse_cons]
    exact discovers.stack_sublist.append (List.Sublist.refl [id])
  case part_sublist =>
    intro part listed
    exact (discovers.part_sublist part listed).trans (List.sublist_append_left order [id])

theorem Discovers.complete (discovers : Discovers order search) {first : NodeId} (isOpen : first ∈ search.stack) :
    Discovers order (search.complete first) := by
  obtain ⟨later, earlier, stack, absent⟩ := List.eq_append_cons_of_mem isOpen
  obtain ⟨take, drop⟩ := split_at_first earlier absent
  have reversed : search.stack.reverse = earlier.reverse ++ first :: later.reverse := by simp [stack]
  have within := discovers.stack_sublist
  rw [reversed] at within
  constructor
  case mem_iff => exact discovers.mem_iff
  case nodup => exact discovers.nodup
  case stack_sublist =>
    have rest : (search.complete first).stack = earlier := by simp only [Search.complete, stack, drop]
    rw [rest]
    exact (List.sublist_append_left _ _).trans within
  case part_sublist =>
    have added : (search.complete first).completedReversed =
        (first, first :: later.reverse) :: search.completedReversed := by simp only [Search.complete, stack, take]
    rw [added]
    intro part listed
    rcases List.mem_cons.1 listed with new | old
    · rw [new]
      exact (List.sublist_append_right _ _).trans within
    · exact discovers.part_sublist part old

theorem Discovers.reframe (discovers : Discovers order search) (frames : List Frame) (steps : Nat) :
    Discovers order { search with frames, steps } := { discovers with }

theorem Discovers.leave (discovers : Discovers order search) {frame : Frame} (isOpen : frame.id ∈ search.stack)
    (below : List Frame) : Discovers order (search.leave frame below) := by
  have lowered := discovers.reframe (lower frame.low below) search.steps
  unfold Search.leave
  split
  · exact lowered.complete isOpen
  · exact lowered

def Replays (children : NodeId → List NodeId) (ids rest order : List NodeId) (search : Search) : Prop :=
  Discovers order search ∧ Resumes children ids order (search.waiting ++ rest)

theorem Replays.step {rest : List NodeId} (replays : Replays children ids rest order search)
    (invariant : Invariant children known search) (known_child : ∀ id, ∀ child ∈ children id, known child)
    {next : Search} (moved : search.step children = some next) : ∃ order, Replays children ids rest order next := by
  obtain ⟨discovers, resumes⟩ := replays
  obtain ⟨frame, below, split, moves⟩ := step_cases moved
  have top : frame ∈ search.frames := by simp [split]
  have waiting : search.waiting = frame.remaining ++ below.flatMap (·.remaining) := by simp [Search.waiting, split]
  rw [waiting, List.append_assoc] at resumes
  rcases moves with ⟨looked, rfl⟩ | ⟨child, remaining, remains, looks⟩
  · refine ⟨order, (discovers.reframe search.frames (search.steps + 1)).leave (invariant.trail.frame_open frame top)
      below, ?_⟩
    rw [looked, List.nil_append] at resumes
    rw [waiting_leave]
    exact resumes
  have isKnown : known child :=
    known_child frame.id child (invariant.trail.remaining_children frame top child (by simp [remains]))
  rw [remains, List.cons_append] at resumes
  -- A child that was met before is passed over, whatever it does to the low of its frame.
  have passed (seen : child ∉ search.unseen) :
      Resumes children ids order (remaining ++ (below.flatMap (·.remaining) ++ rest)) :=
    resumes.again ((discovers.mem_iff child).2 (invariant.numbered.met_of_seen isKnown seen))
  rcases looks with ⟨fresh, rfl⟩ | ⟨seen, number, -, -, rfl⟩ | ⟨seen, -, rfl⟩
  · have absent := discovers.not_mem invariant.numbered fresh
    have counted : Numbered known { search with
        steps := search.steps + 1
        frames := { frame with remaining } :: below } := { invariant.numbered with }
    refine ⟨order ++ [child], (discovers.reframe _ _).enter counted fresh, ?_⟩
    simpa [Search.waiting, Search.enter] using resumes.discover absent
  · refine ⟨order, discovers.reframe _ _, ?_⟩
    simpa [Search.waiting] using passed seen
  · refine ⟨order, discovers.reframe _ _, ?_⟩
    simpa [Search.waiting] using passed seen

theorem keeps_replays (known_child : ∀ id, ∀ child ∈ children id, known child) (ids : List NodeId) :
    Keeps children fun rest search => Underway children known ids rest search ∧
      ∃ order, Replays children ids rest order search := by
  have keeps := keeps_underway known_child ids
  have idle {root : NodeId} {rest : List NodeId} {search : Search} (none : search.frames = []) :
      search.waiting ++ root :: rest = root :: rest := by simp [Search.waiting, none]
  constructor
  case skip =>
    intro root rest search before none seen
    obtain ⟨underway, order, discovers, resumes⟩ := before
    have met := underway.invariant.numbered.met_of_seen (underway.present root (List.mem_cons_self ..)) seen
    rw [idle none] at resumes
    refine ⟨keeps.skip root rest search underway none seen, order, discovers, ?_⟩
    simpa [Search.waiting, none] using resumes.again ((discovers.mem_iff root).2 met)
  case enter =>
    intro root rest search before none fresh
    obtain ⟨underway, order, discovers, resumes⟩ := before
    have absent := discovers.not_mem underway.invariant.numbered fresh
    rw [idle none] at resumes
    refine ⟨keeps.enter root rest search underway none fresh, order ++ [root],
      discovers.enter underway.invariant.numbered fresh, ?_⟩
    simpa [Search.waiting, Search.enter, none] using resumes.discover absent
  case step =>
    intro rest search next before moved
    obtain ⟨underway, order, replays⟩ := before
    exact ⟨keeps.step rest search next underway moved, replays.step underway.invariant known_child moved⟩

end Search

theorem eq_filter_of_sublist {part order : List NodeId} (nodup : order.Nodup) (within : part.Sublist order) :
    part = order.filter (· ∈ part) := by
  have kept : part.filter (· ∈ part) = part := List.filter_eq_self.2 (by simp)
  have among : part.Sublist (order.filter (· ∈ part)) := by
    have filtered := within.filter fun id => decide (id ∈ part)
    rwa [kept] at filtered
  have few : (order.filter (· ∈ part)).Subset part := by
    intro id member
    simpa using (List.mem_filter.1 member).2
  exact among.eq_of_length_le (List.subperm_of_subset (nodup.filter _) few).length_le

theorem ofGraph_discovers (ids : List NodeId) (children : NodeId → IdSet) :
    (ofGraph ids children).Yields fun components => ∃ order, DepthFirst (childrenWithin ids children) [] ids order ∧
      order.Nodup ∧ (∀ id, id ∈ order ↔ id ∈ ids) ∧ ∀ part ∈ components.toList, part.2.Sublist order := by
  have keeps := Search.keeps_replays (known_childrenWithin ids children) ids
  have start : Search.Replays (childrenWithin ids children) ids ids [] { unseen := Std.TreeSet.ofList ids } := by
    refine ⟨⟨by simp, List.nodup_nil, by simp, by simp⟩, ?_⟩
    exact fun after search => search
  rw [ofGraph_eq]
  refine (keeps.visits ⟨underway_start ids _, [], start⟩ rfl).bind ?_
  intro final ⟨⟨underway, order, discovers, resumes⟩, ended⟩
  have finished : final.waiting ++ [] = [] := by simp [Search.waiting, ended]
  rw [finished] at resumes
  refine .pure ⟨order, resumes order (.done order), discovers.nodup, fun id => ?_, fun part listed => ?_⟩
  · rw [discovers.mem_iff]
    exact ⟨underway.invariant.numbered.known_of_met id, underway.met_all id⟩
  · exact discovers.part_sublist part (List.mem_reverse.1 listed)

/-- A component that leads to another one is listed after it. In the order in which a recursive depth-first search
discovers the ids, the representative of a component is its first member, and the members are listed in this order. -/
theorem ofGraph_ordered (ids : List NodeId) (children : NodeId → IdSet) :
    ∃ components order, ofGraph ids children .never = .ok (components, .never) ∧
      (∀ found, DepthFirst (childrenWithin ids children) [] ids found ↔ found = order) ∧
      order.Nodup ∧ (∀ id, id ∈ order ↔ id ∈ ids) ∧
      (∀ (place otherPlace : Nat) (part other : NodeId × List NodeId), components.toList[place]? = some part →
        components.toList[otherPlace]? = some other → part ≠ other →
        (∃ id ∈ part.2, ∃ target ∈ other.2, ReflTransGen (Inside ids children) id target) → otherPlace < place) ∧
      ∀ part ∈ components.toList, order.find? (· ∈ part.2) = some part.1 ∧ part.2 = order.filter (· ∈ part.2) ∧
        part.2.head? = some part.1 := by
  obtain ⟨components, run, exact, order, search, nodup, mem_iff, within⟩ :=
    ((ofGraph_yields ids children).and (ofGraph_discovers ids children)).never
  refine ⟨components, order, run, ?_, nodup, mem_iff, ?_, ?_⟩
  · intro found
    exact ⟨fun other => other.unique search, fun same => same ▸ search⟩
  · intro place otherPlace part other listed otherListed different ⟨id, inside, target, reached, path⟩
    by_contra notBefore
    obtain ⟨bound, here⟩ := List.getElem?_eq_some_iff.1 listed
    obtain ⟨otherBound, there⟩ := List.getElem?_eq_some_iff.1 otherListed
    rcases Nat.lt_or_eq_of_le (Nat.not_lt.1 notBefore) with earlier | same
    · have apart := List.pairwise_iff_getElem.1 exact.ordered place otherPlace bound otherBound earlier
      rw [here, there] at apart
      exact apart id inside target reached path
    · subst same
      exact different (here.symm.trans there)
  · intro part listed
    have filtered := eq_filter_of_sublist nodup (within part listed)
    have head := exact.members_head part listed
    refine ⟨?_, filtered, head⟩
    rw [← List.head?_filter, ← filtered, head]

end SupplyGraph.Components
