import Mathlib.Algebra.Ring.Nat
import SupplyGraph.Proofs.Graph.Pass

/-!
A pass ends by itself. Its potential falls with every step: completing a component outweighs everything that
may follow until the next completion, descending leaves less to descend to, and merging leaves less to merge.
-/

namespace SupplyGraph.ClosurePass
open Relation Classical

section Sums

variable {α : Type} {items : List α} {small large : α → Nat}

theorem sum_map_le (le : ∀ item ∈ items, small item ≤ large item) :
    (items.map small).sum ≤ (items.map large).sum := by
  induction items with
  | nil => exact Nat.le_refl 0
  | cons item items ih =>
      rw [List.map_cons, List.map_cons, List.sum_cons, List.sum_cons]
      exact Nat.add_le_add (le item (List.mem_cons_self ..))
        (ih fun other member => le other (List.mem_cons_of_mem _ member))

theorem sum_map_add_le {item : α} {gap : Nat} (le : ∀ item ∈ items, small item ≤ large item) (member : item ∈ items)
    (more : small item + gap ≤ large item) : (items.map small).sum + gap ≤ (items.map large).sum := by
  obtain ⟨before, after, rfl⟩ := List.append_of_mem member
  have first : (before.map small).sum ≤ (before.map large).sum :=
    sum_map_le fun other inside => le other (List.mem_append_left _ inside)
  have last : (after.map small).sum ≤ (after.map large).sum :=
    sum_map_le fun other inside => le other (List.mem_append_right _ (List.mem_cons_of_mem _ inside))
  simp only [List.map_append, List.map_cons, List.sum_append, List.sum_cons]
  omega

end Sums

namespace Plan

def edges (plan : Plan) (table : NodeId → IdSet) : Nat :=
  (plan.components.toList.map fun part => (table part.1).size).sum

def total (plan : Plan) (ahead : NodeId → IdSet) : Nat :=
  (plan.components.toList.map fun part => (ahead part.1).size + 2).sum

noncomputable def depth (plan : Plan) (edge : NodeId → NodeId → Prop) (ahead : NodeId → IdSet) (id : NodeId) : Nat :=
  (plan.components.toList.map fun part =>
    if ReflTransGen edge id part.1 ∧ ¬ ReflTransGen edge part.1 id then (ahead part.1).size + 2 else 0).sum

variable {plan : Plan} {known : NodeId → Prop} {edge : NodeId → NodeId → Prop} {ahead behind : NodeId → IdSet}
variable {id : NodeId}

theorem edgeCount_eq {table : AliasTable IdSet} {value : NodeId → IdSet}
    (tabulates : table.Tabulates plan.components.toList value) (partition : Partition plan.components.toList) :
    plan.edgeCount table = plan.edges value := by
  have counted : ∀ (parts : List (NodeId × List NodeId)) (count : Nat), (∀ part ∈ parts, part ∈ plan.components.toList) →
      parts.foldl (fun count part => count + ((table.get? part.1).getD ∅).size) count =
        count + (parts.map fun part => (value part.1).size).sum := by
    intro parts
    induction parts with
    | nil => exact fun count _ => rfl
    | cons part parts ih =>
        intro count listed
        have here := listed part (List.mem_cons_self ..)
        rw [List.foldl_cons, ih _ fun other member => listed other (List.mem_cons_of_mem _ member),
          tabulates.get? here (partition.head_mem part here), List.map_cons, List.sum_cons, ← Nat.add_assoc]
        rfl
  exact (counted _ 0 fun part listed => listed).trans (Nat.zero_add _)

theorem total_eq : plan.total ahead = plan.edges ahead + 2 * plan.components.size := by
  unfold total edges Components.size
  induction plan.components.toList with
  | nil => rfl
  | cons part parts ih =>
      simp only [List.map_cons, List.sum_cons, List.length_cons, ih]
      omega

theorem Sound.size_le_edges (sound : plan.Sound known edge ahead behind) (head : plan.Represents id id)
    (table : NodeId → IdSet) : (table id).size ≤ plan.edges table := by
  obtain ⟨members, listed, -⟩ := sound.part head
  have more : (plan.components.toList.map fun _ => 0).sum + (table id).size ≤ plan.edges table :=
    sum_map_add_le (fun _ _ => Nat.zero_le _) listed (Nat.zero_add _).le
  exact (Nat.le_add_left _ _).trans more

theorem Sound.depth_le_total (sound : plan.Sound known edge ahead behind) (head : plan.Represents id id) :
    plan.depth edge ahead id + (ahead id).size ≤ plan.total ahead := by
  obtain ⟨members, listed, -⟩ := sound.part head
  refine sum_map_add_le ?_ listed ?_
  · intro part _
    split
    · exact Nat.le_refl _
    · exact Nat.zero_le _
  · rw [if_neg fun both => both.2 .refl, Nat.zero_add]
    exact Nat.le_add_right _ 2

theorem Sound.depth_ahead (sound : plan.Sound known edge ahead behind) (head : plan.Represents id id)
    {other : NodeId} (isAhead : other ∈ ahead id) :
    plan.depth edge ahead (plan.representative other) + ((ahead (plan.representative other)).size + 2) ≤
      plan.depth edge ahead id := by
  obtain ⟨represents, different, path, noWayBack⟩ := sound.ahead_leads head isAhead
  have onwards : ReflTransGen edge id (plan.representative other) := path.trans (sound.path_home represents)
  obtain ⟨members, listed, -⟩ := sound.part (sound.self represents)
  refine sum_map_add_le ?_ listed ?_
  · intro part _
    split
    · rename_i further
      rw [if_pos ⟨onwards.trans further.1, fun back => further.2 (back.trans onwards)⟩]
    · exact Nat.zero_le _
  · rw [if_neg fun both => both.2 .refl, if_pos ⟨onwards, noWayBack⟩, Nat.zero_add]

end Plan

namespace State

def undone (plan : Plan) (state : State) : Nat :=
  (plan.components.toList.map fun part => if part.1 ∈ state.done then 0 else 1).sum

noncomputable def top (plan : Plan) (edge : NodeId → NodeId → Prop) (ahead : NodeId → IdSet) (state : State) : Nat :=
  match state.frames with
  | [] => 0
  | frame :: _ =>
    if frame.id ∈ state.done then plan.total ahead else frame.remaining.length + plan.depth edge ahead frame.id

noncomputable def potential (plan : Plan) (edge : NodeId → NodeId → Prop) (ahead behind : NodeId → IdSet)
    (state : State) : Nat :=
  (plan.total ahead + plan.edges behind) * state.undone plan + state.frames.length + state.top plan edge ahead

variable {plan : Plan} {known : NodeId → Prop} {edge : NodeId → NodeId → Prop} {ahead behind value : NodeId → IdSet}
variable {state next : State} {frame : Frame} {below : List Frame}

theorem undone_congr (done : next.done = state.done) : next.undone plan = state.undone plan := by
  rw [undone, undone, done]

theorem undone_insert (sound : plan.Sound known edge ahead behind) {id : NodeId} (head : plan.Represents id id)
    (notDone : id ∉ state.done) (done : next.done = state.done.insert id) :
    next.undone plan + 1 ≤ state.undone plan := by
  obtain ⟨members, listed, -⟩ := sound.part head
  refine sum_map_add_le ?_ listed ?_
  · intro part _
    split
    · exact Nat.zero_le _
    · rename_i still
      have before : part.1 ∉ state.done := by
        intro isDone
        rw [done] at still
        exact still (Std.TreeSet.mem_insert.2 (Or.inr isDone))
      rw [if_neg before]
  · rw [done, if_pos Std.TreeSet.mem_insert_self, if_neg notDone]

theorem Invariant.top_le_total (invariant : Invariant plan edge ahead value state)
    (sound : plan.Sound known edge ahead behind) : state.top plan edge ahead ≤ plan.total ahead := by
  unfold top
  split
  · exact Nat.zero_le _
  · rename_i frame below frames
    have inner : frame ∈ state.frames := frames ▸ List.mem_cons_self ..
    split
    · exact Nat.le_refl _
    · have few : frame.remaining.length ≤ (ahead frame.id).size := (invariant.remaining frame inner).length_le
      have bound := sound.depth_le_total (invariant.head_of_frame frame inner)
      omega

theorem Invariant.potential_lt (invariant : Invariant plan edge ahead value state)
    (sound : plan.Sound known edge ahead behind) (frames : state.frames = frame :: below)
    (moves : Moves plan ahead behind value frame below state next) :
    next.potential plan edge ahead behind < state.potential plan edge ahead behind := by
  have inner : frame ∈ state.frames := frames ▸ List.mem_cons_self ..
  have head := invariant.head_of_frame frame inner
  obtain ⟨_, kept⟩ := invariant.step sound frames moves
  have bound := kept.top_le_total sound
  have length : state.frames.length = below.length + 1 := frames ▸ rfl
  unfold potential
  cases moves with
  | drop isDone closures done nextFrames =>
      have full : state.top plan edge ahead = plan.total ahead := by simp [top, frames, isDone]
      rw [undone_congr done, nextFrames, length, full]
      omega
  | complete pushed notDone nothing closures done nextFrames few fresh =>
      -- One component less to do outweighs the frames that it pushes and a top that grows to the total.
      have fewer := undone_insert sound head notDone done
      have weight := Nat.mul_le_mul_left (plan.total ahead + plan.edges behind) fewer
      have pushes : pushed.length ≤ plan.edges behind := few.trans (sound.size_le_edges head behind)
      rw [nextFrames, List.length_append, length]
      rw [Nat.mul_add, Nat.mul_one] at weight
      omega
  | merge id remaining notDone first isDone closures done nextFrames =>
      have before : state.top plan edge ahead = remaining.length + 1 + plan.depth edge ahead frame.id := by
        simp [top, frames, notDone, first]
      have after : next.top plan edge ahead = remaining.length + plan.depth edge ahead frame.id := by
        simp [top, nextFrames, done, notDone]
      rw [undone_congr done, nextFrames, length, before, after, List.length_cons]
      omega
  | descend id remaining notDone first later closures done nextFrames =>
      have isAhead : id ∈ ahead frame.id := (invariant.remaining frame inner).subset (first ▸ List.mem_cons_self ..)
      have less := sound.depth_ahead head isAhead
      have before : state.top plan edge ahead = remaining.length + 1 + plan.depth edge ahead frame.id := by
        simp [top, frames, notDone, first]
      have after : next.top plan edge ahead = (ahead (plan.representative id)).size +
          plan.depth edge ahead (plan.representative id) := by
        simp [top, nextFrames, done, later, IdSet.size]
      rw [undone_congr done, nextFrames, length, before, after, List.length_cons, List.length_cons]
      omega

inductive Ends (plan : Plan) : State → State → Prop
  | empty (state : State) (none : state.frames = []) : Ends plan state state
  | step (state next final : State) (frame : Frame) (below : List Frame) (frames : state.frames = frame :: below)
      (ran : state.step plan frame below = .ok next) (ends : Ends plan { next with steps := state.steps + 1 } final) :
      Ends plan state final

inductive Passes (plan : Plan) (start : State) : List NodeId → State → Prop
  | start : Passes plan start [] start
  | skip (ids : List NodeId) (id : NodeId) (state : State) (before : Passes plan start ids state)
      (isDone : plan.representative id ∈ state.done) : Passes plan start (ids ++ [id]) state
  | visit (ids : List NodeId) (id : NodeId) (state pushed final : State) (before : Passes plan start ids state)
      (notDone : plan.representative id ∉ state.done) (push : state.push plan (plan.representative id) = .ok pushed)
      (ends : Ends plan pushed final) : Passes plan start (ids ++ [id]) final

def Covers (state : State) (id : NodeId) : Prop := id ∈ state.done ∨ ∃ frame ∈ state.frames, frame.id = id

theorem Moves.covers (moves : Moves plan ahead behind value frame below state next)
    (frames : state.frames = frame :: below) {id : NodeId} (covers : state.Covers id) : next.Covers id := by
  rcases covers with isDone | ⟨other, member, rfl⟩
  · left
    cases moves with
    | drop _ _ done _ => exact done ▸ isDone
    | complete _ _ _ _ done _ _ _ => exact done ▸ Std.TreeSet.mem_insert.2 (Or.inr isDone)
    | merge _ _ _ _ _ _ done _ => exact done ▸ isDone
    | descend _ _ _ _ _ _ done _ => exact done ▸ isDone
  · rw [frames] at member
    rcases List.mem_cons.1 member with rfl | deeper
    · cases moves with
      | drop isDone _ done _ => exact Or.inl (done ▸ isDone)
      | complete _ _ _ _ done _ _ _ => exact Or.inl (done ▸ Std.TreeSet.mem_insert_self)
      | merge _ remaining _ _ _ _ _ frames =>
          exact Or.inr ⟨{ other with remaining }, frames ▸ List.mem_cons_self .., rfl⟩
      | descend _ _ _ _ _ _ _ frames =>
          exact Or.inr ⟨other, frames ▸ List.mem_cons_of_mem _ (List.mem_cons_self ..), rfl⟩
    · cases moves with
      | drop _ _ _ frames => exact Or.inr ⟨other, frames ▸ deeper, rfl⟩
      | complete _ _ _ _ _ frames _ _ => exact Or.inr ⟨other, frames ▸ List.mem_append_right _ deeper, rfl⟩
      | merge _ _ _ _ _ _ _ frames => exact Or.inr ⟨other, frames ▸ List.mem_cons_of_mem _ deeper, rfl⟩
      | descend _ _ _ _ _ _ _ frames =>
          exact Or.inr ⟨other, frames ▸ List.mem_cons_of_mem _ (List.mem_cons_of_mem _ deeper), rfl⟩

structure Idle (plan : Plan) (edge : NodeId → NodeId → Prop) (ahead : NodeId → IdSet) (state : State) : Prop where
  invariant : ∃ value, Invariant plan edge ahead value state
  no_frames : state.frames = []

theorem Idle.done_of_covers (idle : Idle plan edge ahead state) {id : NodeId} (covers : state.Covers id) :
    id ∈ state.done := by
  rcases covers with isDone | ⟨frame, member, -⟩
  · exact isDone
  · rw [idle.no_frames] at member
    exact absurd member List.not_mem_nil

theorem run_yields (sound : plan.Sound known edge ahead behind) {budget : Nat}
    (invariant : Invariant plan edge ahead value state) (enough : state.potential plan edge ahead behind ≤ budget) :
    (run plan budget state).Yields fun final =>
      Ends plan state final ∧ Idle plan edge ahead final ∧ ∀ id, state.Covers id → id ∈ final.done := by
  -- The potential falls with every step and starts within the budget, so frames cannot outlast the budget.
  induction budget generalizing state value with
  | zero =>
      have no_frames : state.frames = [] := by
        unfold potential at enough
        exact List.eq_nil_of_length_eq_zero (by omega)
      have idle : Idle plan edge ahead state := ⟨⟨value, invariant⟩, no_frames⟩
      exact .pure ⟨.empty state no_frames, idle, fun id => idle.done_of_covers⟩
  | succ budget ih =>
      rw [run]
      cases frames : state.frames with
      | nil =>
          have idle : Idle plan edge ahead state := ⟨⟨value, invariant⟩, frames⟩
          exact .pure ⟨.empty state frames, idle, fun id => idle.done_of_covers⟩
      | cons frame below =>
          obtain ⟨next, ran, moves⟩ := invariant.moves sound frames
          obtain ⟨_, kept⟩ := invariant.step sound frames moves
          have less := invariant.potential_lt sound frames moves
          have counted : Invariant plan edge ahead _ { next with steps := state.steps + 1 } :=
            kept.reframe rfl rfl fun _ => Or.inl
          refine (Polled.Yields.tick state.steps).bind fun _ _ => ?_
          refine (Polled.Yields.lift ran rfl).bind fun reached same => ?_
          obtain rfl := same
          refine (ih counted (Nat.le_of_lt_succ (less.trans_le enough))).mono ?_
          rintro final ⟨ends, idle, covered⟩
          exact ⟨.step state _ final frame below frames ran ends, idle,
            fun id covers => covered id (moves.covers frames covers)⟩

theorem Idle.potential_push_le (idle : Idle plan edge ahead state) (sound : plan.Sound known edge ahead behind)
    {id : NodeId} (head : plan.Represents id id) (notDone : id ∉ state.done) {pushed : State}
    (push : state.push plan id = .ok pushed) :
    (∃ value, Invariant plan edge ahead value pushed) ∧ pushed.potential plan edge ahead behind ≤ plan.budget := by
  rw [push_ok sound head] at push
  obtain rfl := Except.ok.inj push
  obtain ⟨value, invariant⟩ := idle.invariant
  refine ⟨⟨value, invariant.reframe rfl rfl fun frame member => ?_⟩, ?_⟩
  · rcases List.mem_cons.1 member with rfl | old
    · exact Or.inr ⟨head, rfl⟩
    · exact Or.inl old
  · have partition := sound.divides.partition
    have undone_le : state.undone plan ≤ plan.components.size := by
      have most : state.undone plan ≤ (plan.components.toList.map fun _ => 1).sum := by
        refine sum_map_le fun part _ => ?_
        split
        · exact Nat.zero_le 1
        · exact Nat.le_refl 1
      simpa [Components.size] using most
    have deep := sound.depth_le_total head
    have weight := Nat.mul_le_mul_left (plan.total ahead + plan.edges behind) undone_le
    rw [Plan.budget, Plan.edgeCount_eq sound.ahead_table partition, Plan.edgeCount_eq sound.behind_table partition]
    simp only [potential, undone, top, idle.no_frames, notDone, if_false, List.length_cons, List.length_nil] at weight ⊢
    rw [Plan.total_eq] at weight deep ⊢
    rw [Nat.mul_comm (plan.components.size + 1), Nat.mul_add _ plan.components.size 1]
    have size : (ahead id).toList.length = (ahead id).size := rfl
    have spread : (plan.edges ahead + plan.edges behind + 2 * plan.components.size + 2) * plan.components.size =
        (plan.edges ahead + 2 * plan.components.size + plan.edges behind) * plan.components.size +
          2 * plan.components.size := by
      rw [← Nat.add_mul]
      congr 1
      omega
    omega

theorem visit_yields (sound : plan.Sound known edge ahead behind) (idle : Idle plan edge ahead state) {start : State}
    {ids : List NodeId} (passes : Passes plan start ids state) {id : NodeId} (present : known id) :
    (visit plan state id).Yields fun final =>
      Passes plan start (ids ++ [id]) final ∧ Idle plan edge ahead final ∧ plan.representative id ∈ final.done ∧
        ∀ other ∈ state.done, other ∈ final.done := by
  have head := sound.self (sound.represents present)
  unfold visit
  by_cases isDone : plan.representative id ∈ state.done
  · simp only [if_pos isDone]
    exact .pure ⟨.skip ids id state passes isDone, idle, isDone, fun other before => before⟩
  · simp only [if_neg isDone]
    refine (Polled.Yields.lift (push_ok sound head) rfl).bind fun pushed same => ?_
    subst same
    have push : state.push plan (plan.representative id) = .ok _ := push_ok sound head
    obtain ⟨⟨value, invariant⟩, enough⟩ := idle.potential_push_le sound head isDone push
    refine (run_yields sound invariant enough).mono ?_
    rintro final ⟨ends, ended, covered⟩
    refine ⟨.visit ids id state _ final passes isDone push ends, ended, ?_, fun other before => ?_⟩
    · exact covered _ (Or.inr ⟨_, List.mem_cons_self .., rfl⟩)
    · exact covered other (Or.inl before)

end State

variable {plan : Plan} {known : NodeId → Prop} {edge : NodeId → NodeId → Prop} {ahead behind : NodeId → IdSet}

theorem seed_idle (sound : plan.Sound known edge ahead behind) :
    State.Idle plan edge ahead { closures := plan.seed } := by
  refine ⟨⟨_, ⟨sound.seed_tabulates, nofun, ?_, nofun, ?_, ?_, ?_, nofun⟩⟩, rfl⟩
  · exact fun id isDone => absurd isDone Std.TreeSet.not_mem_emptyc
  · intro representative id inside
    rw [IdSet.mem_ofList, sound.mem_members (sound.self inside)]
    exact inside
  · intro representative head id member
    rw [IdSet.mem_ofList, sound.mem_members head] at member
    exact sound.path_out member
  · exact fun id isDone => absurd isDone Std.TreeSet.not_mem_emptyc

theorem closures_yield (sound : plan.Sound known edge ahead behind) {ids : List NodeId}
    (present : ∀ id ∈ ids, known id) :
    (closures plan ids).Yields fun table => ∃ final value,
      State.Passes plan { closures := plan.seed } ids final ∧ table = final.closures ∧
        table.Tabulates plan.components.toList value ∧
        ∀ id ∈ ids, ∀ other, other ∈ value (plan.representative id) ↔ ReflTransGen edge id other := by
  have passes := Polled.Yields.foldlM (fun seen state => State.Passes plan { closures := plan.seed } seen state ∧
      State.Idle plan edge ahead state ∧ ∀ id ∈ seen, plan.representative id ∈ state.done)
    ⟨.start, seed_idle sound, nofun⟩ fun seen id state member ⟨before, idle, done⟩ => by
      refine (State.visit_yields sound idle before (present id member)).mono ?_
      rintro final ⟨after, ended, isDone, more⟩
      refine ⟨after, ended, fun other listed => ?_⟩
      rcases List.mem_append.1 listed with earlier | last
      · exact more _ (done other earlier)
      · exact List.mem_singleton.1 last ▸ isDone
  refine passes.bind fun final ⟨after, idle, done⟩ => .pure ?_
  obtain ⟨value, invariant⟩ := idle.invariant
  refine ⟨final, value, after, rfl, invariant.tabulated, fun id listed other => ?_⟩
  have represents := sound.represents (present id listed)
  constructor
  · intro member
    exact (sound.path_home represents).trans (invariant.reached _ (sound.self represents) other member)
  · intro path
    exact invariant.complete _ (done id listed) other ((sound.path_out represents).trans path)

end SupplyGraph.ClosurePass
