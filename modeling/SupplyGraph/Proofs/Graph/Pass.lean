import SupplyGraph.Proofs.Graph.Condensation

/-!
One step of a pass. The closure of a component that is done holds everything that the component leads to; the
closure of any other one holds only such ids. Every step brings the pass nearer to its end, because a plan has no
cycle ahead.
-/

namespace SupplyGraph.ClosurePass
open Relation

def Plan.Fresh (plan : Plan) (ahead : NodeId → IdSet) (frame : Frame) : Prop :=
  plan.Represents frame.id frame.id ∧ frame.remaining = (ahead frame.id).toList

namespace State

/-- What a pass keeps between its steps, when `value` is what the closures of the representatives hold. -/
structure Invariant (plan : Plan) (edge : NodeId → NodeId → Prop) (ahead value : NodeId → IdSet) (state : State) :
    Prop where
  tabulated : state.closures.Tabulates plan.components.toList value
  head_of_frame : ∀ frame ∈ state.frames, plan.Represents frame.id frame.id
  head_of_done : ∀ id ∈ state.done, plan.Represents id id
  remaining : ∀ frame ∈ state.frames, frame.remaining <:+ (ahead frame.id).toList
  own : ∀ representative id, plan.Represents representative id → id ∈ value representative
  reached : ∀ representative, plan.Represents representative representative → ∀ id ∈ value representative,
    ReflTransGen edge representative id
  complete : ∀ representative ∈ state.done, ∀ id, ReflTransGen edge representative id → id ∈ value representative
  merged : ∀ frame ∈ state.frames, frame.id ∉ state.done → ∀ id ∈ ahead frame.id, id ∉ frame.remaining →
    plan.representative id ∈ state.done ∧ ∀ other ∈ value (plan.representative id), other ∈ value frame.id

inductive Moves (plan : Plan) (ahead behind value : NodeId → IdSet) (frame : Frame)
    (below : List Frame) (state next : State) : Prop
  | drop (isDone : frame.id ∈ state.done) (closures : next.closures = state.closures) (done : next.done = state.done)
      (frames : next.frames = below)
  | complete (pushed : List Frame) (notDone : frame.id ∉ state.done) (nothing : frame.remaining = [])
      (closures : next.closures = state.closures) (done : next.done = state.done.insert frame.id)
      (frames : next.frames = pushed ++ below) (few : pushed.length ≤ (behind frame.id).size)
      (fresh : ∀ frame ∈ pushed, plan.Fresh ahead frame)
  | merge (id : NodeId) (remaining : List NodeId) (notDone : frame.id ∉ state.done)
      (first : frame.remaining = id :: remaining) (isDone : plan.representative id ∈ state.done)
      (closures : next.closures.Tabulates plan.components.toList
        (Function.update value frame.id ((value frame.id ∪ value (plan.representative id)).insert id)))
      (done : next.done = state.done) (frames : next.frames = { frame with remaining } :: below)
  | descend (id : NodeId) (remaining : List NodeId) (notDone : frame.id ∉ state.done)
      (first : frame.remaining = id :: remaining) (later : plan.representative id ∉ state.done)
      (closures : next.closures = state.closures) (done : next.done = state.done)
      (frames : next.frames = ⟨plan.representative id, (ahead (plan.representative id)).toList⟩ :: frame :: below)

variable {plan : Plan} {known : NodeId → Prop} {edge : NodeId → NodeId → Prop} {ahead behind value : NodeId → IdSet}
variable {state next : State} {frame : Frame} {below : List Frame}

theorem push_ok (sound : plan.Sound known edge ahead behind) {id : NodeId} (head : plan.Represents id id) :
    state.push plan id = .ok { state with
      waiting := state.waiting.insert id
      frames := ⟨id, (ahead id).toList⟩ :: state.frames } := by
  rw [push, sound.get sound.ahead_table head]
  rfl

theorem pushes_ok (sound : plan.Sound known edge ahead behind) {ids : List NodeId}
    (represents : ∀ id ∈ ids, plan.Represents (plan.representative id) id) (state : State) :
    ∃ next pushed, ids.foldlM (fun (state : State) id =>
        if plan.representative id ∈ state.done ∨ plan.representative id ∈ state.waiting then pure state
        else state.push plan (plan.representative id)) state = .ok next ∧
      next.closures = state.closures ∧ next.done = state.done ∧ next.frames = pushed ++ state.frames ∧
      pushed.length ≤ ids.length ∧ ∀ frame ∈ pushed, plan.Fresh ahead frame := by
  induction ids generalizing state with
  | nil => exact ⟨state, [], rfl, rfl, rfl, rfl, Nat.le_refl 0, nofun⟩
  | cons id ids ih =>
      have others : ∀ other ∈ ids, plan.Represents (plan.representative other) other :=
        fun other member => represents other (List.mem_cons_of_mem _ member)
      rw [List.foldlM_cons]
      split
      · obtain ⟨next, pushed, run, closures, done, frames, few, fresh⟩ := ih others state
        exact ⟨next, pushed, run, closures, done, frames, Nat.le_succ_of_le few, fresh⟩
      · have head := sound.self (represents id (List.mem_cons_self ..))
        rw [push_ok sound head]
        obtain ⟨next, pushed, run, closures, done, frames, few, fresh⟩ := ih others { state with
          waiting := state.waiting.insert (plan.representative id)
          frames := ⟨plan.representative id, (ahead (plan.representative id)).toList⟩ :: state.frames }
        refine ⟨next, pushed ++ [⟨plan.representative id, (ahead (plan.representative id)).toList⟩], run, closures,
          done, ?_, ?_, ?_⟩
        · rw [frames, List.append_assoc]
          rfl
        · simpa using few
        · intro frame member
          rcases List.mem_append.1 member with earlier | last
          · exact fresh frame earlier
          · rw [List.mem_singleton.1 last]
            exact ⟨head, rfl⟩

theorem Invariant.moves (invariant : Invariant plan edge ahead value state)
    (sound : plan.Sound known edge ahead behind) (frames : state.frames = frame :: below) :
    ∃ next, state.step plan frame below = .ok next ∧ Moves plan ahead behind value frame below state next := by
  have inner : frame ∈ state.frames := frames ▸ List.mem_cons_self ..
  have head := invariant.head_of_frame frame inner
  by_cases isDone : frame.id ∈ state.done
  · exact ⟨state.pop frame below, if_pos isDone, .drop isDone rfl rfl rfl⟩
  rw [step, if_neg isDone]
  cases first : frame.remaining with
  | nil =>
      obtain ⟨next, pushed, run, closures, done, pushes, few, fresh⟩ := pushes_ok sound
        (fun id isBehind => sound.behind_represents head isBehind)
        { state.pop frame below with done := state.done.insert frame.id }
      refine ⟨next, ?_, .complete pushed isDone first closures done pushes few fresh⟩
      rw [State.complete, sound.get sound.behind_table head]
      exact run
  | cons id remaining =>
      have isAhead : id ∈ ahead frame.id :=
        (invariant.remaining frame inner).subset (first ▸ List.mem_cons_self ..)
      obtain ⟨represents, different, -, -⟩ := sound.ahead_leads head isAhead
      simp only [if_neg different]
      by_cases later : plan.representative id ∈ state.done
      · obtain ⟨merged, union, between⟩ := sound.unionInto invariant.tabulated head (sound.self represents) different.symm
        obtain ⟨closures, modified, after⟩ := sound.modify between head (·.insert id)
        rw [Function.update_self, Function.update_idem] at after
        have ran : merge frame.id (plan.representative id) id state.closures = (.ok (), closures) :=
          (Update.bind_ok union).trans modified
        refine ⟨{ state with closures, frames := { frame with remaining } :: below }, ?_,
          .merge id remaining isDone first later after rfl rfl⟩
        rw [if_pos later, ran]
        rfl
      · rw [if_neg later, push_ok sound (sound.self represents), frames]
        exact ⟨_, rfl, .descend id remaining isDone first later rfl rfl rfl⟩

theorem Invariant.reframe (invariant : Invariant plan edge ahead value state)
    (closures : next.closures = state.closures) (done : next.done = state.done)
    (frames : ∀ frame ∈ next.frames, frame ∈ state.frames ∨ plan.Fresh ahead frame) :
    Invariant plan edge ahead value next := by
  constructor
  case tabulated => exact closures ▸ invariant.tabulated
  case head_of_frame =>
    intro frame member
    rcases frames frame member with old | fresh
    · exact invariant.head_of_frame frame old
    · exact fresh.1
  case head_of_done => exact done ▸ invariant.head_of_done
  case remaining =>
    intro frame member
    rcases frames frame member with old | fresh
    · exact invariant.remaining frame old
    · exact fresh.2 ▸ List.suffix_refl _
  case own => exact invariant.own
  case reached => exact invariant.reached
  case complete => exact done ▸ invariant.complete
  case merged =>
    intro frame member notDone id isAhead gone
    rcases frames frame member with old | fresh
    · rw [done] at notDone ⊢
      exact invariant.merged frame old notDone id isAhead gone
    · rw [fresh.2] at gone
      exact absurd isAhead gone

theorem Invariant.everything (invariant : Invariant plan edge ahead value state)
    (sound : plan.Sound known edge ahead behind) (inner : frame ∈ state.frames) (notDone : frame.id ∉ state.done)
    (nothing : frame.remaining = []) {start id : NodeId} (path : ReflTransGen edge start id)
    (inside : plan.Represents frame.id start) : id ∈ value frame.id := by
  induction path using ReflTransGen.head_induction_on with
  | refl => exact invariant.own frame.id id inside
  | head step path ih =>
      rename_i start following
      by_cases stays : plan.Represents frame.id following
      · exact ih stays
      · have head := invariant.head_of_frame frame inner
        have isAhead := (sound.mem_ahead_iff head).2 ⟨stays, start, inside, step⟩
        obtain ⟨isDone, included⟩ := invariant.merged frame inner notDone following isAhead (nothing ▸ List.not_mem_nil)
        have represents := sound.represents (sound.edge_known start following step).2
        exact included id (invariant.complete _ isDone id ((sound.path_out represents).trans path))

theorem Invariant.finish (invariant : Invariant plan edge ahead value state)
    (sound : plan.Sound known edge ahead behind) (frames : state.frames = frame :: below)
    (notDone : frame.id ∉ state.done) (nothing : frame.remaining = []) :
    Invariant plan edge ahead value { state with done := state.done.insert frame.id, frames := below } := by
  have inner : frame ∈ state.frames := frames ▸ List.mem_cons_self ..
  have head := invariant.head_of_frame frame inner
  have outer {other : Frame} (member : other ∈ below) : other ∈ state.frames := frames ▸ List.mem_cons_of_mem _ member
  have done_iff (id : NodeId) : id ∈ state.done.insert frame.id ↔ id = frame.id ∨ id ∈ state.done := by
    rw [Std.TreeSet.mem_insert, Std.compare_eq_iff_eq, eq_comm]
  constructor
  case tabulated => exact invariant.tabulated
  case head_of_frame => exact fun other member => invariant.head_of_frame other (outer member)
  case remaining => exact fun other member => invariant.remaining other (outer member)
  case own => exact invariant.own
  case reached => exact invariant.reached
  case head_of_done =>
    intro id isDone
    rcases (done_iff id).1 isDone with rfl | before
    · exact head
    · exact invariant.head_of_done id before
  case complete =>
    intro representative isDone id path
    rcases (done_iff representative).1 isDone with rfl | before
    · exact invariant.everything sound inner notDone nothing path head
    · exact invariant.complete representative before id path
  case merged =>
    intro other member later id isAhead gone
    have notYet : other.id ∉ state.done := fun before => later ((done_iff other.id).2 (Or.inr before))
    obtain ⟨isDone, included⟩ := invariant.merged other (outer member) notYet id isAhead gone
    exact ⟨(done_iff _).2 (Or.inr isDone), included⟩

theorem Invariant.merge (invariant : Invariant plan edge ahead value state)
    (sound : plan.Sound known edge ahead behind) (frames : state.frames = frame :: below)
    (notDone : frame.id ∉ state.done)
    {id : NodeId} {remaining : List NodeId} (first : frame.remaining = id :: remaining)
    (isDone : plan.representative id ∈ state.done) {merged : NodeId → IdSet}
    (update : merged = Function.update value frame.id ((value frame.id ∪ value (plan.representative id)).insert id))
    (closures : next.closures.Tabulates plan.components.toList merged) (done : next.done = state.done)
    (nextFrames : next.frames = { frame with remaining } :: below) :
    Invariant plan edge ahead merged next := by
  have inner : frame ∈ state.frames := frames ▸ List.mem_cons_self ..
  have head := invariant.head_of_frame frame inner
  have suffix := invariant.remaining frame inner
  have isAhead : id ∈ ahead frame.id := suffix.subset (first ▸ List.mem_cons_self ..)
  obtain ⟨represents, different, path, -⟩ := sound.ahead_leads head isAhead
  have outer {other : Frame} (member : other ∈ below) : other ∈ state.frames := frames ▸ List.mem_cons_of_mem _ member
  have here (other : NodeId) : other ∈ merged frame.id ↔
      other = id ∨ other ∈ value frame.id ∨ other ∈ value (plan.representative id) := by
    simp [update]
  have elsewhere {representative : NodeId} (apart : representative ≠ frame.id) :
      merged representative = value representative := by
    rw [update, Function.update_of_ne apart]
  have grown {representative other : NodeId} (member : other ∈ value representative) : other ∈ merged representative := by
    by_cases same : representative = frame.id
    · subst same
      exact (here other).2 (Or.inr (Or.inl member))
    · exact elsewhere same ▸ member
  have kept {representative : NodeId} (before : representative ∈ state.done) :
      merged representative = value representative :=
    elsewhere fun same => notDone (same ▸ before)
  constructor
  case tabulated => exact closures
  case head_of_frame =>
    intro other member
    rw [nextFrames] at member
    rcases List.mem_cons.1 member with rfl | deeper
    · exact head
    · exact invariant.head_of_frame other (outer deeper)
  case head_of_done => exact done ▸ invariant.head_of_done
  case remaining =>
    intro other member
    rw [nextFrames] at member
    rcases List.mem_cons.1 member with rfl | deeper
    · exact (List.suffix_cons id remaining).trans (first ▸ suffix)
    · exact invariant.remaining other (outer deeper)
  case own => exact fun representative other inside => grown (invariant.own representative other inside)
  case reached =>
    intro representative representativeHead other member
    by_cases same : representative = frame.id
    · subst same
      rcases (here other).1 member with rfl | old | new
      · exact path
      · exact invariant.reached _ representativeHead other old
      · have onwards := invariant.reached _ (sound.self represents) other new
        exact (path.trans (sound.path_home represents)).trans onwards
    · rw [elsewhere same] at member
      exact invariant.reached representative representativeHead other member
  case complete =>
    intro representative before other walk
    rw [done] at before
    exact grown (invariant.complete representative before other walk)
  case merged =>
    intro other member later target isAhead gone
    rw [done] at later ⊢
    rw [nextFrames] at member
    -- The innermost frame has merged `id` and what it had before; the frames below only see a larger closure.
    rcases List.mem_cons.1 member with rfl | deeper
    · by_cases new : target = id
      · subst new
        refine ⟨isDone, fun reached among => ?_⟩
        rw [kept isDone] at among
        exact (here reached).2 (Or.inr (Or.inr among))
      · have notBefore : target ∉ frame.remaining := by
          rw [first]
          exact fun among => (List.mem_cons.1 among).elim new gone
        obtain ⟨before, included⟩ := invariant.merged frame inner notDone target isAhead notBefore
        exact ⟨before, fun reached among => grown (included reached (kept before ▸ among))⟩
    · obtain ⟨before, included⟩ := invariant.merged other (outer deeper) later target isAhead gone
      exact ⟨before, fun reached among => grown (included reached (kept before ▸ among))⟩

theorem Invariant.step (invariant : Invariant plan edge ahead value state)
    (sound : plan.Sound known edge ahead behind) (frames : state.frames = frame :: below)
    (moves : Moves plan ahead behind value frame below state next) :
    ∃ value, Invariant plan edge ahead value next := by
  have outer {other : Frame} (member : other ∈ below) : other ∈ state.frames := frames ▸ List.mem_cons_of_mem _ member
  cases moves with
  | drop isDone closures done nextFrames =>
      exact ⟨value, invariant.reframe closures done fun other member => Or.inl (outer (nextFrames ▸ member))⟩
  | complete pushed notDone nothing closures done nextFrames few fresh =>
      refine ⟨value, (invariant.finish sound frames notDone nothing).reframe closures done fun other member => ?_⟩
      rw [nextFrames] at member
      exact (List.mem_append.1 member).elim (fun new => Or.inr (fresh other new)) Or.inl
  | merge id remaining notDone first isDone closures done nextFrames =>
      exact ⟨_, invariant.merge sound frames notDone first isDone rfl closures done nextFrames⟩
  | descend id remaining notDone first later closures done nextFrames =>
      refine ⟨value, invariant.reframe closures done fun other member => ?_⟩
      rw [nextFrames, ← frames] at member
      rcases List.mem_cons.1 member with rfl | old
      · have inner : frame ∈ state.frames := frames ▸ List.mem_cons_self ..
        have isAhead : id ∈ ahead frame.id :=
          (invariant.remaining frame inner).subset (first ▸ List.mem_cons_self ..)
        obtain ⟨represents, -⟩ := sound.ahead_leads (invariant.head_of_frame frame inner) isAhead
        exact Or.inr ⟨sound.self represents, rfl⟩
      · exact Or.inl old

end State

end SupplyGraph.ClosurePass
