import SupplyGraph.Cancellation
import Mathlib.Tactic.Common

/-!
Total statements about computations that poll. Whatever the cancellation, such a computation gives a value or
is cancelled; without a cancellation it gives a value. And a computation that begins cancelled stays so, hence it
fails if it polls at all.
-/

namespace SupplyGraph.Polled

variable {α β : Type}

theorem bind_apply (computation : Polled α) (next : α → Polled β) (cancellation : Cancellation) :
    (computation >>= next) cancellation = (computation cancellation).bind fun (value, rest) => next value rest := rfl

theorem run'_lift_bind (outcome : Outcome α) (next : α → Polled β) (cancellation : Cancellation) :
    (liftM outcome >>= next : Polled β).run' cancellation = (do (next (← outcome)).run' cancellation) := by
  cases outcome <;> rfl

theorem mapM_never {transform : α → Polled β} {read : α → Outcome β}
    (each : ∀ item, transform item .never = (read item).map (·, .never)) (items : List α) :
    items.mapM transform .never = (items.mapM read).map (·, .never) := by
  induction items with
  | nil => rfl
  | cons item items ih =>
      rw [List.mapM_cons, List.mapM_cons, bind_apply, each]
      cases read item with
      | error failure => rfl
      | ok value =>
          change (items.mapM transform >>= fun rest => pure (value :: rest) : Polled (List β)) .never = _
          rw [bind_apply, ih]
          cases items.mapM read <;> rfl

/-- Every value that the computation can give satisfies `post`, and being cancelled is its only failure. -/
def Yields (computation : Polled α) (post : α → Prop) : Prop :=
  ∀ cancellation,
    (∃ value rest, computation cancellation = .ok (value, rest) ∧ post value ∧ (cancellation = .never → rest = .never)) ∨
    (computation cancellation = .error .cancelled ∧ cancellation ≠ .never)

namespace Yields

variable {post : α → Prop} {later : β → Prop}

theorem pure {value : α} (holds : post value) : Yields (pure value) post :=
  fun cancellation => Or.inl ⟨value, cancellation, rfl, holds, id⟩

theorem lift {outcome : Outcome α} {value : α} (found : outcome = .ok value) (holds : post value) :
    Yields (liftM outcome) post := by
  subst found
  exact pure holds

theorem poll : Yields Polled.poll (fun _ => True) := by
  intro cancellation
  cases cancellation with
  | never => exact Or.inl ⟨(), .never, rfl, trivial, id⟩
  | after polls =>
      cases polls with
      | zero => exact Or.inr ⟨rfl, nofun⟩
      | succ polls => exact Or.inl ⟨(), .after polls, rfl, trivial, nofun⟩

theorem tick (steps : Nat) : Yields (Polled.tick steps) (fun _ => True) := by
  unfold Polled.tick
  split
  · exact poll
  · exact pure trivial

theorem mono {computation : Polled α} {weaker : α → Prop} (yields : computation.Yields post)
    (implies : ∀ value, post value → weaker value) : computation.Yields weaker := by
  intro cancellation
  rcases yields cancellation with ⟨value, rest, run, holds, never⟩ | cancelled
  · exact Or.inl ⟨value, rest, run, implies value holds, never⟩
  · exact Or.inr cancelled

theorem and {computation : Polled α} {other : α → Prop} (yields : computation.Yields post)
    (also : computation.Yields other) : computation.Yields fun value => post value ∧ other value := by
  intro cancellation
  rcases yields cancellation with ⟨value, rest, run, holds, never⟩ | cancelled
  · rcases also cancellation with ⟨_, _, again, otherHolds, -⟩ | ⟨failed, -⟩
    · obtain ⟨rfl, rfl⟩ := Prod.mk.inj (Except.ok.inj (run.symm.trans again))
      exact Or.inl ⟨value, rest, run, ⟨holds, otherHolds⟩, never⟩
    · cases run.symm.trans failed
  · exact Or.inr cancelled

theorem bind {computation : Polled α} {next : α → Polled β} (yields : computation.Yields post)
    (continues : ∀ value, post value → (next value).Yields later) : (computation >>= next).Yields later := by
  intro cancellation
  rw [bind_apply]
  rcases yields cancellation with ⟨value, rest, run, holds, never⟩ | ⟨run, cancelled⟩
  · rw [run]
    rcases continues value holds rest with ⟨result, last, ran, held, still⟩ | ⟨ran, late⟩
    · exact Or.inl ⟨result, last, ran, held, fun start => still (never start)⟩
    · exact Or.inr ⟨ran, fun start => late (never start)⟩
  · rw [run]
    exact Or.inr ⟨rfl, cancelled⟩

theorem foldlM_append {step : β → α → Polled β} (invariant : List α → β → Prop) {seen rest : List α} {state : β}
    (start : invariant seen state) (advance : ∀ seen item state, item ∈ rest → invariant seen state →
      (step state item).Yields (invariant (seen ++ [item]))) :
    (rest.foldlM step state).Yields (invariant (seen ++ rest)) := by
  induction rest generalizing seen state with
  | nil => simpa using pure start
  | cons item rest ih =>
      rw [List.foldlM_cons]
      refine (advance seen item state (List.mem_cons_self ..) start).bind fun next kept => ?_
      have remaining := ih kept fun seen other state member =>
        advance seen other state (List.mem_cons_of_mem _ member)
      rwa [List.append_assoc] at remaining

theorem foldlM {step : β → α → Polled β} (invariant : List α → β → Prop) {items : List α} {state : β}
    (start : invariant [] state) (advance : ∀ seen item state, item ∈ items → invariant seen state →
      (step state item).Yields (invariant (seen ++ [item]))) :
    (items.foldlM step state).Yields (invariant items) :=
  foldlM_append invariant start advance

theorem mapM {transform : α → Polled β} {result : α → β} {items : List α}
    (each : ∀ item ∈ items, (transform item).Yields (· = result item)) :
    (items.mapM transform).Yields (· = items.map result) := by
  induction items with
  | nil => exact pure rfl
  | cons item items ih =>
      rw [List.mapM_cons]
      refine (each item (List.mem_cons_self ..)).bind fun first isFirst => ?_
      refine (ih fun other member => each other (List.mem_cons_of_mem _ member)).bind fun rest isRest => ?_
      exact pure (by rw [isFirst, isRest, List.map_cons])

theorem never {computation : Polled α} (yields : computation.Yields post) :
    ∃ value, computation .never = .ok (value, .never) ∧ post value := by
  rcases yields .never with ⟨value, rest, run, holds, still⟩ | ⟨_, impossible⟩
  · obtain rfl := still rfl
    exact ⟨value, run, holds⟩
  · exact absurd rfl impossible

end Yields

def Ensures (computation : Polled α) (post : α → Prop) : Prop :=
  ∀ cancellation value rest, computation cancellation = .ok (value, rest) → post value

theorem Yields.ensures {computation : Polled α} {post : α → Prop} (yields : computation.Yields post) :
    computation.Ensures post := by
  intro cancellation value rest run
  rcases yields cancellation with ⟨result, last, ran, holds, -⟩ | ⟨failed, -⟩
  · rw [run] at ran
    cases ran
    exact holds
  · rw [run] at failed
    cases failed

namespace Ensures

variable {computation : Polled α} {post : α → Prop} {later : β → Prop}

theorem trivial : computation.Ensures fun _ => True := fun _ _ _ _ => True.intro

theorem pure {value : α} (holds : post value) : Ensures (pure value) post := (Yields.pure holds).ensures

theorem bind {next : α → Polled β} (ensures : computation.Ensures post)
    (continues : ∀ value, post value → (next value).Ensures later) : (computation >>= next).Ensures later := by
  intro cancellation result last run
  rw [bind_apply] at run
  cases first : computation cancellation with
  | error failure =>
      rw [first] at run
      cases run
  | ok entry =>
      rw [first] at run
      exact continues entry.1 (ensures cancellation entry.1 entry.2 first) entry.2 result last run

theorem mapM {transform : α → Polled β} (each : ∀ item, (transform item).Ensures later) (items : List α) :
    (items.mapM transform).Ensures fun results => ∀ result ∈ results, later result := by
  induction items with
  | nil => exact pure (List.forall_mem_nil _)
  | cons item items ih =>
      rw [List.mapM_cons]
      exact (each item).bind fun first holds => ih.bind fun rest all => pure (List.forall_mem_cons.2 ⟨holds, all⟩)

theorem of_run' (ensures : computation.Ensures post) {cancellation : Cancellation} {value : α}
    (ran : computation.run' cancellation = .ok value) : post value := by
  change Except.map (·.1) (computation cancellation) = _ at ran
  cases run : computation cancellation with
  | error failure =>
      rw [run] at ran
      cases ran
  | ok entry =>
      rw [run] at ran
      exact Except.ok.inj ran ▸ ensures cancellation entry.1 entry.2 run

end Ensures

def Persists (computation : Polled α) : Prop :=
  ∀ value rest, computation .already = .ok (value, rest) → rest = .already

namespace Persists

theorem pure (value : α) : Persists (pure value) := by
  intro _ rest run
  exact (Prod.mk.inj (Except.ok.inj run)).2.symm

theorem lift (outcome : Outcome α) : Persists (liftM outcome) := by
  cases outcome with
  | ok value => exact pure value
  | error failure => exact fun _ _ run => nomatch run

theorem poll : Persists Polled.poll := fun _ _ run => nomatch run

theorem tick (steps : Nat) : Persists (Polled.tick steps) := by
  unfold Polled.tick
  split
  · exact poll
  · exact pure ()

theorem bind {computation : Polled α} {next : α → Polled β} (persists : computation.Persists)
    (continues : ∀ value, (next value).Persists) : (computation >>= next).Persists := by
  intro result last run
  rw [bind_apply] at run
  cases first : computation .already with
  | error failure =>
      rw [first] at run
      cases run
  | ok entry =>
      obtain ⟨value, rest⟩ := entry
      obtain rfl := persists value rest first
      rw [first] at run
      exact continues value result last run

theorem foldlM {step : β → α → Polled β} (each : ∀ state item, (step state item).Persists) (items : List α)
    (state : β) : (items.foldlM step state).Persists := by
  induction items generalizing state with
  | nil => exact pure state
  | cons item items ih =>
      rw [List.foldlM_cons]
      exact (each state item).bind ih

end Persists

def FailsCancelled (computation : Polled α) : Prop := ∃ failure, computation .already = .error failure

theorem FailsCancelled.poll (next : Unit → Polled β) : FailsCancelled (Polled.poll >>= next) := ⟨.cancelled, rfl⟩

theorem FailsCancelled.bind {computation : Polled α} (fails : computation.FailsCancelled) (next : α → Polled β) :
    FailsCancelled (computation >>= next) := by
  obtain ⟨failure, failed⟩ := fails
  exact ⟨failure, by rw [bind_apply, failed]; rfl⟩

theorem Persists.bind_fails {computation : Polled α} {next : α → Polled β} (persists : computation.Persists)
    (continues : ∀ value, (next value).FailsCancelled) : FailsCancelled (computation >>= next) := by
  cases first : computation .already with
  | error failure => exact FailsCancelled.bind ⟨failure, first⟩ next
  | ok entry =>
      obtain ⟨value, rest⟩ := entry
      obtain rfl := persists value rest first
      obtain ⟨failure, failed⟩ := continues value
      exact ⟨failure, by rw [bind_apply, first]; exact failed⟩

end SupplyGraph.Polled
