import SupplyGraph.Proofs.Outcome
import Mathlib.Data.List.Induction
import Mathlib.Logic.Relation

/-!
Work that is shared out to the threads of a pool. A thread takes up any waiting task while fewer tasks than threads are
running, and tasks end in any order. The results are collected in the order of the tasks; once a task has failed, any
failure so far may be reported, and tasks that still wait are given up.
-/

namespace SupplyGraph.Query.Pool

open Relation (ReflTransGen)

variable {α β ε : Type}

inductive Task (ε β : Type)
  | waiting
  | running
  | finished (outcome : Except ε β)

def Task.isRunning : Task ε β → Bool
  | running => true
  | _ => false

section

variable (threads : Nat) (work : α → Except ε β) (items : List α)

inductive Step (tasks : List (Task ε β)) : List (Task ε β) → Prop
  | begin (index : Nat) (waiting : tasks[index]? = some .waiting) (free : tasks.countP Task.isRunning < threads) :
      Step tasks (tasks.set index .running)
  | finish (index : Nat) (item : α) (running : tasks[index]? = some .running) (here : items[index]? = some item) :
      Step tasks (tasks.set index (.finished (work item)))

inductive Collects : List (Task ε β) → Except ε (List β) → Prop
  | all (values : List β) : Collects (values.map fun value => .finished (.ok value)) (.ok values)
  | failed (tasks : List (Task ε β)) (failure : ε) (quiet : tasks.countP Task.isRunning = 0)
      (member : .finished (.error failure) ∈ tasks) : Collects tasks (.error failure)

/-- What a run of the pool may give. -/
def Gives (result : Except ε (List β)) : Prop :=
  ∃ tasks, ReflTransGen (Step threads work items) (items.map fun _ => .waiting) tasks ∧ Collects tasks result

end

variable {threads : Nat} {work : α → Except ε β} {items : List α} {tasks next : List (Task ε β)}

structure Sound (work : α → Except ε β) (items : List α) (tasks : List (Task ε β)) : Prop where
  length : tasks.length = items.length
  finished : ∀ (index : Nat) outcome, tasks[index]? = some (.finished outcome) →
    ∃ item, items[index]? = some item ∧ work item = outcome

theorem sound_start : Sound work items (items.map fun _ => .waiting) where
  length := List.length_map _
  finished index outcome found := by
    rw [List.getElem?_map] at found
    cases here : items[index]? <;> simp [here] at found

theorem Sound.step (sound : Sound work items tasks) (step : Step threads work items tasks next) :
    Sound work items next := by
  cases step with
  | begin index waiting free =>
      refine ⟨(List.length_set ..).trans sound.length, fun other outcome found => ?_⟩
      rw [List.getElem?_set] at found
      split at found
      · split at found <;> cases found
      · exact sound.finished other outcome found
  | finish index item running here =>
      refine ⟨(List.length_set ..).trans sound.length, fun other outcome found => ?_⟩
      rw [List.getElem?_set] at found
      split at found
      · rename_i same
        split at found
        · cases found
          exact ⟨item, same ▸ here, rfl⟩
        · cases found
      · exact sound.finished other outcome found

theorem sound_of_run (run : ReflTransGen (Step threads work items) (items.map fun _ => .waiting) tasks) :
    Sound work items tasks := by
  induction run with
  | refl => exact sound_start
  | tail _ step ih => exact ih.step step

theorem mapM_of_gives (alike : ∀ item ∈ items, ∀ other ∈ items, ∀ failure otherFailure,
      work item = .error failure → work other = .error otherFailure → failure = otherFailure)
    {result : Except ε (List β)} (gives : Gives threads work items result) : items.mapM work = result := by
  obtain ⟨tasks, run, collects⟩ := gives
  have sound := sound_of_run run
  cases collects with
  | all values =>
      have length := (List.length_map _).symm.trans sound.length
      refine mapM_eq_ok_iff.2 (List.forall₂_iff_get.2 ⟨length.symm, fun index inside insideToo => ?_⟩)
      obtain ⟨item, here, ended⟩ := sound.finished index (.ok values[index]) (by simp)
      rw [List.getElem?_eq_getElem inside] at here
      obtain rfl := Option.some.inj here
      exact ended
  | failed tasks failure quiet member =>
      obtain ⟨index, inside, found⟩ := List.mem_iff_getElem.1 member
      obtain ⟨item, here, ended⟩ := sound.finished index (.error failure) (by rw [List.getElem?_eq_getElem inside, found])
      have listed := List.mem_of_getElem? here
      cases ran : items.mapM work with
      | ok values =>
          obtain ⟨sameLength, each⟩ := List.forall₂_iff_get.1 (mapM_eq_ok_iff.1 ran)
          obtain ⟨bound, rfl⟩ := List.getElem?_eq_some_iff.1 here
          cases ended.symm.trans (each index bound (sameLength ▸ bound))
      | error first =>
          obtain ⟨before, _, other, after, rfl, -, failed⟩ := split_of_mapM_error ran
          have otherListed : other ∈ before ++ other :: after := List.mem_append_right before List.mem_cons_self
          rw [alike item listed other otherListed failure first ended failed]

theorem run_next (positive : 0 < threads) (item : α) {done rest : List (Task ε β)}
    (here : items[done.length]? = some item) (quiet : (done ++ rest).countP Task.isRunning = 0) :
    ReflTransGen (Step threads work items) (done ++ .waiting :: rest) (done ++ .finished (work item) :: rest) := by
  have free : (done ++ .waiting :: rest).countP Task.isRunning < threads := by
    rw [List.countP_append, List.countP_cons_of_neg (by simp [Task.isRunning]), ← List.countP_append, quiet]
    exact positive
  have begun : Step threads work items (done ++ .waiting :: rest) _ := .begin done.length (by simp) free
  have ended : Step threads work items (done ++ .running :: rest) _ := .finish done.length item (by simp) here
  simp only [List.set_append_right _ _ (Nat.le_refl _), Nat.sub_self, List.set_cons_zero] at begun ended
  exact .tail (.single begun) ended

theorem countP_finished (values : List β) (waiting : List α) :
    ((values.map fun value => .finished (.ok value)) ++ (waiting.map fun _ => .waiting) : List (Task ε β)).countP
      Task.isRunning = 0 := by
  rw [List.countP_eq_zero]
  intro task member
  rcases List.mem_append.1 member with done | later
  · obtain ⟨value, -, rfl⟩ := List.mem_map.1 done
    exact Bool.false_ne_true
  · obtain ⟨item, -, rfl⟩ := List.mem_map.1 later
    exact Bool.false_ne_true

theorem run_before (positive : 0 < threads) {before : List α} {values : List β} (ran : before.mapM work = .ok values)
    (rest : List α) : ReflTransGen (Step threads work (before ++ rest)) ((before ++ rest).map fun _ => .waiting)
      ((values.map fun value => .finished (.ok value)) ++ rest.map fun _ => .waiting) := by
  induction before using List.reverseRecOn generalizing values rest with
  | nil =>
      obtain rfl := Except.ok.inj ran
      exact .refl
  | append_singleton before item ih =>
      rw [List.mapM_append] at ran
      obtain ⟨earlier, first, ran⟩ := bind_eq_ok.1 ran
      obtain ⟨last, second, ran⟩ := bind_eq_ok.1 ran
      obtain rfl := Except.ok.inj ran
      obtain ⟨value, _, found, none, rfl⟩ := List.forall₂_cons_left_iff.1 (mapM_eq_ok_iff.1 second)
      obtain rfl := List.forall₂_nil_left_iff.1 none
      have length : earlier.length = before.length := (mapM_eq_ok_iff.1 first).length_eq.symm
      have next : ReflTransGen (Step threads work (before ++ item :: rest)) _ _ :=
        run_next positive item (by simp [length]) (countP_finished earlier rest)
      have run := (ih first (item :: rest)).trans next
      rw [found] at run
      simpa using run

theorem gives_of_mapM (positive : 0 < threads) {result : Except ε (List β)} (ran : items.mapM work = result) :
    Gives threads work items result := by
  cases result with
  | ok values =>
      have run := run_before positive ran []
      simp only [List.append_nil, List.map_nil] at run
      exact ⟨_, run, .all values⟩
  | error failure =>
      obtain ⟨before, values, item, after, rfl, earlier, failed⟩ := split_of_mapM_error ran
      have length : values.length = before.length := (mapM_eq_ok_iff.1 earlier).length_eq.symm
      have next : ReflTransGen (Step threads work (before ++ item :: after)) _ _ :=
        run_next positive item (by simp [length]) (countP_finished values after)
      rw [failed] at next
      refine ⟨_, (run_before positive earlier (item :: after)).trans next, .failed _ failure ?_ ?_⟩
      · rw [List.countP_append, List.countP_cons_of_neg (by simp [Task.isRunning]), ← List.countP_append]
        exact countP_finished values after
      · exact List.mem_append_right _ List.mem_cons_self

theorem gives_iff (positive : 0 < threads) (alike : ∀ item ∈ items, ∀ other ∈ items, ∀ failure otherFailure,
      work item = .error failure → work other = .error otherFailure → failure = otherFailure)
    {result : Except ε (List β)} : Gives threads work items result ↔ items.mapM work = result :=
  ⟨mapM_of_gives alike, gives_of_mapM positive⟩

end SupplyGraph.Query.Pool
