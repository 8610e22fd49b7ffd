import SupplyGraph.Failure
import Mathlib.Tactic.Common

/-!
Running updates step by step.
-/

namespace SupplyGraph.Update

variable {σ α β : Type} {store after : σ}

theorem bind_ok {first : Update σ α} {next : α → Update σ β} {value : α} (ran : first store = (.ok value, after)) :
    (first >>= next) store = next value after := by
  simp only [bind, ExceptT.bind, ExceptT.mk, StateT.bind, ran]
  rfl

theorem bind_error {first : Update σ α} {next : α → Update σ β} {failure : Failure}
    (ran : first store = (.error failure, after)) : (first >>= next) store = (.error failure, after) := by
  simp only [bind, ExceptT.bind, ExceptT.mk, StateT.bind, ran]
  rfl

theorem bind_read (query : σ → Outcome α) {next : α → Update σ β} {value : α} (found : query store = .ok value) :
    (Update.read query >>= next) store = next value store := by
  exact bind_ok (congrArg (·, store) found)

theorem bind_read_error (query : σ → Outcome α) {next : α → Update σ β} {failure : Failure}
    (failed : query store = .error failure) : (Update.read query >>= next) store = (.error failure, store) := by
  exact bind_error (congrArg (·, store) failed)

theorem bind_congr {first second : Update σ α} {next : α → Update σ β} (same : first store = second store) :
    (first >>= next) store = (second >>= next) store := by
  simp only [bind, ExceptT.bind, ExceptT.mk, StateT.bind, same]

theorem bind_eq_error {first : Update σ α} {next : α → Update σ β} {failure : Failure} :
    (first >>= next) store = (.error failure, after) ↔
      first store = (.error failure, after) ∨
        ∃ value between, first store = (.ok value, between) ∧ next value between = (.error failure, after) := by
  rcases ran : first store with ⟨result, between⟩
  cases result with
  | ok value =>
      rw [bind_ok ran]
      constructor
      · exact fun failed => .inr ⟨value, between, rfl, failed⟩
      · rintro (failed | ⟨other, last, same, failed⟩)
        · cases failed
        · cases same
          exact failed
  | error reason =>
      rw [bind_error ran]
      constructor
      · intro failed
        cases failed
        exact .inl rfl
      · rintro (failed | ⟨value, last, same, -⟩)
        · cases failed
          rfl
        · cases same

theorem foldlM_eq_error {step : β → α → Update σ β} {items : List α} {start : β} {failure : Failure} :
    items.foldlM step start store = (.error failure, after) ↔
      ∃ done item rest value between, items = done ++ item :: rest ∧
        done.foldlM step start store = (.ok value, between) ∧ step value item between = (.error failure, after) := by
  induction items generalizing start store with
  | nil =>
      constructor
      · intro failed
        cases failed
      · rintro ⟨done, item, rest, value, between, split, -⟩
        exact absurd split.symm (List.append_ne_nil_of_right_ne_nil done (List.cons_ne_nil item rest))
  | cons first items ih =>
      rw [List.foldlM_cons, bind_eq_error]
      constructor
      · rintro (failed | ⟨value, between, ran, failed⟩)
        · exact ⟨[], first, items, start, store, rfl, rfl, failed⟩
        · obtain ⟨done, item, rest, last, final, rfl, others, failed⟩ := ih.1 failed
          exact ⟨first :: done, item, rest, last, final, rfl, by rw [List.foldlM_cons, bind_ok ran, others], failed⟩
      · rintro ⟨done, item, rest, last, final, split, ran, failed⟩
        cases done with
        | nil =>
            obtain ⟨rfl, rfl⟩ := List.cons.inj split
            cases ran
            exact .inl failed
        | cons head done =>
            obtain ⟨rfl, rfl⟩ := List.cons.inj split
            rcases stepped : step start first store with ⟨result, between⟩
            rw [List.foldlM_cons] at ran
            cases result with
            | error reason =>
                rw [bind_error stepped] at ran
                cases ran
            | ok value =>
                rw [bind_ok stepped] at ran
                exact .inr ⟨value, between, rfl, ih.2 ⟨done, item, rest, last, final, rfl, ran, failed⟩⟩

theorem tryWrite_ok {change : σ → Outcome σ} (changed : change store = .ok after) :
    tryWrite change store = (.ok (), after) := by
  rw [tryWrite, changed]

theorem tryWrite_error {change : σ → Outcome σ} {failure : Failure} (failed : change store = .error failure) :
    tryWrite change store = (.error failure, store) := by
  rw [tryWrite, failed]

theorem bind_pure (update : Update σ α) (answer : α → β) (store : σ) :
    (do return answer (← update) : Update σ β) store = ((update store).1.map answer, (update store).2) := by
  rcases ran : update store with ⟨result, after⟩
  cases result with
  | ok value =>
      rw [bind_ok ran]
      rfl
  | error failure =>
      rw [bind_error ran]
      rfl

variable {τ : Type} {related : σ → τ → Prop} {other : τ}

/-- Both updates give the same, and leave related states behind. -/
def Agrees (related : σ → τ → Prop) (update : Update σ α) (described : Update τ α) (store : σ) (other : τ) : Prop :=
  (update store).1 = (described other).1 ∧ related (update store).2 (described other).2

theorem Agrees.intro {update : Update σ α} {described : Update τ α} {result : Outcome α} {after : σ} {otherAfter : τ}
    (ran : update store = (result, after)) (ranOther : described other = (result, otherAfter))
    (holds : related after otherAfter) : Agrees related update described store other := by
  unfold Agrees
  rw [ran, ranOther]
  exact ⟨rfl, holds⟩

theorem Agrees.pure (holds : related store other) (value : α) :
    Agrees related (pure value) (pure value : Update τ α) store other := ⟨rfl, holds⟩

theorem Agrees.throw (holds : related store other) (failure : Failure) :
    Agrees related (throw failure) (throw failure : Update τ α) store other := ⟨rfl, holds⟩

theorem Agrees.read (holds : related store other) {query : σ → Outcome α} {described : τ → Outcome α}
    (same : query store = described other) :
    Agrees related (Update.read query) (Update.read described) store other :=
  ⟨same, holds⟩

theorem Agrees.write {change : σ → σ} {described : τ → τ} (holds : related (change store) (described other)) :
    Agrees related (Update.write change) (Update.write described) store other := ⟨rfl, holds⟩

theorem Agrees.bind {first : Update σ α} {firstDescribed : Update τ α}
    (agrees : Agrees related first firstDescribed store other) {next : α → Update σ β} {nextDescribed : α → Update τ β}
    (rest : ∀ value after otherAfter, firstDescribed other = (.ok value, otherAfter) →
      related after otherAfter → Agrees related (next value) (nextDescribed value) after otherAfter) :
    Agrees related (first >>= next) (firstDescribed >>= nextDescribed) store other := by
  obtain ⟨same, holds⟩ := agrees
  rcases ran : first store with ⟨result, after⟩
  rcases described : firstDescribed other with ⟨otherResult, otherAfter⟩
  rw [ran, described] at same holds
  obtain rfl : result = otherResult := same
  unfold Agrees
  cases result with
  | ok value =>
      rw [bind_ok ran, bind_ok described]
      exact rest value after otherAfter described holds
  | error failure =>
      rw [bind_error ran, bind_error described]
      exact ⟨rfl, holds⟩

theorem Agrees.returning {update : Update σ α} {described : Update τ α}
    (agrees : Agrees related update described store other) (answer : α → β) :
    Agrees related (do return answer (← update)) (do return answer (← described)) store other :=
  agrees.bind fun value _ _ _ holds => .pure holds (answer value)

end SupplyGraph.Update
