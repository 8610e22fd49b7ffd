import Mathlib.Data.List.Perm.Basic
import Mathlib.Tactic.Common

/-!
Results that may be failures, opened step by step.
-/

namespace SupplyGraph

variable {ε δ α β : Type}

theorem bind_eq_ok {first : Except ε α} {next : α → Except ε β} {result : β} :
    (do let value ← first; next value) = .ok result ↔ ∃ value, first = .ok value ∧ next value = .ok result := by
  cases first <;> simp [bind, Except.bind]

theorem bind_eq_error {first : Except ε α} {next : α → Except ε β} {failure : ε} :
    (do let value ← first; next value) = .error failure ↔
      first = .error failure ∨ ∃ value, first = .ok value ∧ next value = .error failure := by
  cases first <;> simp [bind, Except.bind]

theorem mapError_eq_ok {first : Except ε α} {blame : ε → δ} {value : α} :
    first.mapError blame = .ok value ↔ first = .ok value := by
  cases first <;> simp [Except.mapError]

theorem mapError_eq_error {first : Except ε α} {blame : ε → δ} {failure : δ} :
    first.mapError blame = .error failure ↔ ∃ cause, first = .error cause ∧ blame cause = failure := by
  cases first <;> simp [Except.mapError]

theorem map_eq_ok {first : Except ε α} {answer : α → β} {result : β} :
    first.map answer = .ok result ↔ ∃ value, first = .ok value ∧ answer value = result := by
  cases first <;> simp [Except.map]

theorem toOption_eq_some {first : Except ε α} {value : α} : first.toOption = some value ↔ first = .ok value := by
  cases first <;> simp [Except.toOption]

theorem map_eq_error {first : Except ε α} {answer : α → β} {failure : ε} :
    first.map answer = .error failure ↔ first = .error failure := by
  cases first <;> simp [Except.map]

theorem exists_mapM_eq_ok {read : α → Except ε β} {items : List α}
    (reads : ∀ item ∈ items, ∃ value, read item = .ok value) : ∃ values, items.mapM read = .ok values := by
  induction items with
  | nil => exact ⟨[], rfl⟩
  | cons item items ih =>
      obtain ⟨value, found⟩ := reads item List.mem_cons_self
      obtain ⟨values, others⟩ := ih fun other member => reads other (List.mem_cons_of_mem item member)
      exact ⟨value :: values, by rw [List.mapM_cons, found, others]; rfl⟩

theorem mem_of_mapM {read : α → Except ε β} {items : List α} {values : List β} (all : items.mapM read = .ok values)
    (value : β) : value ∈ values ↔ ∃ item ∈ items, read item = .ok value := by
  induction items generalizing values with
  | nil =>
      obtain rfl := Except.ok.inj all
      simp
  | cons item items ih =>
      rw [List.mapM_cons] at all
      obtain ⟨first, found, all⟩ := bind_eq_ok.1 all
      obtain ⟨rest, others, same⟩ := bind_eq_ok.1 all
      obtain rfl := Except.ok.inj same
      simp [ih others, found, eq_comm]

theorem mapM_eq_ok_iff {read : α → Except ε β} {items : List α} {values : List β} :
    items.mapM read = .ok values ↔ List.Forall₂ (fun item value => read item = .ok value) items values := by
  induction items generalizing values with
  | nil =>
      rw [List.forall₂_nil_left_iff]
      exact ⟨fun all => (Except.ok.inj all).symm, fun none => congrArg Except.ok none.symm⟩
  | cons item items ih =>
      rw [List.mapM_cons, bind_eq_ok, List.forall₂_cons_left_iff]
      constructor
      · rintro ⟨first, found, all⟩
        obtain ⟨rest, others, same⟩ := bind_eq_ok.1 all
        exact ⟨first, rest, found, ih.1 others, (Except.ok.inj same).symm⟩
      · rintro ⟨first, rest, found, others, rfl⟩
        exact ⟨first, found, bind_eq_ok.2 ⟨rest, ih.2 others, rfl⟩⟩

theorem exists_mapM_of_perm {read : α → Except ε β} {items others : List α} (perm : items.Perm others)
    {values : List β} (all : items.mapM read = .ok values) :
    ∃ rest, others.mapM read = .ok rest ∧ rest.Perm values := by
  obtain ⟨rest, each, same⟩ := List.perm_comp_forall₂ perm.symm (mapM_eq_ok_iff.1 all)
  exact ⟨rest, mapM_eq_ok_iff.2 each, same⟩

theorem split_of_mapM_error {read : α → Except ε β} {items : List α} {failure : ε}
    (failed : items.mapM read = .error failure) : ∃ before values item after, items = before ++ item :: after ∧
      before.mapM read = .ok values ∧ read item = .error failure := by
  induction items with
  | nil => cases failed
  | cons first items ih =>
      rw [List.mapM_cons] at failed
      cases found : read first with
      | error blame =>
          rw [found] at failed
          obtain rfl := Except.error.inj failed
          exact ⟨[], [], first, items, rfl, rfl, found⟩
      | ok value =>
          cases rest : items.mapM read with
          | ok values =>
              rw [found, rest] at failed
              cases failed
          | error blame =>
              rw [found, rest] at failed
              obtain rfl := Except.error.inj failed
              obtain ⟨before, values, item, after, split, ran, fails⟩ := ih rest
              refine ⟨first :: before, value :: values, item, after, congrArg (first :: ·) split, ?_, fails⟩
              rw [List.mapM_cons, found, ran]
              rfl

theorem exists_foldlM_eq_ok {step : β → α → Except ε β} {items : List α}
    (steps : ∀ item ∈ items, ∀ state, ∃ next, step state item = .ok next) (state : β) :
    ∃ last, items.foldlM step state = .ok last := by
  induction items generalizing state with
  | nil => exact ⟨state, rfl⟩
  | cons item items ih =>
      obtain ⟨next, stepped⟩ := steps item List.mem_cons_self state
      obtain ⟨last, ran⟩ := ih (fun other member => steps other (List.mem_cons_of_mem item member)) next
      exact ⟨last, by rw [List.foldlM_cons, stepped]; exact ran⟩

theorem exists_step_of_foldlM {step : β → α → Except ε β} {items : List α} {state last : β}
    (ran : items.foldlM step state = .ok last) {item : α} (listed : item ∈ items) :
    ∃ before after, step before item = .ok after := by
  induction items generalizing state with
  | nil => cases listed
  | cons first items ih =>
      rw [List.foldlM_cons] at ran
      obtain ⟨next, stepped, ran⟩ := bind_eq_ok.1 ran
      rcases List.mem_cons.1 listed with rfl | later
      · exact ⟨state, next, stepped⟩
      · exact ih ran later

theorem eq_foldl_of_foldlM {step : β → α → Except ε β} {plain : β → α → β}
    (same : ∀ state item next, step state item = .ok next → next = plain state item) {items : List α} {state last : β}
    (ran : items.foldlM step state = .ok last) : last = items.foldl plain state := by
  induction items generalizing state with
  | nil => exact (Except.ok.inj ran).symm
  | cons item items ih =>
      rw [List.foldlM_cons] at ran
      obtain ⟨next, stepped, ran⟩ := bind_eq_ok.1 ran
      rw [List.foldl_cons, ← same state item next stepped]
      exact ih ran

end SupplyGraph
