import SupplyGraph.Proofs.Graph.Search
import Mathlib.Data.List.Nodup

/-!
The search gives the strongly connected components: two ids are in one component exactly if each leads to the
other. A component is listed before those that it does not lead to.
-/

namespace SupplyGraph.Components
open Relation

def Inside (ids : List NodeId) (children : NodeId → IdSet) (id child : NodeId) : Prop :=
  child ∈ children id ∧ child ∈ ids

/-- Each component holds the known ids that lead to each other, and every known id is in one. -/
structure Divides (components : Components) (known : NodeId → Prop) (edge : NodeId → NodeId → Prop) : Prop where
  known_iff : ∀ id, (components.representative? id).isSome ↔ known id
  same_iff : ∀ id other first second, components.representative? id = some first →
    components.representative? other = some second →
    (first = second ↔ ReflTransGen edge id other ∧ ReflTransGen edge other id)
  listed : ∀ id representative, components.representative? id = some representative →
    ∃ members, (representative, members) ∈ components.toList
  members_iff : ∀ part ∈ components.toList, ∀ id, id ∈ part.2 ↔ components.representative? id = some part.1
  members_nodup : ∀ part ∈ components.toList, part.2.Nodup
  members_head : ∀ part ∈ components.toList, part.2.head? = some part.1
  apart : components.toList.Pairwise fun part other => ∀ id ∈ part.2, id ∉ other.2

structure Exact (components : Components) (known : NodeId → Prop) (edge : NodeId → NodeId → Prop) : Prop
    extends Divides components known edge where
  ordered : components.toList.Pairwise fun earlier later =>
    ∀ id ∈ earlier.2, ∀ other ∈ later.2, ¬ ReflTransGen edge id other

def ofSearch (search : Search) : Components :=
  { toList := search.completedReversed.reverse, representatives := search.representatives }

namespace Search

variable {children : NodeId → List NodeId} {known : NodeId → Prop} {search : Search}

structure Idle (children : NodeId → List NodeId) (known : NodeId → Prop) (search : Search) : Prop where
  invariant : Invariant children known search
  no_frames : search.frames = []

theorem Idle.no_stack (idle : Idle children known search) : search.stack = [] := by
  rw [List.eq_nil_iff_forall_not_mem]
  intro id isOpen
  obtain ⟨frame, member, -⟩ := idle.invariant.trail.covered id isOpen
  rw [idle.no_frames] at member
  exact List.not_mem_nil member

theorem Idle.represented_iff (idle : Idle children known search) (id : NodeId) :
    id ∈ search.representatives ↔ id ∈ search.numbers := by
  rw [idle.invariant.numbered.met_iff, idle.no_stack]
  simp

structure Keeps (children : NodeId → List NodeId) (holds : List NodeId → Search → Prop) : Prop where
  skip : ∀ root rest search, holds (root :: rest) search → search.frames = [] → root ∉ search.unseen → holds rest search
  enter : ∀ root rest search, holds (root :: rest) search → search.frames = [] → root ∈ search.unseen →
    holds rest (search.enter children root)
  step : ∀ rest search next, holds rest search → search.step children = some next → holds rest next

theorem Keeps.run {holds : List NodeId → Search → Prop} (keeps : Keeps children holds) {rest : List NodeId}
    (start : holds rest search) : (search.run children).Yields fun final => holds rest final ∧ final.frames = [] := by
  induction search using Search.run.induct children with
  | case1 search ended =>
      have no_frames : search.frames = [] := by
        unfold Search.step at ended
        split at ended
        · assumption
        · cases ended
      rw [Search.run]
      split
      · exact .pure ⟨start, no_frames⟩
      · simp_all
  | case2 search next moved ih =>
      rw [Search.run]
      split
      · simp_all
      · rename_i other moved'
        obtain rfl := Option.some.inj (moved.symm.trans moved')
        exact (Polled.Yields.tick search.steps).bind fun _ _ => ih (keeps.step rest search next start moved)

theorem Keeps.visits {holds : List NodeId → Search → Prop} (keeps : Keeps children holds) {ids : List NodeId}
    (start : holds ids search) (none : search.frames = []) :
    (ids.foldlM (visit children) search).Yields fun final => holds [] final ∧ final.frames = [] := by
  induction ids generalizing search with
  | nil => exact .pure ⟨start, none⟩
  | cons root rest ih =>
      rw [List.foldlM_cons]
      have visited : (search.visit children root).Yields fun next => holds rest next ∧ next.frames = [] := by
        unfold Search.visit
        split
        · rename_i fresh
          exact keeps.run (keeps.enter root rest search start none fresh)
        · rename_i seen
          exact .pure ⟨keeps.skip root rest search start none seen, none⟩
      exact visited.bind fun next ⟨kept, ended⟩ => ih kept ended

theorem Invariant.enter_root (invariant : Invariant children known search) (none : search.frames = []) {root : NodeId}
    (fresh : root ∈ search.unseen) : Invariant children known (search.enter children root) := by
  refine invariant.enter fresh ?_
  rw [none]
  exact fun frame member => absurd member List.not_mem_nil

structure Underway (children : NodeId → List NodeId) (known : NodeId → Prop) (ids rest : List NodeId) (search : Search) :
    Prop where
  invariant : Invariant children known search
  present : ∀ id ∈ rest, known id
  met : ∀ id ∈ ids, id ∈ rest ∨ id ∈ search.numbers

theorem keeps_underway (known_child : ∀ id, ∀ child ∈ children id, known child) (ids : List NodeId) :
    Keeps children (Underway children known ids) := by
  constructor
  case skip =>
    intro root rest search underway _ seen
    have met := underway.invariant.numbered.met_of_seen (underway.present root (List.mem_cons_self ..)) seen
    refine ⟨underway.invariant, fun id later => underway.present id (List.mem_cons_of_mem _ later), ?_⟩
    intro id listed
    rcases underway.met id listed with waits | before
    · rcases List.mem_cons.1 waits with rfl | later
      · exact Or.inr met
      · exact Or.inl later
    · exact Or.inr before
  case enter =>
    intro root rest search underway none fresh
    refine ⟨underway.invariant.enter_root none fresh,
      fun id later => underway.present id (List.mem_cons_of_mem _ later), ?_⟩
    intro id listed
    rcases underway.met id listed with waits | before
    · rcases List.mem_cons.1 waits with rfl | later
      · exact Or.inr (mem_numbers_enter.2 (Or.inl rfl))
      · exact Or.inl later
    · exact Or.inr (mem_numbers_enter.2 (Or.inr before))
  case step =>
    intro rest search next underway moved
    obtain ⟨kept, more⟩ := underway.invariant.step known_child moved
    exact ⟨kept, underway.present, fun id listed => (underway.met id listed).imp_right (more id)⟩

theorem Underway.met_all {ids : List NodeId} (underway : Underway children known ids [] search) :
    ∀ id ∈ ids, id ∈ search.numbers :=
  fun id listed => (underway.met id listed).resolve_left List.not_mem_nil

theorem Idle.exact (idle : Idle children known search) (all : ∀ id, known id → id ∈ search.numbers) :
    Exact (ofSearch search) known (Leads children) := by
  have settled := idle.invariant.settled
  refine ⟨?divides, ?ordered⟩
  case' divides => constructor
  case known_iff =>
    intro id
    change (search.representatives[id]?).isSome ↔ known id
    rw [← Std.TreeMap.mem_iff_isSome_getElem?, idle.represented_iff]
    exact ⟨idle.invariant.numbered.known_of_met id, all id⟩
  case same_iff =>
    intro id other first second found otherFound
    obtain ⟨path, back⟩ := settled.together id first found
    obtain ⟨otherPath, otherBack⟩ := settled.together other second otherFound
    constructor
    · rintro rfl
      exact ⟨path.trans otherBack, otherPath.trans back⟩
    · rintro ⟨forth, home⟩
      have same := settled.same id (mem_of_getElem? found) other (mem_of_getElem? otherFound) forth home
      exact Option.some.inj (found.symm.trans (same.trans otherFound))
  case listed =>
    intro id representative found
    obtain ⟨members, member⟩ := settled.listed id representative found
    exact ⟨members, List.mem_reverse.2 member⟩
  case members_iff => exact fun part member => settled.members_iff part (List.mem_reverse.1 member)
  case members_nodup => exact fun part member => settled.members_nodup part (List.mem_reverse.1 member)
  case members_head => exact fun part member => settled.members_head part (List.mem_reverse.1 member)
  case apart =>
    refine List.pairwise_reverse.2 (settled.ordered.imp ?_)
    exact fun separate id inside outside => separate id outside id inside .refl
  case ordered =>
    refine List.pairwise_reverse.2 (settled.ordered.imp ?_)
    exact fun separate id inside other otherInside => separate other otherInside id inside

end Search

def childrenWithin (ids : List NodeId) (children : NodeId → IdSet) (id : NodeId) : List NodeId :=
  (children id).toList.filter (· ∈ ids)

theorem ofGraph_eq (ids : List NodeId) (children : NodeId → IdSet) :
    ofGraph ids children = (do
      let search ← ids.foldlM (Search.visit (childrenWithin ids children)) { unseen := Std.TreeSet.ofList ids }
      return ofSearch search) := by
  have same : childrenWithin ids children = fun id => (children id).toList.filter (Std.TreeSet.ofList ids).contains := by
    funext id
    exact List.filter_congr (by simp)
  rw [same]
  rfl

theorem leads_childrenWithin (ids : List NodeId) (children : NodeId → IdSet) :
    Search.Leads (childrenWithin ids children) = Inside ids children := by
  funext id child
  simp [Search.Leads, childrenWithin, Inside, IdSet.mem_def]

theorem known_childrenWithin (ids : List NodeId) (children : NodeId → IdSet) (id : NodeId) :
    ∀ child ∈ childrenWithin ids children id, child ∈ ids := by
  simp [childrenWithin]

theorem underway_start (ids : List NodeId) (children : NodeId → List NodeId) :
    Search.Underway children (· ∈ ids) ids ids { unseen := Std.TreeSet.ofList ids } :=
  ⟨Search.invariant_start (by simp), fun id listed => listed, fun id listed => Or.inl listed⟩

theorem ofGraph_yields (ids : List NodeId) (children : NodeId → IdSet) :
    (ofGraph ids children).Yields fun components => components.Exact (· ∈ ids) (Inside ids children) := by
  have keeps := Search.keeps_underway (known_childrenWithin ids children) ids
  rw [ofGraph_eq]
  refine (keeps.visits (underway_start ids _) rfl).bind fun final ⟨underway, ended⟩ => ?_
  have idle : Search.Idle (childrenWithin ids children) (· ∈ ids) final := ⟨underway.invariant, ended⟩
  have exact := idle.exact underway.met_all
  rw [leads_childrenWithin] at exact
  exact .pure exact

namespace Divides

variable {components : Components} {known : NodeId → Prop} {edge : NodeId → NodeId → Prop}

theorem opposite (divides : components.Divides known edge) : components.Divides known (Function.swap edge) := by
  refine { divides with same_iff := ?_ }
  intro id other first second found otherFound
  have turned (start finish : NodeId) :
      ReflTransGen (Function.swap edge) start finish ↔ ReflTransGen edge finish start := reflTransGen_swap
  rw [turned, turned, and_comm]
  exact divides.same_iff id other first second found otherFound

theorem known_of_found (divides : components.Divides known edge) {id representative : NodeId}
    (found : components.representative? id = some representative) : known id :=
  (divides.known_iff id).1 (found ▸ rfl)

theorem head_mem (divides : components.Divides known edge) {part : NodeId × List NodeId}
    (listed : part ∈ components.toList) : part.1 ∈ part.2 :=
  List.mem_of_head? (divides.members_head part listed)

theorem representative_self (divides : components.Divides known edge) {id representative : NodeId}
    (found : components.representative? id = some representative) :
    components.representative? representative = some representative := by
  obtain ⟨members, listed⟩ := divides.listed id representative found
  exact (divides.members_iff _ listed representative).1 (divides.head_mem listed)

theorem together (divides : components.Divides known edge) {id representative : NodeId}
    (found : components.representative? id = some representative) :
    ReflTransGen edge id representative ∧ ReflTransGen edge representative id :=
  (divides.same_iff id representative _ _ found (divides.representative_self found)).1 rfl

theorem same_eq_true (divides : components.Divides known edge) {id other : NodeId} :
    components.same id other = true ↔
      known id ∧ known other ∧ ReflTransGen edge id other ∧ ReflTransGen edge other id := by
  rw [same, ← divides.known_iff, ← divides.known_iff]
  cases found : components.representative? id with
  | none => simp
  | some representative =>
      cases otherFound : components.representative? other with
      | none => simp
      | some otherRepresentative =>
          simpa using divides.same_iff id other representative otherRepresentative found otherFound

theorem mem_members (divides : components.Divides known edge) {id representative : NodeId}
    (found : components.representative? id = some representative) (other : NodeId) :
    other ∈ components.members representative ↔ components.representative? other = some representative := by
  obtain ⟨listed, isListed⟩ := divides.listed id representative found
  obtain ⟨part, looked⟩ : ∃ part, components.toList.lookup representative = some part := by
    rw [← Option.isSome_iff_exists, List.lookup_isSome_iff]
    exact ⟨_, isListed, BEq.rfl⟩
  obtain ⟨before, after, split, -⟩ := List.lookup_eq_some_iff.1 looked
  rw [members, looked]
  exact divides.members_iff (representative, part) (by simp [split]) other

theorem nodup_members (divides : components.Divides known edge) : (components.toList.flatMap (·.2)).Nodup :=
  List.nodup_flatMap.2 ⟨divides.members_nodup, divides.apart⟩

theorem mem_flatMap_members (divides : components.Divides known edge) (id : NodeId) :
    id ∈ components.toList.flatMap (·.2) ↔ known id := by
  rw [List.mem_flatMap, ← divides.known_iff]
  constructor
  · rintro ⟨part, listed, member⟩
    rw [(divides.members_iff part listed id).1 member]
    rfl
  · intro found
    obtain ⟨representative, found⟩ := Option.isSome_iff_exists.1 found
    obtain ⟨members, listed⟩ := divides.listed id representative found
    exact ⟨_, listed, (divides.members_iff _ listed id).2 found⟩

end Divides

theorem Exact.lt_of_path {components : Components} {known : NodeId → Prop} {edge : NodeId → NodeId → Prop}
    (exact : components.Exact known edge) {place otherPlace : Nat} {part other : NodeId × List NodeId}
    (here : components.toList[place]? = some part) (there : components.toList[otherPlace]? = some other)
    (different : place ≠ otherPlace) {id target : NodeId} (inside : id ∈ part.2) (reached : target ∈ other.2)
    (path : ReflTransGen edge id target) : otherPlace < place := by
  obtain ⟨bound, rfl⟩ := List.getElem?_eq_some_iff.1 here
  obtain ⟨otherBound, rfl⟩ := List.getElem?_eq_some_iff.1 there
  by_contra notBefore
  have earlier : place < otherPlace := by omega
  have separate := List.pairwise_iff_getElem.1 exact.ordered place otherPlace bound otherBound earlier
  exact separate id inside target reached path

/-- Without a cancellation the components of a graph are the classes of the ids that lead to each other. -/
theorem ofGraph_exact (ids : List NodeId) (children : NodeId → IdSet) :
    ∃ components, ofGraph ids children .never = .ok (components, .never) ∧
      (∀ id, (components.representative? id).isSome ↔ id ∈ ids) ∧
      (∀ id other, components.same id other = true ↔ id ∈ ids ∧ other ∈ ids ∧
        ReflTransGen (Inside ids children) id other ∧ ReflTransGen (Inside ids children) other id) ∧
      (components.toList.flatMap (·.2)).Nodup ∧
      (∀ id, id ∈ components.toList.flatMap (·.2) ↔ id ∈ ids) ∧
      ∀ id representative, components.representative? id = some representative → ∀ other,
        other ∈ components.members representative ↔ components.same id other = true := by
  obtain ⟨components, run, exact⟩ := (ofGraph_yields ids children).never
  have divides := exact.toDivides
  refine ⟨components, run, divides.known_iff, fun id other => divides.same_eq_true, divides.nodup_members,
    divides.mem_flatMap_members, fun id representative found other => ?_⟩
  rw [divides.mem_members found, same, found]
  cases components.representative? other with
  | none => simp
  | some otherRepresentative => simpa using eq_comm

end SupplyGraph.Components
