import SupplyGraph.Query.Evaluation
import SupplyGraph.Proofs.Outcome
import Mathlib.Data.Set.Basic

/-!
What expressions mean, and evaluation from a source that answers exactly. The names of the leaves are resolved from
left to right, so the first leaf that cannot be resolved decides the failure; when all can, the answers of the
leaves are combined as sets.
-/

namespace SupplyGraph.Query

def Expr.denote (meaning : Leaf → Set NodeId) : Expr → Set NodeId
  | .leaf query => meaning query
  | .group _ inner => inner.denote meaning
  | .binary .and left right => left.denote meaning ∩ right.denote meaning
  | .binary .or left right => left.denote meaning ∪ right.denote meaning
  | .binary .xor left right => left.denote meaning \ right.denote meaning ∪ right.denote meaning \ left.denote meaning

def Leaf.resolve (source : NodeSource) (fallback : Option String) (leaf : Leaf) : Outcome NodeId := do
  source.resolve (← leaf.requireName fallback)

/-- A source that gives the closures of the nodes its names lead to, and selects by type, without failing. -/
structure NodeSource.Answers (source : NodeSource) (known : NodeId → Prop) (reaches : Direction → NodeId → NodeId → Prop)
    (hasType : NodeId → String → Prop) : Prop where
  known_of_resolve : ∀ name id, source.resolve name = .ok id → known id
  closures : ∀ (direction : Direction) (ids : List NodeId), ids.Nodup → (∀ id ∈ ids, known id) →
    ∃ table, source.closures direction ids = .ok table ∧
      ∀ id ∈ ids, ∃ closure, table[id]? = some closure ∧ ∀ other, other ∈ closure ↔ reaches direction id other
  retainType : ∀ ids type, ∃ kept, source.retainType ids type = .ok kept ∧
    ∀ id, id ∈ kept ↔ id ∈ ids ∧ hasType id type

variable {source : NodeSource} {fallback : Option String} {known : NodeId → Prop}
  {reaches : Direction → NodeId → NodeId → Prop} {hasType : NodeId → String → Prop}

theorem Leaf.resolve_eq_ok {leaf : Leaf} {id : NodeId} :
    leaf.resolve source fallback = .ok id ↔ ∃ name, leaf.nameOr fallback = some name ∧ source.resolve name = .ok id := by
  unfold Leaf.resolve Leaf.requireName
  cases leaf.nameOr fallback with
  | none => exact ⟨nofun, fun ⟨_, named, _⟩ => nomatch named⟩
  | some name =>
      constructor
      · exact fun found => ⟨name, rfl, found⟩
      · rintro ⟨_, named, found⟩
        obtain rfl := Option.some.inj named
        exact found

def Wanted.needed (wanted : Wanted) : Direction → IdSet
  | .children => wanted.children
  | .parents => wanted.parents

def Wanted.withName (wanted : Wanted) (name : String) (id : NodeId) : Direction → Wanted
  | .children => { wanted with ids := wanted.ids.insert name id, children := wanted.children.insert id }
  | .parents => { wanted with ids := wanted.ids.insert name id, parents := wanted.parents.insert id }

theorem Wanted.ids_withName (wanted : Wanted) (name other : String) (id : NodeId) (direction : Direction) :
    (wanted.withName name id direction).ids[other]? = if name = other then some id else wanted.ids[other]? := by
  cases direction <;> simp [withName, Std.TreeMap.getElem?_insert]

theorem Wanted.mem_needed_withName {wanted : Wanted} {name : String} {id other : NodeId}
    {direction wanting : Direction} :
    other ∈ (wanted.withName name id direction).needed wanting ↔
      other ∈ wanted.needed wanting ∨ wanting = direction ∧ other = id := by
  cases direction <;> cases wanting <;> simp [withName, needed, or_comm]

structure Wanted.Covers (source : NodeSource) (fallback : Option String) (leaves : List Leaf)
    (wanted : Wanted) : Prop where
  sound : ∀ (name : String) id, wanted.ids[name]? = some id → source.resolve name = .ok id
  named : ∀ leaf ∈ leaves, ∃ (name : String) (id : NodeId), leaf.nameOr fallback = some name ∧
    wanted.ids[name]? = some id ∧ id ∈ wanted.needed leaf.relation.direction
  asked : ∀ direction, ∀ id ∈ wanted.needed direction, ∃ leaf ∈ leaves,
    leaf.relation.direction = direction ∧ leaf.resolve source fallback = .ok id

theorem Wanted.covers_start : Wanted.Covers source fallback [] {} := by
  constructor
  case sound => exact fun name id found => by simp at found
  case named => exact nofun
  case asked =>
    intro direction id member
    cases direction <;> exact absurd member (IdSet.not_mem_empty id)

theorem Wanted.Covers.add {seen : List Leaf} {wanted : Wanted} (covers : wanted.Covers source fallback seen)
    {leaf : Leaf} {id : NodeId} (found : leaf.resolve source fallback = .ok id) :
    ∃ next, wanted.add source fallback leaf = .ok next ∧ next.Covers source fallback (seen ++ [leaf]) := by
  obtain ⟨name, named, resolved⟩ := Leaf.resolve_eq_ok.1 found
  refine ⟨wanted.withName name id leaf.relation.direction, ?_, ?_⟩
  · have required : leaf.requireName fallback = .ok name := by rw [Leaf.requireName, named]
    unfold Wanted.add
    rw [required]
    cases before : wanted.ids[name]? with
    | none =>
        simp only [bind, Except.bind, before, resolved]
        cases leaf.relation.direction <;> rfl
    | some old =>
        obtain rfl : old = id := Except.ok.inj ((covers.sound name old before).symm.trans resolved)
        simp only [bind, Except.bind, before]
        cases leaf.relation.direction <;> rfl
  constructor
  case sound =>
    intro other otherId present
    rw [ids_withName] at present
    split at present
    · rename_i same
      obtain rfl := Option.some.inj present
      exact same ▸ resolved
    · exact covers.sound other otherId present
  case named =>
    intro other member
    rcases List.mem_append.1 member with before | last
    · obtain ⟨otherName, otherId, otherNamed, present, isNeeded⟩ := covers.named other before
      refine ⟨otherName, otherId, otherNamed, ?_, mem_needed_withName.2 (Or.inl isNeeded)⟩
      rw [ids_withName]
      split
      · rename_i same
        have again := covers.sound otherName otherId present
        rw [← same, resolved] at again
        exact congrArg some (Except.ok.inj again)
      · exact present
    · rw [List.mem_singleton.1 last]
      exact ⟨name, id, named, by simp [ids_withName], mem_needed_withName.2 (Or.inr ⟨rfl, rfl⟩)⟩
  case asked =>
    intro direction other member
    rcases mem_needed_withName.1 member with before | ⟨same, rfl⟩
    · obtain ⟨earlier, listed, asking⟩ := covers.asked direction other before
      exact ⟨earlier, List.mem_append_left _ listed, asking⟩
    · exact ⟨leaf, List.mem_append_right _ (List.mem_singleton_self leaf), same.symm, found⟩

theorem Wanted.Covers.add_error {seen : List Leaf} {wanted : Wanted} (covers : wanted.Covers source fallback seen)
    {leaf : Leaf} {failure : Failure} (failed : leaf.resolve source fallback = .error failure) :
    wanted.add source fallback leaf = .error failure := by
  unfold Leaf.resolve at failed
  unfold Wanted.add
  cases required : leaf.requireName fallback with
  | error missing =>
      rw [required] at failed
      obtain rfl := Except.error.inj failed
      rfl
  | ok name =>
      rw [required] at failed
      have unresolved : source.resolve name = .error failure := failed
      cases before : wanted.ids[name]? with
      | none =>
          simp only [bind, Except.bind, before, unresolved]
      | some old =>
          rw [covers.sound name old before] at unresolved
          cases unresolved

theorem foldlM_add_ok {leaves seen : List Leaf} {wanted : Wanted} (covers : wanted.Covers source fallback seen)
    (resolves : ∀ leaf ∈ leaves, ∃ id, leaf.resolve source fallback = .ok id) :
    ∃ final, leaves.foldlM (Wanted.add source fallback) wanted = .ok final ∧
      final.Covers source fallback (seen ++ leaves) := by
  -- `seen` are the leaves in front, so what is covered grows with the fold.
  induction leaves generalizing seen wanted with
  | nil => exact ⟨wanted, rfl, by simpa using covers⟩
  | cons leaf leaves ih =>
      obtain ⟨id, found⟩ := resolves leaf (List.mem_cons_self ..)
      obtain ⟨next, added, more⟩ := covers.add found
      obtain ⟨final, run, all⟩ := ih more fun other member => resolves other (List.mem_cons_of_mem _ member)
      refine ⟨final, ?_, by simpa using all⟩
      rw [List.foldlM_cons, added]
      exact run

theorem covers_of_foldlM {leaves seen : List Leaf} {wanted final : Wanted}
    (covers : wanted.Covers source fallback seen)
    (ran : leaves.foldlM (Wanted.add source fallback) wanted = .ok final) :
    final.Covers source fallback (seen ++ leaves) := by
  induction leaves generalizing seen wanted with
  | nil =>
      obtain rfl := Except.ok.inj ran
      simpa using covers
  | cons leaf leaves ih =>
      rw [List.foldlM_cons] at ran
      obtain ⟨next, added, ran⟩ := bind_eq_ok.1 ran
      cases found : leaf.resolve source fallback with
      | error failure => cases (covers.add_error found).symm.trans added
      | ok id =>
          obtain ⟨same, alsoAdded, more⟩ := covers.add found
          obtain rfl := Except.ok.inj (alsoAdded.symm.trans added)
          simpa using ih more ran

theorem foldlM_add_error {before after seen : List Leaf} {leaf : Leaf} {wanted : Wanted} {failure : Failure}
    (covers : wanted.Covers source fallback seen)
    (resolves : ∀ earlier ∈ before, ∃ id, earlier.resolve source fallback = .ok id)
    (failed : leaf.resolve source fallback = .error failure) :
    (before ++ leaf :: after).foldlM (Wanted.add source fallback) wanted = .error failure := by
  obtain ⟨middle, run, all⟩ := foldlM_add_ok covers resolves
  rw [List.foldlM_append, run]
  change (leaf :: after).foldlM (Wanted.add source fallback) middle = _
  rw [List.foldlM_cons, all.add_error failed]
  rfl

theorem Loaded.closure_eq_ok {loaded : Loaded} {direction : Direction} {name : String} {closure : IdSet} :
    loaded.closure direction name = .ok closure ↔
      ∃ id : NodeId, loaded.ids[name]? = some id ∧ (loaded.closures direction)[id]? = some closure := by
  rw [Loaded.closure]
  cases loaded.ids[name]? with
  | none => simp
  | some id =>
      simp only [Option.some.injEq, exists_eq_left']
      cases (loaded.closures direction)[id]? <;> simp

theorem load_eq_ok {expr : Expr} {loaded : Loaded} : expr.load source fallback = .ok loaded ↔
    ∃ wanted, expr.leaves.foldlM (Wanted.add source fallback) {} = .ok wanted ∧ loaded.ids = wanted.ids ∧
      ∀ direction, source.closures direction (wanted.needed direction).toList = .ok (loaded.closures direction) := by
  rw [Expr.load, Expr.gather_singleton, bind_eq_ok]
  apply exists_congr
  intro wanted
  apply and_congr_right
  intro
  rw [bind_eq_ok]
  constructor
  · intro ran
    obtain ⟨children, childrenAsked, ran⟩ := ran
    obtain ⟨parents, parentsAsked, ran⟩ := bind_eq_ok.1 ran
    obtain rfl := Except.ok.inj ran
    refine ⟨rfl, fun direction => ?_⟩
    cases direction with
    | children => exact childrenAsked
    | parents => exact parentsAsked
  · intro both
    obtain ⟨same, asked⟩ := both
    refine ⟨loaded.children, asked .children, bind_eq_ok.2 ⟨loaded.parents, asked .parents, ?_⟩⟩
    rw [← same]
    rfl

theorem exists_load {expr : Expr} {wanted : Wanted}
    (ran : expr.leaves.foldlM (Wanted.add source fallback) {} = .ok wanted)
    (batch : ∀ direction, ∃ table, source.closures direction (wanted.needed direction).toList = .ok table) :
    ∃ loaded, expr.load source fallback = .ok loaded ∧ loaded.ids = wanted.ids ∧
      ∀ direction, source.closures direction (wanted.needed direction).toList = .ok (loaded.closures direction) := by
  choose table asked using batch
  let loaded : Loaded := { ids := wanted.ids, children := table .children, parents := table .parents }
  have each (direction : Direction) :
      source.closures direction (wanted.needed direction).toList = .ok (loaded.closures direction) := by
    cases direction with
    | children => exact asked .children
    | parents => exact asked .parents
  exact ⟨loaded, load_eq_ok.2 ⟨wanted, ran, rfl, each⟩, rfl, each⟩

theorem load_ok (answers : source.Answers known reaches hasType) {expr : Expr}
    (resolves : ∀ leaf ∈ expr.leaves, ∃ id, leaf.resolve source fallback = .ok id) :
    ∃ loaded, expr.load source fallback = .ok loaded ∧ ∀ leaf ∈ expr.leaves, ∃ name id closure,
      leaf.nameOr fallback = some name ∧ source.resolve name = .ok id ∧
      loaded.closure leaf.relation.direction name = .ok closure ∧
      ∀ other, other ∈ closure ↔ reaches leaf.relation.direction id other := by
  obtain ⟨wanted, run, covers⟩ := foldlM_add_ok Wanted.covers_start resolves
  have knows (direction : Direction) : ∀ id ∈ (wanted.needed direction).toList, known id := by
    intro id member
    obtain ⟨leaf, -, -, found⟩ := covers.asked direction id member
    obtain ⟨name, -, resolved⟩ := Leaf.resolve_eq_ok.1 found
    exact answers.known_of_resolve name id resolved
  have answered (direction : Direction) :=
    answers.closures direction _ (wanted.needed direction).nodup (knows direction)
  obtain ⟨loaded, loading, same, asked⟩ :=
    exists_load run fun direction => (answered direction).imp fun _ both => both.1
  refine ⟨loaded, loading, fun leaf member => ?_⟩
  obtain ⟨name, id, named, present, isNeeded⟩ := covers.named leaf member
  obtain ⟨table, again, exact⟩ := answered leaf.relation.direction
  obtain rfl := Except.ok.inj (again.symm.trans (asked leaf.relation.direction))
  obtain ⟨closure, found, exact⟩ := exact id isNeeded
  have here : loaded.ids[name]? = some id := by rw [same, present]
  exact ⟨name, id, closure, named, covers.sound name id present, Loaded.closure_eq_ok.2 ⟨id, here, found⟩, exact⟩

def Leaf.meaning (source : NodeSource) (fallback : Option String) (reaches : Direction → NodeId → NodeId → Prop)
    (hasType : NodeId → String → Prop) (leaf : Leaf) : Set NodeId :=
  { id | ∃ start, leaf.resolve source fallback = .ok start ∧ reaches leaf.relation.direction start id ∧
    hasType id leaf.nodeType }

theorem combine_exact (answers : source.Answers known reaches hasType) {loaded : Loaded} {expr : Expr}
    (loads : ∀ leaf ∈ expr.leaves, ∃ name id closure,
      leaf.nameOr fallback = some name ∧ source.resolve name = .ok id ∧
      loaded.closure leaf.relation.direction name = .ok closure ∧
      ∀ other, other ∈ closure ↔ reaches leaf.relation.direction id other) :
    ∃ answer, expr.combine source loaded fallback = .ok answer ∧
      ∀ id, id ∈ answer ↔ id ∈ expr.denote (Leaf.meaning source fallback reaches hasType) := by
  induction expr with
  | leaf query =>
      obtain ⟨name, start, closure, named, resolved, found, exact⟩ := loads query (List.mem_singleton_self _)
      obtain ⟨kept, retained, members⟩ := answers.retainType closure query.nodeType
      refine ⟨kept, ?_, fun id => ?_⟩
      · have required : query.requireName fallback = .ok name := by rw [Leaf.requireName, named]
        unfold Expr.combine
        rw [required]
        simp only [bind, Except.bind, found]
        exact retained
      · have isStart : query.resolve source fallback = .ok start := Leaf.resolve_eq_ok.2 ⟨name, named, resolved⟩
        rw [members, exact]
        constructor
        · exact fun ⟨path, isType⟩ => ⟨start, isStart, path, isType⟩
        · rintro ⟨other, isOther, path, isType⟩
          obtain rfl := Except.ok.inj (isStart.symm.trans isOther)
          exact ⟨path, isType⟩
  | group bracket inner ih => exact ih loads
  | binary operator left right leftIh rightIh =>
      obtain ⟨first, leftRun, leftExact⟩ := leftIh fun leaf member => loads leaf (List.mem_append_left _ member)
      obtain ⟨second, rightRun, rightExact⟩ := rightIh fun leaf member => loads leaf (List.mem_append_right _ member)
      refine ⟨operator.apply first second, ?_, fun id => ?_⟩
      · unfold Expr.combine
        rw [leftRun]
        simp only [bind, Except.bind, rightRun]
        rfl
      · rw [SetOperator.mem_apply]
        cases operator with
        | and => exact and_congr (leftExact id) (rightExact id)
        | or => exact or_congr (leftExact id) (rightExact id)
        | xor =>
            simp only [leftExact, rightExact, Expr.denote, Set.mem_union, Set.mem_sdiff]
            rw [and_comm (b := id ∈ right.denote _)]

theorem evaluate_exact (answers : source.Answers known reaches hasType) {expr : Expr}
    (resolves : ∀ leaf ∈ expr.leaves, ∃ id, leaf.resolve source fallback = .ok id) :
    ∃ answer, expr.evaluate source fallback = .ok answer ∧
      ∀ id, id ∈ answer ↔ id ∈ expr.denote (Leaf.meaning source fallback reaches hasType) := by
  obtain ⟨loaded, run, loads⟩ := load_ok answers resolves
  obtain ⟨answer, combined, exact⟩ := combine_exact answers loads
  refine ⟨answer, ?_, exact⟩
  rw [Expr.evaluate, run]
  exact combined

theorem evaluate_error {expr : Expr} {before after : List Leaf} {leaf : Leaf} {failure : Failure}
    (leaves : expr.leaves = before ++ leaf :: after)
    (resolves : ∀ earlier ∈ before, ∃ id, earlier.resolve source fallback = .ok id)
    (failed : leaf.resolve source fallback = .error failure) : expr.evaluate source fallback = .error failure := by
  rw [Expr.evaluate, Expr.load, Expr.gather_singleton, leaves, foldlM_add_error Wanted.covers_start resolves failed]
  rfl

end SupplyGraph.Query
