import SupplyGraph.Proofs.Query.Snapshot
import SupplyGraph.Proofs.Store.Robust

/-!
Evaluation with two batches of closures against evaluation leaf by leaf, where each leaf resolves its own name and
asks for its own closure. They give the same if the source answers each id of a batch as it does alone.
-/

namespace SupplyGraph.Query

variable {source : NodeSource} {fallback : Option String} {loaded : Loaded}

def NodeSource.closure (source : NodeSource) (direction : Direction) (id : NodeId) : Outcome IdSet := do
  let table ← source.closures direction [id]
  match table[id]? with
  | some closure => .ok closure
  | none => .error (.closuresNotFound id)

def Leaf.answer (source : NodeSource) (fallback : Option String) (leaf : Leaf) : Outcome IdSet := do
  let id ← leaf.resolve source fallback
  source.retainType (← source.closure leaf.relation.direction id) leaf.nodeType

def Expr.answer (source : NodeSource) (fallback : Option String) : Expr → Outcome IdSet
  | .leaf query => query.answer source fallback
  | .group _ inner => inner.answer source fallback
  | .binary operator left right => do
    let answer ← left.answer source fallback
    return operator.apply answer (← right.answer source fallback)

/-- A batch succeeds when each of its ids would alone, and gives each the closure that it would get alone. -/
structure NodeSource.Independent (source : NodeSource) : Prop where
  gives : ∀ (direction : Direction) (ids : IdSet),
    (∀ id ∈ ids, ∃ closure, source.closure direction id = .ok closure) →
    ∃ table, source.closures direction ids.toList = .ok table
  holds : ∀ (direction : Direction) (ids : IdSet) (table : Std.TreeMap NodeId IdSet),
    source.closures direction ids.toList = .ok table →
    ∀ id ∈ ids, ∃ closure, source.closure direction id = .ok closure ∧ table[id]? = some closure

theorem NodeSource.closure_eq_ok {direction : Direction} {id : NodeId} {closure : IdSet} :
    source.closure direction id = .ok closure ↔
      ∃ table, source.closures direction [id] = .ok table ∧ table[id]? = some closure := by
  rw [NodeSource.closure, bind_eq_ok]
  apply exists_congr
  intro table
  cases table[id]? <;> simp

theorem NodeSource.Independent.of_reads (read : Direction → NodeId → Outcome IdSet)
    (gives : ∀ (direction : Direction) (ids : IdSet), (∀ id ∈ ids, ∃ closure, read direction id = .ok closure) →
      ∃ table, source.closures direction ids.toList = .ok table)
    (holds : ∀ (direction : Direction) (ids : IdSet) (table : Std.TreeMap NodeId IdSet),
      source.closures direction ids.toList = .ok table →
      ∀ id ∈ ids, ∃ closure, read direction id = .ok closure ∧ table[id]? = some closure) :
    source.Independent := by
  have alone (direction : Direction) (id : NodeId) (closure : IdSet) :
      source.closure direction id = .ok closure ↔ read direction id = .ok closure := by
    have member : id ∈ IdSet.singleton id := by simp
    rw [closure_eq_ok]
    constructor
    · intro asked
      obtain ⟨table, asked, found⟩ := asked
      obtain ⟨same, reads, present⟩ := holds direction (.singleton id) table asked id member
      rw [reads, ← Option.some.inj (found.symm.trans present)]
    · intro reads
      have each : ∀ other ∈ IdSet.singleton id, ∃ closure, read direction other = .ok closure := by
        intro other single
        exact ⟨closure, by rw [IdSet.mem_singleton.1 single, reads]⟩
      obtain ⟨table, asked⟩ := gives direction (.singleton id) each
      obtain ⟨same, again, present⟩ := holds direction (.singleton id) table asked id member
      rw [reads] at again
      exact ⟨table, asked, by rw [present, Except.ok.inj again]⟩
  constructor
  case gives =>
    intro direction ids each
    simp only [alone] at each
    exact gives direction ids each
  case holds =>
    intro direction ids table asked id member
    simp only [alone]
    exact holds direction ids table asked id member

theorem NodeSource.Independent.of_fold (read : Direction → NodeId → Outcome IdSet)
    (folds : ∀ direction ids, source.closures direction ids =
      ids.foldlM (fun found id => do return found.insert id (← read direction id)) ∅) : source.Independent := by
  have table_of_reads (direction : Direction) (ids : IdSet)
      (each : ∀ id ∈ ids, ∃ closure, read direction id = .ok closure) : ∃ table,
      source.closures direction ids.toList = .ok table ∧
        ∀ id ∈ ids, ∃ closure, read direction id = .ok closure ∧ table[id]? = some closure := by
    have values : ∀ id ∈ ids.toList, read direction id = .ok ((read direction id).toOption.getD ∅) := by
      intro id member
      obtain ⟨closure, reads⟩ := each id member
      rw [reads]
      rfl
    obtain ⟨table, ran, lookups⟩ := foldlM_insert_ok values ∅
    refine ⟨table, (folds direction _).trans ran, fun id member => ⟨_, values id member, ?_⟩⟩
    rw [lookups, if_pos (IdSet.mem_def.1 member)]
  apply of_reads read
  · intro direction ids each
    obtain ⟨table, asked, -⟩ := table_of_reads direction ids each
    exact ⟨table, asked⟩
  · intro direction ids table asked
    have each : ∀ id ∈ ids, ∃ closure, read direction id = .ok closure := by
      intro id member
      obtain ⟨before, after, stepped⟩ := exists_step_of_foldlM ((folds direction _).symm.trans asked) member
      obtain ⟨closure, reads, -⟩ := bind_eq_ok.1 stepped
      exact ⟨closure, reads⟩
    obtain ⟨same, again, holds⟩ := table_of_reads direction ids each
    rw [asked] at again
    rwa [Except.ok.inj again]

theorem Snapshot.independent (snapshot : Snapshot) : snapshot.source.Independent :=
  .of_fold (closureIn snapshot.closures) (lookUpClosures_eq snapshot.closures)

section

variable {σ : Type} [GraphStore σ] [BatchingGraphStore σ]

theorem liveSource_independent (coherent : Bool) (store : σ) : (liveSource coherent store).Independent := by
  cases coherent with
  | false => exact .of_fold (searchClosure store) fun _ _ => rfl
  | true =>
      apply NodeSource.Independent.of_reads fun direction id => (GraphStore.closures store id).map direction.closure
      · intro direction ids each
        have stored : ∀ id ∈ ids.toList, ∃ closures, GraphStore.closures store id = .ok closures := by
          intro id member
          obtain ⟨closure, reads⟩ := each id member
          obtain ⟨closures, reads, -⟩ := map_eq_ok.1 reads
          exact ⟨closures, reads⟩
        obtain ⟨table, read⟩ := BatchingGraphStore.reads stored
        have present : ∀ id ∈ ids.toList, id ∈ table := by
          intro id member
          obtain ⟨closures, reads⟩ := stored id member
          have found : table[id]? = some closures := by
            rw [BatchingGraphStore.single read id member, reads]
            rfl
          exact mem_of_getElem? found
        obtain ⟨result, taken, -⟩ := takeClosures_ok ids.nodup present ∅
        exact ⟨result, bind_eq_ok.2 ⟨table, read, taken⟩⟩
      · intro direction ids result asked id member
        obtain ⟨table, read, taken⟩ := bind_eq_ok.1 asked
        have present := mem_of_takeClosures taken
        obtain ⟨same, again, lookups⟩ := takeClosures_ok ids.nodup present ∅
        obtain rfl := Except.ok.inj (taken.symm.trans again)
        obtain ⟨closures, found⟩ := getElem?_of_mem (present id member)
        have reads : GraphStore.closures store id = .ok closures := by
          rwa [BatchingGraphStore.single read id member, toOption_eq_some] at found
        refine ⟨direction.closure closures, map_eq_ok.2 ⟨closures, reads, rfl⟩, ?_⟩
        rw [lookups, if_pos (IdSet.mem_def.1 member), found]
        rfl

end

def Leaf.Stored (source : NodeSource) (fallback : Option String) (loaded : Loaded) (leaf : Leaf)
    (closure : IdSet) : Prop :=
  ∃ name id, leaf.requireName fallback = .ok name ∧ source.resolve name = .ok id ∧
    source.closure leaf.relation.direction id = .ok closure ∧
    loaded.closure leaf.relation.direction name = .ok closure

theorem stored_of_load (independent : source.Independent) {expr : Expr}
    (ran : expr.load source fallback = .ok loaded) :
    ∀ leaf ∈ expr.leaves, ∃ closure, leaf.Stored source fallback loaded closure := by
  intro leaf member
  obtain ⟨wanted, resolved, same, asked⟩ := load_eq_ok.1 ran
  have covers := covers_of_foldlM Wanted.covers_start resolved
  obtain ⟨name, id, named, present, needed⟩ := covers.named leaf member
  obtain ⟨closure, alone, found⟩ := independent.holds _ _ _ (asked leaf.relation.direction) id needed
  have required : leaf.requireName fallback = .ok name := by rw [Leaf.requireName, named]
  have known : loaded.ids[name]? = some id := by rw [same, present]
  exact ⟨closure, name, id, required, covers.sound name id present, alone, Loaded.closure_eq_ok.2 ⟨id, known, found⟩⟩

theorem load_of_leaves (independent : source.Independent) {expr : Expr}
    (each : ∀ leaf ∈ expr.leaves, ∃ id closure, leaf.resolve source fallback = .ok id ∧
      source.closure leaf.relation.direction id = .ok closure) :
    ∃ loaded, expr.load source fallback = .ok loaded := by
  have resolves : ∀ leaf ∈ expr.leaves, ∃ id, leaf.resolve source fallback = .ok id := by
    intro leaf member
    obtain ⟨id, _, resolved, -⟩ := each leaf member
    exact ⟨id, resolved⟩
  obtain ⟨wanted, ran, covers⟩ := foldlM_add_ok Wanted.covers_start resolves
  -- Every id that is wanted is the id of some leaf, so it has a closure when that leaf does.
  have batch (direction : Direction) :
      ∃ table, source.closures direction (wanted.needed direction).toList = .ok table := by
    apply independent.gives
    intro id needed
    obtain ⟨leaf, member, rfl, resolved⟩ := covers.asked direction id needed
    obtain ⟨same, closure, again, alone⟩ := each leaf member
    obtain rfl := Except.ok.inj (resolved.symm.trans again)
    exact ⟨closure, alone⟩
  obtain ⟨loaded, loading, -⟩ := exists_load ran batch
  exact ⟨loaded, loading⟩

theorem leaves_of_answer {expr : Expr} {answer : IdSet} (ran : expr.answer source fallback = .ok answer) :
    ∀ leaf ∈ expr.leaves, ∃ id closure, leaf.resolve source fallback = .ok id ∧
      source.closure leaf.relation.direction id = .ok closure := by
  induction expr generalizing answer with
  | leaf query =>
      intro leaf member
      obtain ⟨id, resolved, ran⟩ := bind_eq_ok.1 ran
      obtain ⟨closure, alone, -⟩ := bind_eq_ok.1 ran
      rw [List.mem_singleton.1 member]
      exact ⟨id, closure, resolved, alone⟩
  | group bracket inner ih => exact ih ran
  | binary operator left right leftIh rightIh =>
      intro leaf member
      obtain ⟨first, leftRan, ran⟩ := bind_eq_ok.1 ran
      obtain ⟨second, rightRan, -⟩ := bind_eq_ok.1 ran
      rcases List.mem_append.1 member with inLeft | inRight
      · exact leftIh leftRan leaf inLeft
      · exact rightIh rightRan leaf inRight

theorem Leaf.Stored.answer_eq {leaf : Leaf} {closure : IdSet} (stored : leaf.Stored source fallback loaded closure) :
    leaf.answer source fallback = source.retainType closure leaf.nodeType := by
  obtain ⟨name, id, required, resolved, alone, -⟩ := stored
  simp only [Leaf.answer, Leaf.resolve, required, resolved, alone, bind, Except.bind]

theorem Leaf.Stored.combine_eq {leaf : Leaf} {closure : IdSet} (stored : leaf.Stored source fallback loaded closure) :
    (Expr.leaf leaf).combine source loaded fallback = source.retainType closure leaf.nodeType := by
  obtain ⟨name, id, required, -, -, found⟩ := stored
  simp only [Expr.combine, required, found, bind, Except.bind]

theorem combine_eq_answer {expr : Expr}
    (stored : ∀ leaf ∈ expr.leaves, ∃ closure, leaf.Stored source fallback loaded closure) :
    expr.combine source loaded fallback = expr.answer source fallback := by
  induction expr with
  | leaf query =>
      obtain ⟨closure, stored⟩ := stored query (List.mem_singleton_self query)
      rw [stored.combine_eq, Expr.answer, stored.answer_eq]
  | group bracket inner ih => exact ih stored
  | binary operator left right leftIh rightIh =>
      rw [Expr.combine, leftIh fun leaf member => stored leaf (List.mem_append_left _ member),
        rightIh fun leaf member => stored leaf (List.mem_append_right _ member), Expr.answer]

theorem combine_error {expr : Expr} {failure : Failure}
    (stored : ∀ leaf ∈ expr.leaves, ∃ closure, leaf.Stored source fallback loaded closure)
    (failed : expr.combine source loaded fallback = .error failure) :
    ∃ leaf ∈ expr.leaves, ∃ closure, leaf.Stored source fallback loaded closure ∧
      source.retainType closure leaf.nodeType = .error failure := by
  induction expr with
  | leaf query =>
      have member := List.mem_singleton_self query
      obtain ⟨closure, stored⟩ := stored query member
      exact ⟨query, member, closure, stored, stored.combine_eq.symm.trans failed⟩
  | group bracket inner ih => exact ih stored failed
  | binary operator left right leftIh rightIh =>
      have inLeft : ∀ leaf ∈ left.leaves, leaf ∈ (Expr.binary operator left right).leaves :=
        fun _ member => List.mem_append_left _ member
      have inRight : ∀ leaf ∈ right.leaves, leaf ∈ (Expr.binary operator left right).leaves :=
        fun _ member => List.mem_append_right _ member
      rcases bind_eq_error.1 failed with leftFailed | ⟨_, _, failed⟩
      · obtain ⟨leaf, member, found⟩ := leftIh (fun leaf member => stored leaf (inLeft leaf member)) leftFailed
        exact ⟨leaf, inLeft leaf member, found⟩
      · rcases bind_eq_error.1 failed with rightFailed | ⟨_, _, joined⟩
        · obtain ⟨leaf, member, found⟩ := rightIh (fun leaf member => stored leaf (inRight leaf member)) rightFailed
          exact ⟨leaf, inRight leaf member, found⟩
        · cases joined

theorem evaluate_eq_ok_iff (independent : source.Independent) {expr : Expr} {answer : IdSet} :
    expr.evaluate source fallback = .ok answer ↔ expr.answer source fallback = .ok answer := by
  constructor
  · intro ran
    obtain ⟨loaded, loading, ran⟩ := bind_eq_ok.1 ran
    rwa [← combine_eq_answer (stored_of_load independent loading)]
  · intro ran
    obtain ⟨loaded, loading⟩ := load_of_leaves independent (leaves_of_answer ran)
    apply bind_eq_ok.2
    exact ⟨loaded, loading, by rwa [combine_eq_answer (stored_of_load independent loading)]⟩

/-- Evaluation in batches gives what evaluation leaf by leaf gives, from every source that answers each id of a batch
as if it were alone; snapshots and stores do. Once all is loaded, only the selection by type can fail. -/
theorem evaluate_leafByLeaf :
    (∀ snapshot : Snapshot, snapshot.source.Independent) ∧
    (∀ (σ : Type) [GraphStore σ] [BatchingGraphStore σ] (coherent : Bool) (store : σ),
      (liveSource coherent store).Independent) ∧
    ∀ source : NodeSource, source.Independent → ∀ (fallback : Option String) (expr : Expr),
      (∀ answer, expr.evaluate source fallback = .ok answer ↔ expr.answer source fallback = .ok answer) ∧
      ∀ loaded, expr.load source fallback = .ok loaded →
        (∀ leaf ∈ expr.leaves, ∃ name closure, leaf.requireName fallback = .ok name ∧
          loaded.closure leaf.relation.direction name = .ok closure) ∧
        ∀ failure, expr.combine source loaded fallback = .error failure →
          ∃ leaf ∈ expr.leaves, ∃ name closure, leaf.requireName fallback = .ok name ∧
            loaded.closure leaf.relation.direction name = .ok closure ∧
            source.retainType closure leaf.nodeType = .error failure := by
  refine ⟨Snapshot.independent, fun σ _ _ => liveSource_independent, fun source independent fallback expr => ?_⟩
  refine ⟨fun answer => evaluate_eq_ok_iff independent, fun loaded loading => ?_⟩
  have stored := stored_of_load independent loading
  constructor
  · intro leaf member
    obtain ⟨closure, name, _, required, _, _, found⟩ := stored leaf member
    exact ⟨name, closure, required, found⟩
  · intro failure failed
    obtain ⟨leaf, member, closure, holds, fails⟩ := combine_error stored failed
    obtain ⟨name, _, required, _, _, found⟩ := holds
    exact ⟨leaf, member, name, closure, required, found, fails⟩

def bothWays : Expr :=
  .binary .or (.leaf { relation := .dependencies, nodeType := "library", nodeName := none })
    (.leaf { relation := .dependents, nodeType := "library", nodeName := some "parent" })

def brittleSource : NodeSource :=
  { liveSource true Engine.refreshedPair with retainType := fun _ _ => .error (.json "malformed node record") }

theorem evaluate_leafByLeaf_refreshedPair :
    (liveSource true Engine.refreshedPair).Independent ∧ brittleSource.Independent ∧
    (∃ answer, bothWays.evaluate (liveSource true Engine.refreshedPair) (some "parent") = .ok answer ∧
      answer.toList = [1, 2]) ∧
    ∃ loaded, bothWays.load brittleSource (some "parent") = .ok loaded ∧
      ∃ leaf ∈ bothWays.leaves, ∃ name closure, leaf.requireName (some "parent") = .ok name ∧
        loaded.closure leaf.relation.direction name = .ok closure ∧
        brittleSource.retainType closure leaf.nodeType = .error (.json "malformed node record") := by
  obtain ⟨-, live, batched⟩ := evaluate_leafByLeaf
  have independent := live MemoryStore true Engine.refreshedPair
  have brittle : brittleSource.Independent := ⟨independent.gives, independent.holds⟩
  refine ⟨independent, brittle, ?_, ?_⟩
  · have alone : (bothWays.answer (liveSource true Engine.refreshedPair) (some "parent")).map (·.toList) =
        .ok [1, 2] := by decide +kernel
    obtain ⟨answer, ran, listed⟩ := map_eq_ok.1 alone
    exact ⟨answer, ((batched _ independent _ _).1 answer).2 ran, listed⟩
  · have loads : (bothWays.load brittleSource (some "parent")).isOk := by decide +kernel
    have fails : bothWays.evaluate brittleSource (some "parent") = .error (.json "malformed node record") := by
      decide +kernel
    cases loading : bothWays.load brittleSource (some "parent") with
    | error failure =>
        rw [loading] at loads
        cases loads
    | ok loaded =>
        rw [Expr.evaluate, loading] at fails
        exact ⟨loaded, rfl, ((batched _ brittle _ _).2 loaded loading).2 _ fails⟩

end SupplyGraph.Query
