import SupplyGraph.IdSet

/-!
Expressions of the query language. A leaf asks for the nodes of one type among the dependencies or the
dependents of a named node; operators combine the answers as sets, and brackets group.
-/

namespace SupplyGraph

/-- The two ways along an edge: from a node to what it depends on, or to what depends on it. -/
inductive Direction
  | children | parents
deriving DecidableEq

namespace Query

inductive Relation
  | dependencies | dependents
deriving DecidableEq

namespace Relation

def keyword : Relation → String
  | dependencies => "dependencies"
  | dependents => "dependents"

def ofKeyword? : String → Option Relation
  | "dependencies" => some dependencies
  | "dependents" => some dependents
  | _ => none

def direction : Relation → Direction
  | dependencies => .children
  | dependents => .parents

end Relation

inductive SetOperator
  | and | or | xor
deriving DecidableEq

namespace SetOperator

def keyword : SetOperator → String
  | and => "and"
  | or => "or"
  | xor => "xor"

def ofKeyword? : String → Option SetOperator
  | "and" => some and
  | "or" => some or
  | "xor" => some xor
  | _ => none

def apply : SetOperator → IdSet → IdSet → IdSet
  | and, left, right => left ∩ right
  | or, left, right => left ∪ right
  | xor, left, right => left.symmDiff right

theorem mem_apply {operator : SetOperator} {left right : IdSet} {id : NodeId} :
    id ∈ operator.apply left right ↔ match operator with
      | and => id ∈ left ∧ id ∈ right
      | or => id ∈ left ∨ id ∈ right
      | xor => (id ∈ left ∧ id ∉ right) ∨ (id ∉ left ∧ id ∈ right) := by
  cases operator <;> simp [apply]

end SetOperator

/-- The nodes of type `nodeType` that stand in `relation` to the node `nodeName`; a leaf without a name is about
the node that the caller supplies. -/
structure Leaf where
  relation : Relation
  nodeType : String
  nodeName : Option String
deriving DecidableEq

namespace Leaf

def nameOr (leaf : Leaf) (fallback : Option String) : Option String := leaf.nodeName.or fallback

def render (leaf : Leaf) : String :=
  let start := leaf.relation.keyword ++ " " ++ leaf.nodeType
  match leaf.nodeName with
  | some name => start ++ " " ++ name
  | none => start

end Leaf

/-- The shape of a pair of brackets; both shapes group alike. -/
inductive Bracket
  | round | square
deriving DecidableEq

namespace Bracket

def opening : Bracket → Char
  | round => '('
  | square => '['

def closing : Bracket → Char
  | round => ')'
  | square => ']'

end Bracket

inductive Expr
  | leaf (leaf : Leaf)
  | group (bracket : Bracket) (inner : Expr)
  | binary (operator : SetOperator) (left right : Expr)
deriving DecidableEq

namespace Expr

def leaves : Expr → List Leaf
  | leaf query => [query]
  | group _ inner => inner.leaves
  | binary _ left right => left.leaves ++ right.leaves

/-- The leaves of the expressions on a stack, from its top down. -/
def gather : List Expr → List Leaf
  | [] => []
  | leaf query :: stack => query :: gather stack
  | group _ inner :: stack => gather (inner :: stack)
  | binary _ left right :: stack => gather (left :: right :: stack)
termination_by stack => sizeOf stack
decreasing_by
  · decreasing_tactic
  · decreasing_tactic
  · rename_i operator
    simp only [List.cons.sizeOf_spec, binary.sizeOf_spec]
    have weighs : 0 < sizeOf operator := by cases operator <;> decide
    omega

theorem gather_cons (expr : Expr) (stack : List Expr) : gather (expr :: stack) = expr.leaves ++ gather stack := by
  induction expr generalizing stack with
  | leaf query => rw [gather, leaves, List.singleton_append]
  | group _ inner ih => rw [gather, ih, leaves]
  | binary _ left right leftIh rightIh => rw [gather, leftIh, rightIh, leaves, List.append_assoc]

theorem gather_singleton (expr : Expr) : gather [expr] = expr.leaves := by
  rw [gather_cons, gather, List.append_nil]

def needsFallback (expr : Expr) : Bool := (gather [expr]).any fun leaf => leaf.nodeName.isNone

def render : Expr → String
  | leaf query => query.render
  | group bracket inner => bracket.opening.toString ++ inner.render ++ bracket.closing.toString
  | binary operator left right => left.render ++ " " ++ operator.keyword ++ " " ++ right.render

end Expr

end Query

end SupplyGraph
