import SupplyGraph.Proofs.Query.Tokens

/-!
The reader against the grammar. A derivation is a tree of the grammar's rules; the reader accepts the tokens that
have a derivation, gives its expression, and there is no second derivation.
-/

namespace SupplyGraph.Query

def Leaf.tokens (leaf : Leaf) : List Token :=
  .word leaf.relation.keyword :: .word leaf.nodeType :: leaf.nodeName.toList.map .word

inductive Category
  | expression | term

/-- Derivations of `expression := term (operator expression)?` and
`term := leaf | "(" expression ")" | "[" expression "]"`. -/
inductive Derivation : Category → Type
  | leaf (leaf : Leaf) : Derivation .term
  | group (bracket : Bracket) (inner : Derivation .expression) : Derivation .term
  | single (term : Derivation .term) : Derivation .expression
  | operation (operator : SetOperator) (left : Derivation .term) (right : Derivation .expression) :
      Derivation .expression

namespace Derivation

variable {category : Category}

def tokens : {category : Category} → Derivation category → List Token
  | _, leaf query => query.tokens
  | _, group bracket inner => .opening bracket :: inner.tokens ++ [.closing bracket]
  | _, single term => term.tokens
  | _, operation op left right => left.tokens ++ .operator op :: right.tokens

def expr : {category : Category} → Derivation category → Expr
  | _, leaf query => .leaf query
  | _, group bracket inner => .group bracket inner.expr
  | _, single term => term.expr
  | _, operation op left right => .binary op left.expr right.expr

theorem expr_ne_binary (term : Derivation .term) (op : SetOperator) (left right : Expr) :
    term.expr ≠ .binary op left right := by
  cases term <;> simp [expr]

theorem expr_injective {first second : Derivation category} (same : first.expr = second.expr) : first = second := by
  induction first with
  | leaf leaf =>
      cases second with
      | leaf other => simpa [expr] using same
      | group => cases same
  | group bracket inner ih =>
      cases second with
      | leaf => cases same
      | group other content =>
          obtain ⟨rfl, sameInner⟩ := Expr.group.inj same
          rw [ih sameInner]
  | single term ih =>
      cases second with
      | single other => rw [ih same]
      | operation => exact absurd same (expr_ne_binary term _ _ _)
  | operation op left right ihLeft ihRight =>
      cases second with
      | single term => exact absurd same.symm (expr_ne_binary term _ _ _)
      | operation =>
          obtain ⟨rfl, sameLeft, sameRight⟩ := Expr.binary.inj same
          rw [ihLeft sameLeft, ihRight sameRight]

theorem tokens_ne_nil (derivation : Derivation category) : derivation.tokens ≠ [] := by
  induction derivation with
  | leaf leaf => exact List.cons_ne_nil _ _
  | group bracket inner ih => exact List.cons_ne_nil _ _
  | single term ih => exact ih
  | operation op left right ihLeft ihRight => simp [tokens]

theorem eq_leaf_of_expr {derivation : Derivation .expression} {leaf : Leaf} (same : derivation.expr = .leaf leaf) :
    derivation = .single (.leaf leaf) :=
  expr_injective same

end Derivation

theorem ofKeyword?_keyword (relation : Relation) : Relation.ofKeyword? relation.keyword = some relation := by
  cases relation <;> rfl

theorem keyword_of_ofKeyword? {text : String} {relation : Relation}
    (found : Relation.ofKeyword? text = some relation) : text = relation.keyword := by
  unfold Relation.ofKeyword? at found
  split at found <;> cases found <;> rfl

/-- What stands behind the derived tokens does not go on with them. -/
def Derivation.Ends : {category : Category} → Derivation category → Option Token → Prop
  | _, leaf query, next => query.nodeName = none → ∀ text, next ≠ some (.word text)
  | _, group _ _, _ => True
  | _, single term, next => term.Ends next ∧ ∀ op, next ≠ some (.operator op)
  | _, operation _ _ right, next => right.Ends next

theorem Derivation.ends_none (derivation : Derivation category) : derivation.Ends none := by
  induction derivation with
  | leaf query => exact fun _ _ => nofun
  | group bracket inner ih => trivial
  | single term ih => exact ⟨ih, fun _ => nofun⟩
  | operation op left right ihLeft ihRight => exact ihRight

theorem Derivation.ends_of_not_word (term : Derivation .term) {next : Token} (noWord : ∀ text, next ≠ .word text) :
    term.Ends (some next) := by
  cases term with
  | leaf query => exact fun _ text same => noWord text (Option.some.inj same)
  | group bracket inner => trivial

theorem Derivation.ends_closing (derivation : Derivation category) (bracket : Bracket) :
    derivation.Ends (some (.closing bracket)) := by
  induction derivation with
  | leaf query => exact fun _ _ => nofun
  | group bracket inner ih => trivial
  | single term ih => exact ⟨ih, fun _ => nofun⟩
  | operation op left right ihLeft ihRight => exact ihRight

namespace Category

def read : (category : Category) → Nat → (located : List (Located Token)) →
    Except SyntaxError (Part Expr located)
  | .term => readTerm
  | .expression => readExpression

end Category

variable {stop : Nat} {located : List (Located Token)}

theorem eq_cons_of_head? {token : Token} (next : located.head?.map (·.item) = some token) :
    ∃ offset rest, located = ⟨token, offset⟩ :: rest := by
  obtain ⟨⟨_, offset⟩, first, rfl⟩ := Option.map_eq_some_iff.1 next
  obtain ⟨rest, same⟩ := List.head?_eq_some_iff.1 first
  exact ⟨offset, rest, same⟩

theorem readWord_eq_ok {expected : Option Token → SyntaxFault} {text : String} {rest : List (Located Token)}
    {shorter : rest.length < located.length} :
    readWord expected stop located = .ok ⟨text, rest, shorter⟩ ↔ ∃ offset, located = ⟨.word text, offset⟩ :: rest := by
  constructor
  · intro read
    unfold readWord at read
    split at read
    · cases read
      exact ⟨_, rfl⟩
    · cases read
  · rintro ⟨offset, rfl⟩
    rfl

theorem readLeaf_sound {part : Part Leaf located} (read : readLeaf stop located = .ok part) :
    ∃ front, located = front ++ part.rest ∧ front.map (·.item) = part.value.tokens ∧
      (Derivation.leaf part.value).Ends (part.rest.head?.map (·.item)) := by
  obtain ⟨⟨keyword, rest, shorter⟩, readKeyword, read⟩ := bind_eq_ok.1 read
  obtain ⟨offset, rfl⟩ := readWord_eq_ok.1 readKeyword
  dsimp only at read
  split at read
  next => cases read
  next relation known =>
    obtain rfl := keyword_of_ofKeyword? known
    obtain ⟨⟨nodeType, behind, evenShorter⟩, readType, read⟩ := bind_eq_ok.1 read
    obtain ⟨typeOffset, rfl⟩ := readWord_eq_ok.1 readType
    dsimp only at read
    split at read
    next =>
      cases read
      exact ⟨[_, _, _], rfl, rfl, nofun⟩
    next noWord =>
      cases read
      refine ⟨[_, _], rfl, rfl, fun _ text next => ?_⟩
      obtain ⟨offset, others, rfl⟩ := eq_cons_of_head? next
      exact noWord text offset others _ rfl HEq.rfl

theorem readLeaf_tokens (leaf : Leaf) {more : List Token} (same : located.map (·.item) = leaf.tokens ++ more)
    (ends : (Derivation.leaf leaf).Ends more.head?) :
    ∃ part, readLeaf stop located = .ok part ∧ part.value = leaf ∧ part.rest.map (·.item) = more := by
  obtain ⟨relation, nodeType, nodeName⟩ := leaf
  simp only [Leaf.tokens, List.cons_append, List.map_eq_cons_iff] at same
  obtain ⟨⟨_, keywordOffset⟩, _, rfl, rfl, ⟨_, typeOffset⟩, rest, rfl, rfl, same⟩ := same
  cases nodeName with
  | some name =>
      obtain ⟨⟨_, nameOffset⟩, behind, rfl, rfl, rfl⟩ := List.map_eq_cons_iff.1 same
      cases relation <;> exact ⟨_, rfl, rfl, rfl⟩
  | none =>
      obtain rfl := same
      rcases rest with - | ⟨⟨_ | _ | _ | _, offset⟩, behind⟩
      case cons.word text => exact absurd rfl (ends rfl text)
      all_goals cases relation <;> exact ⟨_, rfl, rfl, rfl⟩

theorem readTerm_of_readLeaf {leaf : Leaf} {rest : List (Located Token)} {shorter : rest.length < located.length}
    (read : readLeaf stop located = .ok ⟨leaf, rest, shorter⟩) :
    readTerm stop located = .ok ⟨.leaf leaf, rest, shorter⟩ := by
  unfold readTerm
  split
  · cases read
  · exact bind_eq_ok.2 ⟨_, read, rfl⟩

theorem read_tokens (stop : Nat) (derivation : Derivation category) {more : List Token}
    (same : located.map (·.item) = derivation.tokens ++ more) (ends : derivation.Ends more.head?) :
    ∃ part, category.read stop located = .ok part ∧ part.value = derivation.expr ∧ part.rest.map (·.item) = more := by
  induction derivation generalizing located more with
  | leaf leaf =>
      obtain ⟨⟨leaf, rest, shorter⟩, read, rfl, rfl⟩ := readLeaf_tokens leaf same ends
      exact ⟨_, readTerm_of_readLeaf read, rfl, rfl⟩
  | group bracket inner ih =>
      obtain ⟨⟨_, offset⟩, inside, rfl, rfl, others⟩ := List.map_eq_cons_iff.1 same
      have others : inside.map (·.item) = inner.tokens ++ .closing bracket :: more :=
        others.trans (List.append_assoc ..)
      obtain ⟨⟨_, rest, shorter⟩, read, rfl, items⟩ := ih others (inner.ends_closing bracket)
      obtain ⟨⟨_, closingOffset⟩, behind, rfl, rfl, rfl⟩ := List.map_eq_cons_iff.1 items
      rw [Category.read, readTerm]
      exact ⟨_, bind_eq_ok.2 ⟨_, read, if_pos rfl⟩, rfl, rfl⟩
  | single term ih =>
      obtain ⟨⟨_, rest, shorter⟩, read, rfl, rfl⟩ := ih same ends.1
      refine ⟨⟨term.expr, rest, shorter⟩, ?_, rfl, rfl⟩
      rw [Category.read, readExpression]
      refine bind_eq_ok.2 ⟨_, read, ?_⟩
      dsimp only
      split
      next op _ _ _ => exact absurd rfl (ends.2 op)
      next => rfl
  | operation op left right ihLeft ihRight =>
      rw [Derivation.tokens, List.append_assoc] at same
      obtain ⟨⟨_, rest, shorter⟩, readLeft, rfl, items⟩ := ihLeft same (left.ends_of_not_word (by simp))
      obtain ⟨⟨_, offset⟩, behind, rfl, rfl, others⟩ := List.map_eq_cons_iff.1 items
      obtain ⟨⟨_, rest, evenShorter⟩, readRight, rfl, rfl⟩ := ihRight others ends
      rw [Category.read, readExpression]
      exact ⟨_, bind_eq_ok.2 ⟨_, readLeft, bind_eq_ok.2 ⟨_, readRight, rfl⟩⟩, rfl, rfl⟩

theorem Derivation.eq_of_append {first second : Derivation category} {more others : List Token}
    (same : first.tokens ++ more = second.tokens ++ others) (ends : first.Ends more.head?)
    (endsOther : second.Ends others.head?) : first = second ∧ more = others := by
  obtain ⟨located, items⟩ : ∃ located : List (Located Token), located.map (·.item) = first.tokens ++ more :=
    ⟨(first.tokens ++ more).map (⟨·, 0⟩), by simp [Function.comp_def]⟩
  obtain ⟨part, read, value, rest⟩ := read_tokens 0 first items ends
  obtain ⟨other, readOther, valueOther, restOther⟩ := read_tokens 0 second (items.trans same) endsOther
  obtain rfl := Except.ok.inj (read.symm.trans readOther)
  exact ⟨expr_injective (value.symm.trans valueOther), rest.symm.trans restOther⟩

def Category.Derives (category : Category) (located : List (Located Token)) (value : Expr)
    (rest : List (Located Token)) : Prop :=
  ∃ (front : List (Located Token)) (derivation : Derivation category), located = front ++ rest ∧
    front.map (·.item) = derivation.tokens ∧ derivation.expr = value ∧ derivation.Ends (rest.head?.map (·.item))

theorem read_sound (stop : Nat) :
    (∀ located part, readTerm stop located = .ok part → Category.term.Derives located part.value part.rest) ∧
    ∀ located part, readExpression stop located = .ok part →
      Category.expression.Derives located part.value part.rest := by
  apply readTerm.mutual_induct
  case case1 =>
    intro bracket offset inside ih part read
    rw [readTerm] at read
    obtain ⟨⟨inner, rest, shorter⟩, readInner, read⟩ := bind_eq_ok.1 read
    have derived : Category.expression.Derives inside inner rest := ih _ readInner
    dsimp only at read
    split at read
    next => cases read
    next closing behind _ =>
      obtain ⟨front, derivation, rfl, items, rfl, -⟩ := derived
      split at read
      next isClosing =>
        cases read
        refine ⟨⟨.opening bracket, offset⟩ :: front ++ [closing], .group bracket derivation, ?_, ?_, rfl, trivial⟩
        · simp
        · simp [items, isClosing, Derivation.tokens]
      next => cases read
  case case2 =>
    intro located noOpening part read
    rw [readTerm.eq_2 _ _ noOpening] at read
    obtain ⟨⟨leaf, rest, shorter⟩, readLeaf, read⟩ := bind_eq_ok.1 read
    cases read
    obtain ⟨front, split, items, ends⟩ := readLeaf_sound readLeaf
    exact ⟨front, .leaf leaf, split, items, rfl, ends⟩
  case case3 =>
    intro located ihLeft ihRight part read
    rw [readExpression] at read
    obtain ⟨⟨left, rest, shorter⟩, readLeft, read⟩ := bind_eq_ok.1 read
    have derived : Category.term.Derives located left rest := ihLeft _ readLeft
    dsimp only at read
    split at read
    next op opOffset behind shorter =>
      obtain ⟨⟨right, rest, evenShorter⟩, readRight, read⟩ := bind_eq_ok.1 read
      cases read
      obtain ⟨back, derivation, rfl, others, rfl, ends⟩ : Category.expression.Derives behind right rest :=
        ihRight op opOffset behind shorter _ readRight
      obtain ⟨front, term, rfl, items, rfl, -⟩ := derived
      refine ⟨front ++ ⟨.operator op, opOffset⟩ :: back, .operation op term derivation, ?_, ?_, rfl, ends⟩
      · simp
      · simp [items, others, Derivation.tokens]
    next noOperator =>
      cases read
      obtain ⟨front, term, split, items, value, ends⟩ := derived
      refine ⟨front, .single term, split, items, value, ends, fun op next => ?_⟩
      obtain ⟨offset, behind, rfl⟩ := eq_cons_of_head? next
      exact noOperator op offset behind _ rfl HEq.rfl

theorem Part.complete_eq_ok {α : Type} {part : Part α located} {value : α} :
    part.complete = .ok value ↔ part.rest = [] ∧ part.value = value := by
  unfold Part.complete
  split <;> simp_all

theorem parseScript_eq_ok {text : String} {expr : Expr} :
    parseScript text = .ok expr ↔
      ∃ derivation : Derivation .expression, Splits text.toList derivation.tokens ∧ derivation.expr = expr := by
  unfold parseScript
  rw [bind_eq_ok]
  constructor
  · rintro ⟨located, scanned, parsed⟩
    split at parsed
    next => cases parsed
    next =>
      obtain ⟨part, read, whole⟩ := bind_eq_ok.1 parsed
      obtain ⟨none, rfl⟩ := Part.complete_eq_ok.1 whole
      obtain ⟨front, derivation, split, items, value, -⟩ := (read_sound _).2 _ part read
      rw [none, List.append_nil] at split
      exact ⟨derivation, items ▸ split ▸ Token.scan_sound scanned, value⟩
  · rintro ⟨derivation, splits, rfl⟩
    obtain ⟨located, scanned, items⟩ := Token.ofText_exact.2 splits
    have some : ¬located.isEmpty := fun none =>
      derivation.tokens_ne_nil (by rw [← items, List.isEmpty_iff.1 none, List.map_nil])
    rw [← List.append_nil derivation.tokens] at items
    obtain ⟨part, read, value, none⟩ := read_tokens _ derivation items derivation.ends_none
    refine ⟨located, scanned, ?_⟩
    rw [if_neg some]
    exact bind_eq_ok.2 ⟨part, read, Part.complete_eq_ok.2 ⟨List.map_eq_nil_iff.1 none, value⟩⟩

theorem parseLeaf_eq_ok {text : String} {leaf : Leaf} :
    parseLeaf text = .ok leaf ↔ Splits text.toList leaf.tokens := by
  unfold parseLeaf
  rw [bind_eq_ok, ← Token.ofText_exact]
  constructor
  · rintro ⟨located, scanned, parsed⟩
    obtain ⟨part, read, whole⟩ := bind_eq_ok.1 parsed
    obtain ⟨none, rfl⟩ := Part.complete_eq_ok.1 whole
    obtain ⟨front, split, items, -⟩ := readLeaf_sound read
    rw [none, List.append_nil] at split
    exact ⟨located, scanned, split ▸ items⟩
  · rintro ⟨located, scanned, items⟩
    rw [← List.append_nil leaf.tokens] at items
    obtain ⟨part, read, value, none⟩ := readLeaf_tokens leaf items (Derivation.leaf leaf).ends_none
    exact ⟨located, scanned, bind_eq_ok.2 ⟨part, read, Part.complete_eq_ok.2 ⟨List.map_eq_nil_iff.1 none, value⟩⟩⟩

/-- Scripts are accepted if and only if they split into tokens that have a derivation, which is the only one and
gives the result; the reader of leaves accepts those of them that are one leaf. -/
theorem parseScript_exact (text : String) :
    (∀ expr, parseScript text = .ok expr ↔
      ∃ derivation : Derivation .expression, Splits text.toList derivation.tokens ∧ derivation.expr = expr) ∧
    (∀ first second : Derivation .expression, Splits text.toList first.tokens → Splits text.toList second.tokens →
      first = second) ∧
    ∀ leaf, parseLeaf text = .ok leaf ↔ parseScript text = .ok (.leaf leaf) := by
  refine ⟨fun expr => parseScript_eq_ok, fun first second splits others => ?_, fun leaf => ?_⟩
  · have one := parseScript_eq_ok.2 ⟨first, splits, rfl⟩
    rw [parseScript_eq_ok.2 ⟨second, others, rfl⟩] at one
    exact Derivation.expr_injective (Except.ok.inj one).symm
  · rw [parseLeaf_eq_ok, parseScript_eq_ok]
    constructor
    · exact fun splits => ⟨.single (.leaf leaf), splits, rfl⟩
    · rintro ⟨derivation, splits, value⟩
      rwa [Derivation.eq_leaf_of_expr value] at splits

theorem parseScript_exact_group :
    ∃ derivation : Derivation .expression,
      Splits "(dependencies lib core)xor dependents app".toList derivation.tokens ∧
        derivation.expr = .binary .xor (.group .round (.leaf ⟨.dependencies, "lib", some "core"⟩))
          (.leaf ⟨.dependents, "app", none⟩) :=
  ((parseScript_exact _).1 _).1 (by decide +kernel)

end SupplyGraph.Query
