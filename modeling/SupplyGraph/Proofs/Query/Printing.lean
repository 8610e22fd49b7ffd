import SupplyGraph.Proofs.Query.Grammar

/-!
Printed scripts are read back. The text of an expression splits into the tokens of its derivation, since brackets and
blanks stand wherever two words meet; an operator takes all that follows it, so brackets are only needed on its left.
-/

namespace SupplyGraph.Query

/-- Types and names are identifiers, and no operation is the left operand of another one but within brackets. -/
def Expr.Printable : Expr → Prop
  | leaf query => Identifier query.nodeType ∧ ∀ name ∈ query.nodeName, Identifier name
  | group _ inner => inner.Printable
  | binary _ left right => (∀ op first second, left ≠ .binary op first second) ∧ left.Printable ∧ right.Printable

variable {category : Category}

namespace Derivation

theorem printable (derivation : Derivation category)
    (spelled : ∀ text, Token.word text ∈ derivation.tokens → Identifier text) : derivation.expr.Printable := by
  induction derivation with
  | leaf query =>
      refine ⟨spelled query.nodeType (by simp [tokens, Leaf.tokens]), fun name named => spelled name ?_⟩
      simp [tokens, Leaf.tokens, Option.mem_def.1 named]
  | group bracket inner ih => exact ih fun text listed => spelled text (by simp [tokens, listed])
  | single term ih => exact ih spelled
  | operation op left right ihLeft ihRight =>
      refine ⟨expr_ne_binary left, ihLeft fun text listed => ?_, ihRight fun text listed => ?_⟩
      · exact spelled text (by simp [tokens, listed])
      · exact spelled text (by simp [tokens, listed])

theorem exists_of_printable {expr : Expr} (printable : expr.Printable) :
    ∃ derivation : Derivation .expression, derivation.expr = expr := by
  induction expr with
  | leaf query => exact ⟨.single (.leaf query), rfl⟩
  | group bracket inner ih =>
      obtain ⟨derivation, rfl⟩ := ih printable
      exact ⟨.single (.group bracket derivation), rfl⟩
  | binary op left right ihLeft ihRight =>
      obtain ⟨term, leftPrintable, rightPrintable⟩ := printable
      obtain ⟨first, rfl⟩ := ihLeft leftPrintable
      obtain ⟨second, rfl⟩ := ihRight rightPrintable
      cases first with
      | single first => exact ⟨.operation op first second, rfl⟩
      | operation other outer inner => exact absurd rfl (term other outer.expr inner.expr)

end Derivation

theorem Splits.spaced {front back : List Char} {before after : List Token} (first : Splits front before)
    (second : Splits back after) : Splits (front ++ ' ' :: back) (before ++ after) := by
  have white : Text.isBlank ' ' := by decide
  refine first.append (.blank white second) (.of_head fun d isHead => ?_)
  obtain rfl := Option.some.inj isHead
  exact .inl white

theorem Relation.identifier_keyword (relation : Relation) : Identifier relation.keyword where
  shape := by cases relation <;> exact ⟨'d', _, rfl, Token.isIdentifier_cons.1 (by decide)⟩
  free op := by cases relation <;> cases op <;> decide

theorem Leaf.splits_render {leaf : Leaf} (printable : (Expr.leaf leaf).Printable) :
    Splits leaf.render.toList leaf.tokens := by
  obtain ⟨relation, nodeType, nodeName⟩ := leaf
  obtain ⟨isType, isName⟩ := printable
  have start : Splits (relation.keyword ++ " " ++ nodeType).toList [.word relation.keyword, .word nodeType] := by
    have split := relation.identifier_keyword.spells.splits.spaced isType.spells.splits
    simpa using split
  cases nodeName with
  | none => exact start
  | some name => simpa [render, tokens] using start.spaced (isName name rfl).spells.splits

theorem Derivation.splits_render (derivation : Derivation category) (printable : derivation.expr.Printable) :
    Splits derivation.expr.render.toList derivation.tokens := by
  induction derivation with
  | leaf query => exact query.splits_render printable
  | single term ih => exact ih printable
  | group bracket inner ih =>
      have apart : Apart inner.expr.render.toList [bracket.closing] := .of_head fun d isHead => by
        obtain rfl := Option.some.inj isHead
        exact .inr ⟨bracket, .inr rfl⟩
      have split := Splits.opening bracket ((ih printable).append (.closing bracket .nil) apart)
      simpa [expr, Expr.render, tokens, Char.toString] using split
  | operation op left right ihLeft ihRight =>
      obtain ⟨-, leftPrintable, rightPrintable⟩ := printable
      have rest := (Spells.operator op).splits.spaced (ihRight rightPrintable)
      simpa [expr, Expr.render, tokens] using (ihLeft leftPrintable).spaced rest

/-- Exactly the printable expressions are read back from their texts, and only printable ones are ever read. So the
text of an accepted script stands for the same expression, and is printed again as it is. -/
theorem parseScript_render :
    (∀ expr : Expr, expr.Printable ↔ parseScript expr.render = .ok expr) ∧
    ∀ (text : String) (expr : Expr), parseScript text = .ok expr →
      expr.Printable ∧ parseScript expr.render = .ok expr ∧
        (parseScript expr.render).map Expr.render = .ok expr.render := by
  have printable {text : String} {expr : Expr} (accepted : parseScript text = .ok expr) : expr.Printable := by
    obtain ⟨derivation, splits, rfl⟩ := parseScript_eq_ok.1 accepted
    exact derivation.printable fun word listed => splits.identifier listed
  have accepted {expr : Expr} (isPrintable : expr.Printable) : parseScript expr.render = .ok expr := by
    obtain ⟨derivation, rfl⟩ := Derivation.exists_of_printable isPrintable
    exact parseScript_eq_ok.2 ⟨derivation, derivation.splits_render isPrintable, rfl⟩
  refine ⟨fun expr => ⟨accepted, printable⟩, fun text expr read => ?_⟩
  have again := accepted (printable read)
  exact ⟨printable read, again, map_eq_ok.2 ⟨expr, again, rfl⟩⟩

theorem parseScript_render_respaced :
    ∃ expr, parseScript "(dependencies lib)  or[dependents app a]xor dependents dependents" = .ok expr ∧
      expr.Printable ∧ parseScript expr.render = .ok expr ∧
      expr.render = "(dependencies lib) or [dependents app a] xor dependents dependents" := by
  have read : parseScript "(dependencies lib)  or[dependents app a]xor dependents dependents" =
      .ok (.binary .or (.group .round (.leaf ⟨.dependencies, "lib", none⟩))
        (.binary .xor (.group .square (.leaf ⟨.dependents, "app", some "a"⟩))
          (.leaf ⟨.dependents, "dependents", none⟩))) := by decide +kernel
  obtain ⟨printable, again, -⟩ := parseScript_render.2 _ _ read
  exact ⟨_, read, printable, again, by decide +kernel⟩

end SupplyGraph.Query
