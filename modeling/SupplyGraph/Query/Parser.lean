import SupplyGraph.Query.Token

/-!
Reading scripts by recursive descent. The grammar is

    expression := term (operator expression)?
    term       := leaf | "(" expression ")" | "[" expression "]"
    leaf       := word word word?

where the first word of a leaf names its relation. An operator binds everything to its right within its brackets.
-/

namespace SupplyGraph.Query

/-- A value that was read off the front of `tokens`, and what stands behind it. -/
structure Part (α : Type) (tokens : List (Located Token)) where
  value : α
  rest : List (Located Token)
  shorter : rest.length < tokens.length

/-- Everything has been read. -/
def Part.complete {α : Type} {tokens : List (Located Token)} (part : Part α tokens) : Except SyntaxError α :=
  match part.rest with
  | [] => .ok part.value
  | token :: _ => .error ⟨.unexpected token.item, token.offset⟩

/-- Where the next token starts; behind the last one comes `stop`, the end of the text. -/
def nextOffset (stop : Nat) : List (Located Token) → Nat
  | [] => stop
  | token :: _ => token.offset

def readWord (expected : Option Token → SyntaxFault) (stop : Nat) (tokens : List (Located Token)) :
    Except SyntaxError (Part String tokens) :=
  match tokens with
  | ⟨.word text, _⟩ :: rest => .ok ⟨text, rest, Nat.lt_succ_self _⟩
  | tokens => .error ⟨expected (tokens.head?.map (·.item)), nextOffset stop tokens⟩

def readLeaf (stop : Nat) (tokens : List (Located Token)) : Except SyntaxError (Part Leaf tokens) := do
  let ⟨keyword, rest, shorter⟩ ← readWord .queryTypeExpected stop tokens
  match Relation.ofKeyword? keyword with
  | none => throw ⟨.unknownQueryType keyword, nextOffset stop tokens⟩
  | some relation =>
    let ⟨nodeType, rest, evenShorter⟩ ← readWord .nodeTypeExpected stop rest
    match rest, Nat.lt_trans evenShorter shorter with
    | ⟨.word nodeName, _⟩ :: rest, shorter =>
      return ⟨⟨relation, nodeType, some nodeName⟩, rest, Nat.lt_of_succ_lt shorter⟩
    | rest, shorter => return ⟨⟨relation, nodeType, none⟩, rest, shorter⟩

mutual

def readTerm (stop : Nat) (tokens : List (Located Token)) : Except SyntaxError (Part Expr tokens) :=
  match tokens with
  | ⟨.opening bracket, _⟩ :: inside => do
    let ⟨inner, rest, shorter⟩ ← readExpression stop inside
    match rest, shorter with
    | [], _ => throw ⟨.unclosedGroup, stop⟩
    | token :: rest, shorter =>
      if token.item = .closing bracket then
        return ⟨.group bracket inner, rest, Nat.lt_succ_of_lt (Nat.lt_of_succ_lt shorter)⟩
      else throw ⟨.unbalancedGroup token.item, token.offset⟩
  | tokens => do
    let ⟨leaf, rest, shorter⟩ ← readLeaf stop tokens
    return ⟨.leaf leaf, rest, shorter⟩
termination_by 2 * tokens.length

def readExpression (stop : Nat) (tokens : List (Located Token)) : Except SyntaxError (Part Expr tokens) := do
  let ⟨left, rest, shorter⟩ ← readTerm stop tokens
  match rest, shorter with
  | ⟨.operator op, _⟩ :: behind, shorter =>
    let shorter := Nat.lt_of_succ_lt shorter
    let ⟨right, rest, evenShorter⟩ ← readExpression stop behind
    return ⟨.binary op left right, rest, Nat.lt_trans evenShorter shorter⟩
  | rest, shorter => return ⟨left, rest, shorter⟩
termination_by 2 * tokens.length + 1

end

def parseScript (text : String) : Except SyntaxError Expr := do
  let tokens ← Token.ofText text
  if tokens.isEmpty then throw ⟨.emptyScript, 0⟩
  (← readExpression text.utf8ByteSize tokens).complete

def parseLeaf (text : String) : Except SyntaxError Leaf := do
  (← readLeaf text.utf8ByteSize (← Token.ofText text)).complete

end SupplyGraph.Query
