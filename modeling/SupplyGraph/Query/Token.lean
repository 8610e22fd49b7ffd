import SupplyGraph.Query.Expr
import SupplyGraph.Text.Blank

/-!
Tokens of the query language. White space and brackets separate words, brackets are tokens of their own, and
every word is the keyword of an operator or an identifier. A token is located by the number of UTF-8 bytes
in front of it.
-/

namespace SupplyGraph.Query

inductive Token
  | word (text : String)
  | operator (operator : SetOperator)
  | opening (bracket : Bracket)
  | closing (bracket : Bracket)
deriving DecidableEq

structure Located (α : Type) where
  item : α
  offset : Nat
deriving DecidableEq

inductive SyntaxFault
  | emptyScript
  | invalidIdentifier (word : String)
  | queryTypeExpected (found : Option Token)
  | unknownQueryType (word : String)
  | nodeTypeExpected (found : Option Token)
  | unbalancedGroup (found : Token)
  | unclosedGroup
  | unexpected (found : Token)
deriving DecidableEq

namespace Token

def text : Token → String
  | word text => text
  | operator op => op.keyword
  | opening bracket => bracket.opening.toString
  | closing bracket => bracket.closing.toString

def describe (token : Token) : String := s!"'{token.text}'"

def ofBracket? : Char → Option Token
  | '(' => some (opening .round)
  | ')' => some (closing .round)
  | '[' => some (opening .square)
  | ']' => some (closing .square)
  | _ => none

def isLetter (c : Char) : Bool := ('a' ≤ c && c ≤ 'z') || ('A' ≤ c && c ≤ 'Z')

def isIdentifierChar (c : Char) : Bool :=
  isLetter c || ('0' ≤ c && c ≤ '9') || [':', '/', '.', '_', '@', '-'].contains c

def isIdentifier : List Char → Bool
  | [] => false
  | first :: rest => isLetter first && rest.all isIdentifierChar

def isDelimiter (c : Char) : Bool := Text.isBlank c || (ofBracket? c).isSome

def ofWord (word : List Char) : Except SyntaxFault Token :=
  let text := String.ofList word
  match SetOperator.ofKeyword? text with
  | some op => .ok (operator op)
  | none => if isIdentifier word then .ok (Token.word text) else .error (.invalidIdentifier text)

end Token

namespace SyntaxFault

def messageExpecting (what : String) : Option Token → String
  | none => s!"expected {what}"
  | some token => s!"expected {what}, found {token.describe}"

def message : SyntaxFault → String
  | emptyScript => "empty script"
  | invalidIdentifier word => s!"invalid identifier '{word}'"
  | queryTypeExpected found => messageExpecting "query type" found
  | unknownQueryType word => s!"unknown query type '{word}', expected 'dependencies' or 'dependents'"
  | nodeTypeExpected found => messageExpecting "node type" found
  | unbalancedGroup found => s!"unbalanced group, found {found.describe}"
  | unclosedGroup => "unclosed group"
  | unexpected found => s!"unexpected {found.describe}"

end SyntaxFault

/-- A fault and the byte offset that it is blamed on. -/
structure SyntaxError where
  fault : SyntaxFault
  position : Nat
deriving DecidableEq

def SyntaxError.message (error : SyntaxError) : String := s!"Parse error at {error.position}: {error.fault.message}"

namespace Token

def width : List Char → Nat
  | [] => 0
  | c :: rest => c.utf8Size + width rest

def scan (offset : Nat) : List Char → Except SyntaxError (List (Located Token))
  | [] => .ok []
  | c :: rest =>
    if Text.isBlank c then scan (offset + c.utf8Size) rest
    else match ofBracket? c with
      | some bracket => do
        let others ← scan (offset + c.utf8Size) rest
        return ⟨bracket, offset⟩ :: others
      | none => do
        let word := c :: rest.takeWhile fun other => !isDelimiter other
        let token ← (ofWord word).mapError (⟨·, offset⟩)
        let others ← scan (offset + width word) (rest.dropWhile fun other => !isDelimiter other)
        return ⟨token, offset⟩ :: others
termination_by chars => chars.length
decreasing_by
  · simp
  · simp
  · exact Nat.lt_succ_of_le (List.dropWhile_sublist _).length_le

def ofText (text : String) : Except SyntaxError (List (Located Token)) := scan 0 text.toList

end Token

end SupplyGraph.Query
