/-!
Natural numbers in decimal, with an optional plus sign. The digits are taken from the left, so the first thing
that is wrong is what is reported.
-/

namespace SupplyGraph.Text

inductive NumberFault
  | empty | invalidDigit | tooLarge
deriving DecidableEq

def NumberFault.message : NumberFault → String
  | empty => "cannot parse integer from empty string"
  | invalidDigit => "invalid digit found in string"
  | tooLarge => "number too large to fit in target type"

def readDigits (bound value : Nat) : List Char → Except NumberFault Nat
  | [] => .ok value
  | c :: rest =>
    if '0' ≤ c ∧ c ≤ '9' then
      let next := value * 10 + (c.toNat - '0'.toNat)
      if next < bound then readDigits bound next rest else .error .tooLarge
    else .error .invalidDigit

def readNumber (bound : Nat) (chars : List Char) : Except NumberFault Nat :=
  match chars with
  | [] => .error .empty
  | ['+'] => .error .invalidDigit
  | '+' :: digits => readDigits bound 0 digits
  | digits => readDigits bound 0 digits

end SupplyGraph.Text
