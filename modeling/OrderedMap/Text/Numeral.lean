/-!
Reading a decimal numeral of a signed 32-bit integer: an optional sign and at least one digit. The
first offending character decides about the error, and a character that is no digit is told before
the number that grows too large at it.
-/
namespace OrderedMap

inductive NumeralError
  | empty
  | invalidDigit
  | tooLarge
  | tooSmall
  deriving DecidableEq, Repr, Inhabited

namespace NumeralError

def message : NumeralError → String
  | empty => "cannot parse integer from empty string"
  | invalidDigit => "invalid digit found in string"
  | tooLarge => "number too large to fit in target type"
  | tooSmall => "number too small to fit in target type"

end NumeralError

/-- The integers of 32 bits with a sign. -/
def IsInt32 (n : Int) : Prop := -0x80000000 ≤ n ∧ n < 0x80000000

instance (n : Int) : Decidable (IsInt32 n) := inferInstanceAs (Decidable (_ ∧ _))

namespace Numeral

/-- Read digits on, each one of them counted with `sign`. -/
def digits (sign : Int) : Int → List Char → Except NumeralError Int
  | n, [] => .ok n
  | n, c :: rest =>
    if c.isDigit then
      let n := 10 * n + sign * (c.toNat - '0'.toNat : Nat)
      if IsInt32 n then
        digits sign n rest
      else
        .error (if sign < 0 then .tooSmall else .tooLarge)
    else
      .error .invalidDigit

/-- Read a whole text. -/
def parse (s : String) : Except NumeralError Int :=
  match s.toList with
  | [] => .error .empty
  | ['+'] | ['-'] => .error .invalidDigit
  | '+' :: rest => digits 1 0 rest
  | '-' :: rest => digits (-1) 0 rest
  | cs => digits 1 0 cs

end Numeral
end OrderedMap
