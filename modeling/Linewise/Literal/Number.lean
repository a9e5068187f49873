/-
  Numeric literals.

  A literal may carry one sign and underscores between digits. With the head `0x`, `0b` or `0o` in
  either case it is an integer in base 16, 2 or 8; otherwise it is a decimal with an optional
  fraction and exponent. Integers are those of 64 bits with sign. After a head, a second sign is
  taken as the integer's own.
-/
import Linewise.Text.Basic

namespace Linewise.Number

open Text

/-! ## 1. Integers of 64 bits -/

/-- The value of a digit, if it is one in this base. -/
def digit? (base : Nat) (c : Char) : Option Nat :=
  let value :=
    if c.isDigit then some (c.toNat - '0'.toNat)
    else if 'a' ≤ c ∧ c ≤ 'z' then some (c.toNat - 'a'.toNat + 10)
    else if 'A' ≤ c ∧ c ≤ 'Z' then some (c.toNat - 'A'.toNat + 10)
    else none
  value.filter (· < base)

/-- The value of a run of digits read on from `acc`. -/
def natFrom? (base : Nat) (acc : Nat) : Text → Option Nat
  | [] => some acc
  | c :: r => (digit? base c).bind fun d => natFrom? base (acc * base + d) r

/-- A run of at least one digit. -/
def nat? (base : Nat) (s : Text) : Option Nat := if s.isEmpty then none else natFrom? base 0 s

/-- One more than the largest integer of 64 bits with sign. -/
def int64Bound : Nat := 0x8000000000000000

/-- An integer with an optional sign, if it fits into 64 bits. -/
def int64? (base : Nat) : Text → Option Int
  | '-' :: r => ((nat? base r).filter (· ≤ int64Bound)).map Int.negOfNat
  | '+' :: r => ((nat? base r).filter (· < int64Bound)).map Int.ofNat
  | s => ((nat? base s).filter (· < int64Bound)).map Int.ofNat

/-! ## 2. Decimals with fraction and exponent -/

/-- Nothing, or an exponent: `e` or `E`, an optional sign, at least one digit. -/
def isExponent : Text → Bool
  | [] => true
  | c :: r =>
    (c == 'e' || c == 'E')
      && (let digits := match r with
            | '+' :: t => t
            | '-' :: t => t
            | t => t
          !digits.isEmpty && digits.all Char.isDigit)

/-- Digits, a point, digits, an exponent: at least one digit, the point and the exponent optional. -/
def isDecimal (s : Text) : Bool :=
  let whole := s.takeWhile Char.isDigit
  match s.dropWhile Char.isDigit with
  | '.' :: r =>
    let fraction := r.takeWhile Char.isDigit
    !(whole.isEmpty && fraction.isEmpty) && isExponent (r.dropWhile Char.isDigit)
  | r => !whole.isEmpty && isExponent r

/-! ## 3. Literals -/

/-- The literal without surrounding white space, underscores and one sign. -/
def magnitude (s : Text) : Text :=
  match (trim s).filter (· != '_') with
  | '-' :: r => r
  | '+' :: r => r
  | r => r

/-- A digit comes first, perhaps after a point. -/
def startsNumeric : Text → Bool
  | '.' :: c :: _ => c.isDigit
  | c :: _ => c.isDigit
  | [] => false

/-- The base a head announces, and what follows the head. -/
def radix? : Text → Option (Nat × Text)
  | '0' :: c :: r =>
    if c == 'x' || c == 'X' then some (16, r)
    else if c == 'b' || c == 'B' then some (2, r)
    else if c == 'o' || c == 'O' then some (8, r)
    else none
  | _ => none

/-- A literal of the integer or the floating-point kind. -/
def isNumber (s : Text) : Bool :=
  let m := magnitude s
  startsNumeric m
    && match radix? m with
      | some (base, digits) => (int64? base digits).isSome
      | none => isDecimal m

end Linewise.Number
