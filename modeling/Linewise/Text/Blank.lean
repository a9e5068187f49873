/-
  White space: the property White_Space.

  Every trimming and every cut at white space in this library reads this class.
-/
import Linewise.Text.Range

namespace Linewise

/-- White_Space from U+0080 on. -/
def blankRanges : List (Nat × Nat) :=
  [(0x85, 0x85), (0xA0, 0xA0), (0x1680, 0x1680), (0x2000, 0x200A), (0x2028, 0x2029),
   (0x202F, 0x202F), (0x205F, 0x205F), (0x3000, 0x3000)]

/-- White space: the space, tab to carriage return (U+0009 to U+000D), and `blankRanges`. -/
def isBlank (c : Char) : Bool :=
  if c.toNat < 0x80 then c == ' ' || (9 ≤ c.toNat && c.toNat ≤ 13)
  else inRanges blankRanges c.toNat

end Linewise
