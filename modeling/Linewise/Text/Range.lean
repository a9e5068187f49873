/-
  Classes of characters given by intervals of code points.

  A character property of the Unicode Character Database, here in its version 17.0, is a table of
  closed intervals. Below U+0080 every property used here is a handful of characters, and the
  tables start at U+0080. A long table is given by the lengths of its gaps and intervals.
-/

namespace Linewise

/-- Some interval of the table holds the code point. -/
def inRanges (table : List (Nat × Nat)) (n : Nat) : Bool :=
  table.any fun (lo, hi) => lo ≤ n && n ≤ hi

/-- The intervals of a table of lengths: from `start` on, code points stand outside and inside by turns. -/
def intervals (start : Nat) : List Nat → List (Nat × Nat)
  | outside :: inside :: rest =>
    (start + outside, start + outside + inside - 1) :: intervals (start + outside + inside) rest
  | _ => []

end Linewise
