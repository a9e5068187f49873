/-
  Offsets counted in bytes of the UTF-8 encoding.

  Positions inside the library count characters. A byte offset appears where a caller counts
  bytes, and where an offset taken in one text is used in another (`Linewise/Lower/Loop.lean`). It
  need not fall between two characters, so a cut at a byte offset is partial.
-/
import Linewise.Text.Basic

namespace Linewise.Utf8

/-- Bytes of the encoding. -/
def size : Text → Nat
  | [] => 0
  | c :: r => c.utf8Size + size r

/-- The byte offset of the `i`th character. -/
def offset (s : Text) (i : Nat) : Nat := size (s.take i)

/-- The text before a byte offset and the text from it on; nothing if the offset lies past the
    end or inside a character. -/
def splitAt? : Nat → Text → Option (Text × Text)
  | 0, s => some ([], s)
  | _ + 1, [] => none
  | n + 1, c :: r =>
    if c.utf8Size ≤ n + 1 then
      (splitAt? (n + 1 - c.utf8Size) r).map fun (before, after) => (c :: before, after)
    else none

end Linewise.Utf8
