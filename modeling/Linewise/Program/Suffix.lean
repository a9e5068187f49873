/-
  String literals that have to be string objects.

  A literal that is the left operand of `+`, or the whole initializer of an `auto` declaration, is
  marked with the suffix `s`.
-/
import Linewise.Program.Segment

namespace Linewise

open Text

namespace Segment

/-- The code ends with `auto name =`, perhaps after `const`. -/
def endsInAutoInit (code : Text) : Bool :=
  match stripEnd? "=" (trim ((pieces (· == '\n') code).getLast?.getD code)) with
  | some declaration =>
    (stripStart? "auto " (stripStart "const " (trimEnd declaration))).any
      fun name => isIdentifier (trim name)
  | none => false

/-- A literal in double quotes, plain or raw, to judge by the quote at its end. -/
def isString (seg : Segment) : Bool :=
  seg.kind == .literal && !startsWith seg.text "'" && endsWith seg.text "\""

/-- The code of a segment, empty for other segments and for none. -/
def codeOf (seg : Option Segment) : Text :=
  match seg with
  | some ⟨.code, text⟩ => text
  | _ => []

/-- The literal between these neighbours needs its suffix. -/
def needsSuffix (before : Option Segment) (seg : Segment) (after : Option Segment) : Bool :=
  let next := trimStart (codeOf after)
  let concatenated := startsWith next "+" && !startsWith next "++" && !startsWith next "+="
  let initializer := startsWith next ";" && endsInAutoInit (codeOf before)
  seg.isString && (concatenated || initializer)

/-- The text of the segments that follow `before`, suffixes added. -/
def suffixed (before : Option Segment) : List Segment → Text
  | [] => []
  | seg :: rest =>
    seg.text ++ (if needsSuffix before seg rest.head? then ['s'] else []) ++ suffixed (some seg) rest

/-- Some segment of those that follow `before` needs a suffix. -/
def anySuffixed (before : Option Segment) : List Segment → Bool
  | [] => false
  | seg :: rest => needsSuffix before seg rest.head? || anySuffixed (some seg) rest

end Segment

/-- The text with its suffixes, and whether there are any. -/
def suffixStrings (s : Text) : Text × Bool :=
  (Segment.suffixed none (segments s), Segment.anySuffixed none (segments s))

end Linewise
