/-
  Literals between backquotes become raw literals `R"(…)"`.

  One pass over a line: outside double and single quotes a backquote opens a raw literal and the
  next backquote closes it; everything else is copied. A backquote left open at the end of a line
  starts a literal that spans lines, and the pass on a later line starts where that literal
  closes.
-/
import Linewise.Text.Basic

namespace Linewise.Raw

/-- Where the pass stands. -/
inductive Mode where
  | code
  | quoted (quote : Char)
  | escaped (quote : Char)
  | raw
  deriving DecidableEq, Repr

/-- A line with its backquotes converted, and whether it ends inside a raw literal. -/
structure Converted where
  line : Text
  opened : Bool
  deriving DecidableEq, Repr

/-- What one character becomes, and the mode after it. -/
def Mode.step (c : Char) : Mode → Text × Mode
  | .raw => if c == '\x60' then (")\"", .code) else ([c], .raw)
  | .quoted q => ([c], if c == '\\' then .escaped q else if c == q then .code else .quoted q)
  | .escaped q => ([c], .quoted q)
  | .code =>
    if c == '\x60' then ("R\"(", .raw)
    else if c == '"' || c == '\'' then ([c], .quoted c)
    else ([c], .code)

/-- The pass from a given mode on. -/
def convertFrom (m : Mode) : Text → Converted
  | [] => ⟨[], m == .raw⟩
  | c :: r =>
    let (written, m') := m.step c
    let rest := convertFrom m' r
    ⟨written ++ rest.line, rest.opened⟩

/-- Convert the literals that start on a line. -/
def convert (line : Text) : Converted := convertFrom .code line

/-- Inside a literal that spans lines: nothing if the line does not close it, else the line with
    the closing backquote and all later literals converted. -/
def close? (line : Text) : Option Converted :=
  (line.idxOf? '\x60').map fun i =>
    let rest := convert (line.drop (i + 1))
    ⟨line.take i ++ ")\"" ++ rest.line, rest.opened⟩

end Linewise.Raw
