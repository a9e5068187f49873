/-
  What becomes of one source line.

  A line is lowered to finished C++, to one statement that still wants its terminator, or to
  nothing at all.
-/
import Linewise.Nesting
import Linewise.State
import Linewise.Text.Word

namespace Linewise

open Text

/-- The C++ for one source line. -/
inductive Lowered where
  /-- finished text, perhaps of several lines -/
  | line (text : Text)
  /-- one statement, before `terminate` -/
  | statement (text : Text)
  | dropped
  deriving DecidableEq, Repr

/-- The text that is emitted, if any. -/
def Lowered.render : Lowered → Option Text
  | line text => some text
  | statement text => some (terminate text)
  | dropped => none

/-- The text that is emitted, empty for a dropped line. -/
def Lowered.renderD (t : Lowered) : Text := t.render.getD []

/-- The line goes out as it came, with a notice. -/
def Lower.passThrough (message line : Text) : Lower Lowered := do
  modify (·.notice (message ++ quoted line))
  return .statement line

/-- The name, or a fresh one for the blank identifier. -/
def Lower.bindingName (name : Text) : Lower Text :=
  if isDiscard name then freshName .discard else return name

end Linewise
