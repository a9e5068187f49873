/-
  Switches.

  A switch becomes a chain of branches over a value bound once before it:

      switch n {              auto _s__0 = n;
      case 1, 2:              if (_s__0 == 1 || _s__0 == 2) {
          fallthrough             goto _l__0;
      case 3:                 } else if (_s__0 == 3) {
                              _l__0:;
      default:                } else {
      }                       }

  The line `switch` itself opens no C++ block: the brace that closes it closes the last branch. A
  switch without clauses has no branch, and its brace is dropped.
-/
import Linewise.Lower.Assignment

namespace Linewise

open Text

namespace Lower

/-! ## 1. Heads -/

/-- Initialization and value of a switch. -/
def splitSwitchHead (line : Text) : Option Text × Text :=
  let head := trim (stripEnd "\x7b" (trim (stripStart "switch" line)))
  match topIndex? ';' head with
  | some i => (some (trim (head.take i)), trim (head.drop (i + 1)))
  | none => (none, head)

/-- The statements of an initialization, if there is one. -/
def switchInit (init : Option Text) : Lower (List Text) := do
  match init.filter (!·.isEmpty) with
  | some clause => return [(← initClause clause) ++ ";"]
  | none => return []

/-- A line `switch … {`. -/
def switch (line : Text) : Lower Lowered := do
  let (init, tag) := splitSwitchHead line
  let bound ← switchInit init
  if includes tag ".(type)" then
    modify (·.notice ("type switches are not supported: " ++ quoted line))
  if tag.isEmpty then
    modify fun s => s.enterSwitch none s.depthBefore
    return if bound.isEmpty then .dropped else .line (unlines bound)
  else
    let discriminant ← freshName .switch
    modify fun s => s.enterSwitch (some discriminant) s.depthBefore
    return .line (unlines (bound ++ ["auto " ++ discriminant ++ " = " ++ tag ++ ";"]))

/-! ## 2. Clauses -/

/-- The condition of a clause: its values are compared with the discriminant, or are conditions
    themselves. -/
def clauseCondition (discriminant : Option Text) (values : List Text) : Text :=
  match discriminant, values with
  | some d, _ => joinWith " || " (values.map fun v => d ++ " == " ++ v)
  | none, [single] => single
  | none, _ => joinWith " || " (values.map fun v => ("(" : Text) ++ v ++ ")")

/-- A header, followed by the label that an earlier clause jumps to. -/
def withPendingLabel (header : Text) : Lower Lowered := do
  let s ← get
  match s.pendingLabel with
  | some label =>
    set { s with pendingLabel := none }
    return .line (header ++ "\n" ++ label ++ ":;")
  | none => return .line header

/-- The innermost switch has had its first clause. -/
def markClause : Lower Unit :=
  modify fun s =>
    { s with switches := s.switches.modifyHead fun f => { f with firstClause := false } }

/-- A line `case …:`. -/
def caseClause (line : Text) : Lower Lowered := do
  let values := splitTop ',' (trim (stripEnd ":" (trim (stripStart "case" line))))
  match (← get).switches.head? with
  | none => fail (.malformed .caseOutsideSwitch line)
  | some frame =>
    if values.isEmpty then fail (.malformed .caseClause line)
    else
      let test := "if (" ++ clauseCondition frame.discriminant values ++ ") \x7b"
      markClause
      withPendingLabel (if frame.firstClause then test else "\x7d else " ++ test)

/-- A line `default:`. -/
def defaultClause : Lower Lowered := do
  match (← get).switches.head? with
  | none =>
    modify (·.notice "\x60default:\x60 outside a switch")
    return .line "default:"
  | some frame =>
    if frame.firstClause then
      markClause
      modify (·.notice "\x60default:\x60 before any case always runs")
      withPendingLabel "if (true) \x7b"
    else withPendingLabel "\x7d else \x7b"

/-- A line `fallthrough`: jump into the body of the next clause. -/
def fallthrough : Lower Lowered := do
  let label ← freshName .label
  modify fun s => { s with pendingLabel := some label }
  return .line ("goto " ++ label ++ ";")

end Lower

end Linewise
