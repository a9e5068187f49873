/-
  Conditions and returns.
-/
import Linewise.Lower.Assignment

namespace Linewise

open Text

namespace Lower

/-! ## 1. Conditions -/

/-- The text before an opening brace at its end, trimmed. -/
def headText (s : Text) : Text := trim (stripEnd "\x7b" (trim s))

/-- The condition of a branch, its initialization in front if it has one. -/
def condition (head : Text) : Lower Text := do
  let head := headText head
  match topIndex? ';' head with
  | some i => return (← initClause (head.take i)) ++ "; " ++ trim (head.drop (i + 1))
  | none => return head

/-- A line `if … {`. -/
def ifStatement (line : Text) : Lower Lowered := do
  return .line ("if (" ++ (← condition (stripStart "if" line)) ++ ") \x7b")

/-- A line `} else if … {`. -/
def elseIf (line : Text) : Lower Lowered := do
  return .line ("\x7d else if (" ++ (← condition (stripStart "\x7d else if" line)) ++ ") \x7b")

/-! ## 2. Returns -/

/-- A line `return …`. In a closure it leaves the closure and stands as it is. The entry point
    returns a status, and several values become a tuple of the declared types. -/
def returnStatement (line : Text) : Lower Lowered := do
  let s ← get
  let rest := trim (stripStart "return" line)
  match s.function with
  | none => return .statement line
  | some f =>
    if !s.closures.isEmpty then return .statement line
    else if rest.isEmpty then return .statement (if f.isMain then "return 0" else "return")
    else
      let values := splitTop ',' rest
      if 1 < values.length && f.returnsTuple then
        let values ← lift (values.mapM value)
        return .statement ("return std::tuple<" ++ joinWith ", " f.results ++ ">"
          ++ braced (joinWith ", " values))
      else return .statement ("return " ++ (← lift (value rest)))

end Lower

end Linewise
