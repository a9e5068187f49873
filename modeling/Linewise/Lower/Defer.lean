/-
  Deferred calls, and statements inside closures written on one line.

  A deferred call becomes a pointer that owns nothing and whose deleter runs the call when the
  scope ends, so that calls run in the reverse of the order they were deferred in:

      defer fmt.Println("bye")      std::shared_ptr<void> _defer_0(nullptr, [&](void*) { … });
      defer func() {                std::shared_ptr<void> _defer_1(nullptr, [&](void*) {
          cleanup()                     cleanup();
      }()                           });
-/
import Linewise.Lower.Assignment
import Linewise.Lower.Print
import Linewise.Statement

namespace Linewise

open Text

namespace Lower

/-! ## 1. Single statements -/

/-- A construct that has no counterpart goes out as it came. -/
def unsupported (what line : Text) : Lower Lowered :=
  passThrough (what ++ " are not supported, passed through: ") line

/-- A statement apart from its line, terminated. A return leaves the closure it stands in. -/
def simpleStatement (statement : Text) : Lower Text := do
  let statement := trim statement
  let lowered ← match StatementKind.ofCode statement with
    | .print => print statement
    | .assignment => assignment statement
    | .expression => pure (expression statement)
    | .unsupported what => unsupported what statement
    | .returnStatement => pure (.statement statement)
    | _ => passThrough "statement not supported inside a closure: " statement
  return lowered.renderD

/-! ## 2. Deferred calls -/

/-- The start of a deferred closure. -/
def deferOpener : Lower Text := do
  return "std::shared_ptr<void> " ++ (← freshName .defer) ++ "(nullptr, [&](void*) \x7b"

/-- A deferred closure on one line. -/
def deferInline (statements : List Text) : Lower Lowered := do
  let body ← statements.mapM simpleStatement
  return .line ((← deferOpener) ++ " " ++ joinWith " " body ++ " \x7d);")

/-- The body of a closure that is called where it is written: `{ … }()`. -/
def calledBody? (literal : Text) : Option Text :=
  if startsWith literal "\x7b" then
    (enclosed? literal).bind fun (inside, after) =>
      if trim after == ("()" : Text) then some inside else none
  else none

/-- A line `defer …`. -/
def deferStatement (line : Text) : Lower Lowered := do
  let call := trim (stripStart "defer" line)
  match stripStart? "func()" call with
  | none =>
    if startsWith call "func(" then
      passThrough "deferred closure with parameters passed through: " line
    else deferInline [call]
  | some literal =>
    let literal := trimStart literal
    if literal == ("\x7b" : Text) then
      let opener ← deferOpener
      modify fun s => s.enterClosure .deferred s.depthBefore
      return .line opener
    else
      match calledBody? literal with
      | some body => deferInline ((splitTop ';' body).filter (!·.isEmpty))
      | none => passThrough "malformed deferred closure passed through: " line

/-- The brace that ends a closure over several lines. -/
def closureEnd (line : Text) : Lower Lowered := do
  let s ← get
  set s.exitClosure
  match s.closures with
  | ⟨.deferred, _⟩ :: _ => return .line "\x7d);"
  | ⟨.lambda, _⟩ :: _ => return .line "\x7d;"
  | [] => return .line line

end Lower

end Linewise
