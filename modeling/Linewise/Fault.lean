/-
  Why a run ends early, and what it reports on the way.

  A fault is a line that has no C++ counterpart with the same meaning: going on would emit a
  program that is invalid or means something else. A notice is a line that was passed through as
  well as could be. A byte offset that cuts a character in two stops a run too, but that is no
  fault of the source and has no message.
-/
import Linewise.Text.Basic

namespace Linewise

open Text

/-- The kinds of declaration that may go unrecognized. -/
inductive DeclarationKind where
  | var
  | const
  | type
  | field
  deriving DecidableEq, Repr

/-- The kinds of statement whose head is known and whose body does not fit it. -/
inductive StatementShape where
  | caseOutsideSwitch
  | caseClause
  | mapLiteral
  | structField
  | forLoop
  | rangeLoop
  | formattedPrint
  deriving DecidableEq, Repr

/-- Why a line cannot be lowered. -/
inductive Fault where
  /-- as many values as names are needed, and there are not -/
  | countMismatch (names values : Nat) (text : Text)
  /-- an entry of a map literal without a colon -/
  | missingSeparator (entry : Text)
  | unrecognized (kind : DeclarationKind) (text : Text)
  | malformed (shape : StatementShape) (text : Text)
  deriving DecidableEq, Repr

/-- The declaration kind as a message calls it. -/
def DeclarationKind.label : DeclarationKind → Text
  | var => "var"
  | const => "const"
  | type => "type"
  | field => "field"

/-- The statement shape as a message calls it. -/
def StatementShape.label : StatementShape → Text
  | caseOutsideSwitch => "case outside switch"
  | caseClause => "case"
  | mapLiteral => "map literal"
  | structField => "struct field"
  | forLoop => "for loop"
  | rangeLoop => "range loop"
  | formattedPrint => "formatted print"

/-- Source text as a message quotes it. -/
def quoted (s : Text) : Text := "\x60" ++ s ++ "\x60"

/-- The message of a fault. -/
def Fault.message : Fault → Text
  | countMismatch names values text =>
    decimal names ++ " names but " ++ decimal values ++ " values in " ++ quoted text
  | missingSeparator entry => "map entry " ++ quoted entry ++ " has no \x60:\x60 separator"
  | unrecognized kind text => "unrecognized " ++ kind.label ++ " declaration " ++ quoted text
  | malformed shape text => "malformed " ++ shape.label ++ " " ++ quoted text

/-- What ends a step. -/
inductive Stop where
  | fault (f : Fault)
  /-- an offset falls inside a character -/
  | splitCharacter
  deriving DecidableEq, Repr

/-- A remark on a source line. -/
structure Notice where
  line : Nat
  message : Text
  deriving DecidableEq, Repr

/-- A message under its line number. -/
def atLine (line : Nat) (message : Text) : Text := "line " ++ decimal line ++ ": " ++ message

/-- The notice with its line number. -/
def Notice.display (n : Notice) : Text := atLine n.line n.message

end Linewise
