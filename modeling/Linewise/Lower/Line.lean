/-
  One line of a known kind.
-/
import Linewise.Lower.Branch
import Linewise.Lower.Declaration
import Linewise.Lower.Defer
import Linewise.Lower.Loop
import Linewise.Lower.Switch

namespace Linewise

open Text

namespace Lower

/-- The line that ends a block. -/
def blockClose (block : Block) (line : Text) : Lower Lowered := do
  modify (·.exitBlock)
  match block with
  | .structBody => return .line (← structClose)
  | .mapLiteral =>
    modify fun s => { s with mapValue := none }
    return .line (line ++ ";")
  | .compositeLiteral => return .line (line ++ ";")
  | _ => return .dropped

/-- A trimmed line of the given kind. -/
def line (kind : StatementKind) (line : Text) : Lower Lowered :=
  match kind with
  | .blank => return .line []
  | .comment | .verbatim => return .line line
  | .packageClause | .importSpec | .importEntry | .interfaceMember => return .dropped
  | .blockOpen block => do
    modify fun s => s.enterBlock block s.depthBefore
    return .dropped
  | .blockClose block => blockClose block line
  | .functionSignature => functionDefinition line
  | .forLoop => forLoop line
  | .switch => switch line
  | .caseClause => caseClause line
  | .defaultClause => defaultClause
  | .fallthrough => fallthrough
  | .returnStatement => returnStatement line
  | .print => print line
  | .defer => deferStatement line
  | .closureEnd => closureEnd line
  | .ifStatement => ifStatement line
  | .elseIf => elseIf line
  | .varDeclaration => varDeclaration line
  | .constDeclaration => constDeclaration line
  | .typeDeclaration => typeDeclaration line
  | .structField => structField line
  | .mapLiteralOpen => mapLiteralOpen line
  | .mapLiteralEntry => mapLiteralEntry line
  | .compositeLiteralEntry => return compositeEntry line
  | .assignment => assignment line
  | .unsupported what => unsupported what line
  | .expression => return expression line

end Lower

end Linewise
