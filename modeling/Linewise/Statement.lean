/-
  What kind of statement a line is.

  Every line without its comment has exactly one kind. The open block decides first: inside
  `var ( … )` a line is an entry whatever it looks like, inside a struct body it is a field. Only
  outside every block does the shape of the line itself decide, by its first word, then by its
  head, then by the signs in its code.
-/
import Linewise.Binding
import Linewise.Composite
import Linewise.GoType.Parser
import Linewise.State

namespace Linewise

open Text

/-- The kinds of lines. -/
inductive StatementKind where
  | blank
  | comment
  /-- a line inside a raw string or a block comment -/
  | verbatim
  | packageClause
  | importSpec
  | importEntry
  | blockOpen (block : Block)
  | blockClose (block : Block)
  | functionSignature
  | forLoop
  | switch
  | caseClause
  | defaultClause
  | fallthrough
  | returnStatement
  | print
  | defer
  /-- the brace that ends a closure over several lines -/
  | closureEnd
  | ifStatement
  | elseIf
  | varDeclaration
  | constDeclaration
  | typeDeclaration
  | structField
  | interfaceMember
  | mapLiteralOpen
  | mapLiteralEntry
  | compositeLiteralEntry
  | assignment
  /-- a construct with no C++ counterpart, called `what` in notices -/
  | unsupported (what : Text)
  | expression
  deriving DecidableEq, Repr

namespace StatementKind

/-! ## 1. By shape -/

/-- The value is a map literal whose closing brace is still to come. -/
def opensMapLiteral (rhs : Text) : Bool :=
  (Composite.split? rhs).any fun lit => !lit.closed && isMapType lit.type

/-- The kind of a `var` line. -/
def ofVar (line : Text) : StatementKind :=
  if (Binding.split? line).any (opensMapLiteral ·.rhs) then mapLiteralOpen else varDeclaration

/-- The line calls one of the printing functions, to judge by its head. -/
def isPrintCall (line : Text) : Bool :=
  [("fmt.Print" : Text), "fmt.Fprint", "print(", "println("].any (startsWith line)

/-- The text up to white space, a parenthesis or a brace. -/
def firstWord (line : Text) : Text := line.takeWhile fun c => !(isBlank c || c == '(' || c == '{')

/-- The first words that settle the kind of a line by themselves. -/
def keywords : List (Text × StatementKind) :=
  [("package", packageClause), ("import", importSpec), ("for", forLoop), ("switch", switch),
   ("case", caseClause), ("default:", defaultClause), ("fallthrough", fallthrough),
   ("return", returnStatement), ("defer", defer), ("if", ifStatement),
   ("const", constDeclaration), ("type", typeDeclaration),
   ("go", unsupported "goroutines"), ("select", unsupported "select statements")]

/-- The kind a first word announces, for lines that open no group. -/
def ofFirstWord? (line : Text) : Option StatementKind :=
  let word := firstWord line
  if word == ("func" : Text) then
    some (if startsWith line "func (" then unsupported "methods with receivers"
      else functionSignature)
  else if word == ("var" : Text) then some (ofVar line)
  else if word == ("break" : Text) || word == ("continue" : Text) then
    if 1 < (words line).length then some (unsupported "labeled break/continue") else none
  else keywords.lookup word

/-- The kind of a line whose first word announces none. -/
def ofSigns (line : Text) : StatementKind :=
  if startsWith line "\x7d else if " then elseIf
  else if isPrintCall line then print
  else if includes (mask line) "<-" || containsWord (mask line) "chan" then
    unsupported "channel operations"
  else
    match Binding.split? line with
    | some b => if opensMapLiteral b.rhs then mapLiteralOpen else assignment
    | none => expression

/-- The kind of a trimmed line by its shape alone. -/
def ofCode (line : Text) : StatementKind :=
  match Block.groupOpener? line with
  | some block => blockOpen block
  | none => (ofFirstWord? line).getD (ofSigns line)

/-! ## 2. By what is open -/

/-- The kind of a line that neither closes nor comments on the block it stands in. -/
def inside : Block → StatementKind
  | .importGroup => importEntry
  | .varGroup => varDeclaration
  | .constGroup => constDeclaration
  | .typeGroup => typeDeclaration
  | .structBody => structField
  | .interfaceBody => interfaceMember
  | .mapLiteral => mapLiteralEntry
  | .compositeLiteral => compositeLiteralEntry
  | .rawString | .blockComment => verbatim

end StatementKind

/-- The kind of a trimmed line without its comment. The brace depth of the state includes the line
    already. -/
def State.classify (s : State) (line : Text) : StatementKind :=
  if line.isEmpty then .blank
  else
    match s.block? with
    | some block =>
      if block.isVerbatim then .verbatim
      else if startsWith line "//" then .comment
      else if s.closesBlock line s.depth then .blockClose block
      else .inside block
    | none =>
      if startsWith line "//" then .comment
      else if s.closesClosure line s.depth then .closureEnd
      else .ofCode line

end Linewise
