/-
  What is open around a line: blocks, switches, closures.

  The same text means different things inside different constructs that span lines, so each open
  construct is a frame on a stack, the innermost first. A frame keeps the brace depth before the
  line that opened it; a line closes the frame when it starts with the closing bracket and brings
  the depth back.
-/
import Linewise.Text.Basic

namespace Linewise

open Text

/-! ## 1. Blocks -/

/-- A construct that changes how the lines in it are read. -/
inductive Block where
  /-- `import ( … )` -/
  | importGroup
  /-- `var ( … )` -/
  | varGroup
  /-- `const ( … )` -/
  | constGroup
  /-- `type ( … )` -/
  | typeGroup
  /-- `type T struct { … }` -/
  | structBody
  /-- `type T interface { … }` -/
  | interfaceBody
  /-- `m := map[K]V{ … }` over several lines -/
  | mapLiteral
  /-- `xs := []T{ … }` or `v := T{ … }` over several lines -/
  | compositeLiteral
  /-- a literal between backquotes over several lines -/
  | rawString
  /-- `/* … */` over several lines -/
  | blockComment
  deriving DecidableEq, Repr

namespace Block

/-- The name a notice calls the block by. -/
def name : Block → Text
  | importGroup => "Import"
  | varGroup => "Var"
  | constGroup => "Const"
  | typeGroup => "Type"
  | structBody => "Struct"
  | interfaceBody => "Interface"
  | mapLiteral => "MapLiteral"
  | compositeLiteral => "CompositeLiteral"
  | rawString => "RawString"
  | blockComment => "BlockComment"

/-- Declarations grouped by parentheses. -/
def isGroup : Block → Bool
  | importGroup | varGroup | constGroup | typeGroup => true
  | _ => false

/-- Lines inside are copied as they stand. -/
def isVerbatim : Block → Bool
  | rawString | blockComment => true
  | _ => false

/-- The group a line opens: its keyword and an opening parenthesis, nothing else. -/
def groupOpener? (line : Text) : Option Block :=
  (stripEnd? "(" line).bind fun r =>
    let keyword := trimEnd r
    if keyword == ("import" : Text) then some importGroup
    else if keyword == ("var" : Text) then some varGroup
    else if keyword == ("const" : Text) then some constGroup
    else if keyword == ("type" : Text) then some typeGroup
    else none

end Block

/-- An open block and the brace depth before the line that opened it. -/
structure BlockFrame where
  block : Block
  depth : Nat
  deriving DecidableEq, Repr

/-- The line closes the block; `depth` is the brace depth after the line. -/
def BlockFrame.closes (f : BlockFrame) (line : Text) (depth : Nat) : Bool :=
  match f.block with
  | .importGroup | .varGroup | .constGroup | .typeGroup => startsWith line ")"
  | .structBody | .interfaceBody | .mapLiteral | .compositeLiteral =>
    startsWith line "\x7d" && depth ≤ f.depth
  | .rawString => line.contains '\x60'
  | .blockComment => includes line "*/"

/-! ## 2. Switches -/

/-- An open switch. -/
structure SwitchFrame where
  /-- the name of the compared value; none where the clauses are conditions -/
  discriminant : Option Text
  /-- no clause has come yet -/
  firstClause : Bool
  depth : Nat
  deriving DecidableEq, Repr

/-! ## 3. Closures -/

/-- A function body that is not a function definition. -/
inductive ClosureKind where
  | deferred
  | lambda
  deriving DecidableEq, Repr

/-- An open closure. -/
structure ClosureFrame where
  kind : ClosureKind
  depth : Nat
  deriving DecidableEq, Repr

end Linewise
