/-
  Assignments and definitions outside declaration groups.

  One name and one value; several names and as many values; several names and one value with
  several results. A value that builds a map makes its name a known map, so that later loops and
  look-ups read it as one. Several values are all read before any name is assigned.
-/
import Linewise.Lower.Function
import Linewise.Value

namespace Linewise

open Text

namespace Lower

/-! ## 1. Targets -/

/-- A definition or an assignment of one name. -/
def bindText (kind : Binding.Kind) (name value : Text) : Text :=
  match kind with
  | .define => "auto " ++ name ++ " = " ++ value
  | .assign => name ++ " = " ++ value

/-- The name as a target of a tuple assignment. -/
def tieTarget (name : Text) : Text := if isDiscard name then "std::ignore" else name

/-- The expression `container[key]`: the first bracket that the last character closes. -/
def splitIndex? (expr : Text) : Option (Text × Text) :=
  let e := trim expr
  if endsWith e "]" then
    ((List.range e.length).find? fun i =>
        0 < i && (e.drop i).head? == some '[' && matching? (e.drop i) == some (e.length - 1 - i)).map
      fun i => (trim (e.take i), (e.drop (i + 1)).take (e.length - 2 - i))
  else none

/-! ## 2. One name -/

/-- The statements an `append` becomes: the source is copied unless it is the target itself, then
    every value is pushed and every spread sequence inserted. -/
def appendStatements (name args : Text) (kind : Binding.Kind) : List Text :=
  let args := splitTop ',' args
  let source := args.head?.getD name
  let copy := if source != name || kind == .define then [bindText kind name source ++ ";"] else []
  let push (value : Text) : Text :=
    match stripEnd? "..." value with
    | some spread =>
      name ++ ".insert(" ++ name ++ ".end(), std::begin(" ++ spread ++ "), std::end(" ++ spread ++ "));"
    | none => name ++ ".push_back(" ++ element value ++ ");"
  copy ++ (args.drop 1).map push

/-- One name bound to one value. -/
def assignOne (name rhs : Text) (kind : Binding.Kind) : Lower Lowered := do
  if isDiscard name then
    return .statement ("static_cast<void>(" ++ (← lift (value rhs)) ++ ")")
  if let some args := callArguments? "append" rhs then
    return .line (joinWith " " (appendStatements name args kind))
  -- a composite literal that goes on below
  if let some lit := (Composite.split? rhs).filter (!·.closed) then
    modify fun s =>
      { s with hasAggregates := s.hasAggregates || !startsWith lit.type "[" }.enterBlock
        .compositeLiteral s.depthBefore
    let head := match kind with
      | .define => cppType lit.type ++ " " ++ name ++ "\x7b"
      | .assign => name ++ " = " ++ cppType lit.type ++ "\x7b"
    return .line (head ++ elements lit.elements)
  if let some inner := stripStart? "&" rhs then
    if let some c ← lift (construct inner) then
      return .statement (bindText kind name ("new " ++ c.temporary))
  if let some c ← lift (construct rhs) then
    if c.isMap then
      modify (·.registerMap name)
    return .statement (match kind with
      | .define => c.declaration name
      | .assign => name ++ " = " ++ c.temporary)
  if kind == .define && (← get).isKnownMap rhs then
    modify (·.registerMap name)
  return .statement (bindText kind name rhs)

/-! ## 3. Several names -/

/-- Several names bound to the results of one expression. A look-up in a known map with two names
    asks whether the key is there. -/
def destructure (names : List Text) (value : Text) (kind : Binding.Kind) (line : Text) :
    Lower Lowered := do
  let source ← if names.length == 2 then
      match splitIndex? value with
      | some (container, key) =>
        if (← get).isKnownMap container then pure ("_comma_ok(" ++ container ++ ", " ++ key ++ ")")
        else pure value
      | none => do
        if includes value ".(" then
          modify (·.notice ("type assertions are not supported: " ++ quoted line))
        pure value
    else pure value
  match kind with
  | .define =>
    let bindings ← names.mapM bindingName
    return .statement ("auto [" ++ joinWith ", " bindings ++ "] = " ++ source)
  | .assign =>
    return .statement ("std::tie(" ++ joinWith ", " (names.map tieTarget) ++ ") = " ++ source)

/-- One definition of as many as there are names. -/
def defineOne (name value : Text) : Text :=
  if isDiscard name then "static_cast<void>(" ++ value ++ ");"
  else "auto " ++ name ++ " = " ++ value ++ ";"

/-- Several names bound to as many values. -/
def assignParallel (names values : List Text) (kind : Binding.Kind) : Lowered :=
  match kind with
  | .define => .line (unlines (List.zipWith defineOne names values))
  | .assign =>
    .statement ("std::tie(" ++ joinWith ", " (names.map tieTarget) ++ ") = std::make_tuple("
      ++ joinWith ", " values ++ ")")

/-- A line with `=` or `:=` at top level. -/
def assignment (line : Text) : Lower Lowered := do
  let some b := Binding.split? line | return .statement line
  if startsWith b.rhs "func(" || startsWith b.rhs "func (" then
    functionLiteral b.lhs b.kind b.rhs
  else
    let names := splitTop ',' b.lhs
    if names.length ≤ 1 then
      assignOne b.lhs b.rhs b.kind
    else
      match splitTop ',' b.rhs with
      | [single] => destructure names single b.kind line
      | values =>
        if values.length != names.length then
          fail (.countMismatch names.length values.length line)
        else
          return assignParallel names (← lift (values.mapM value)) b.kind

/-- The initialization before a condition or a switch, without its semicolon. -/
def initClause (clause : Text) : Lower Text := do
  let clause := trim clause
  let text ← match Binding.split? clause with
    | some _ => do pure (← assignment clause).renderD
    | none => pure clause
  return dropEndWhile (· == ';') text

/-! ## 4. Literals over several lines -/

/-- The comma at the end of an entry list. -/
def trailingComma (list : Text) : Text := if endsWith list "," then "," else []

/-- A line `m := map[K]V{` with entries to come. -/
def mapLiteralOpen (line : Text) : Lower Lowered := do
  let malformed : Fault := .malformed .mapLiteral line
  let some b := Binding.split? (stripStart "var " line) | fail malformed
  let some name := (words b.lhs).head? | fail malformed
  let some lit := Composite.split? b.rhs | fail malformed
  let some (_, valueType) := splitMapType? lit.type | fail malformed
  let entries ← lift (mapEntries lit.elements valueType)
  modify fun s =>
    { s.registerMap name with mapValue := some valueType }.enterBlock .mapLiteral s.depthBefore
  let head :=
    if b.kind == .assign && !startsWith line "var " then name ++ " = " ++ cppType lit.type ++ "\x7b"
    else cppType lit.type ++ " " ++ name ++ "\x7b"
  return .line (head ++ joinWith ", " entries ++ trailingComma lit.elements)

/-- A line of entries inside a map literal. -/
def mapLiteralEntry (line : Text) : Lower Lowered := do
  let valueType := (← get).mapValue.getD []
  let entries ← lift (mapEntries line valueType)
  return .line (joinWith ", " entries ++ trailingComma line)

/-- A line of elements inside a slice or struct literal. -/
def compositeEntry (line : Text) : Lowered := .line (elements line)

/-! ## 5. Expressions -/

/-- A statement that binds nothing; `delete` erases a key. -/
def expression (line : Text) : Lowered :=
  match (callArguments? "delete" line).map (splitTop ',') with
  | some [container, key] => .statement (container ++ ".erase(" ++ key ++ ")")
  | _ => .statement line

end Lower

end Linewise
