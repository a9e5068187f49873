/-
  Declarations of variables, constants and types, alone or as entries of a group.

      var x int                  int x{};
      var a, b = 1, "s"          auto a = 1;  auto b = "s";
      const Pi float64 = 3.14    const double Pi = 3.14;
      type Celsius float64       using Celsius = double;
      type Point struct {        class Point { public:

  In a group of constants `iota` is the index of the entry, and an entry without expressions
  repeats those of the entry before it.
-/
import Linewise.Lower.Assignment
import Linewise.Lower.Struct

namespace Linewise

open Text

namespace Lower

/-! ## 1. Variables -/

/-- One variable with its value. -/
def varOne (type : Option Text) (name rhs : Text) : Lower Text := do
  if isDiscard name then
    return "static_cast<void>(" ++ (← lift (value rhs)) ++ ");"
  match type with
  | some t => return t ++ " " ++ name ++ " = " ++ (← lift (value rhs)) ++ ";"
  | none =>
    match ← lift (construct rhs) with
    | some c =>
      if c.isMap then
        modify (·.registerMap name)
      return c.declaration name ++ ";"
    | none =>
      if (← get).isKnownMap rhs then
        modify (·.registerMap name)
      return "auto " ++ name ++ " = " ++ (← lift (value rhs)) ++ ";"

/-- Variables and as many values. -/
def varValues (type : Option Text) (names values : List Text) : Lower Lowered := do
  match names, values with
  | [name], [rhs] =>
    if startsWith rhs "func(" && type.isNone then functionLiteral name .define rhs
    else return .line (← varOne type name rhs)
  | _, _ =>
    return .line (unlines (← (names.zip values).mapM fun (name, rhs) => varOne type name rhs))

/-- A line `var …`, or an entry of a group. -/
def varDeclaration (line : Text) : Lower Lowered := do
  let body := trim (stripStart "var " line)
  let (declared, values) := match Binding.split? body with
    | some b => (b.lhs, splitTop ',' b.rhs)
    | none => (body, [])
  let (names, goType) := splitNamesAndType declared
  if !areNames names then
    fail (.unrecognized .var line)
  if goType.any isMapType then
    modify fun s => (names.filter (!isDiscard ·)).foldl State.registerMap s
  let type := goType.map cppType
  if values.isEmpty then
    match type with
    | some t => return .line (unlines (names.map (zeroValue t)))
    | none => fail (.unrecognized .var line)
  else if values.length == 1 && 1 < names.length then
    assignment (joinWith ", " names ++ " := " ++ values.headD [])
  else if values.length != names.length then
    fail (.countMismatch names.length values.length line)
  else varValues type names values

/-! ## 2. Constants -/

/-- The names of an entry and the template it stands for. An entry with expressions becomes the
    template of those after it. -/
def constEntry (body line : Text) : Lower (List Text × ConstTemplate) := do
  match Binding.split? body with
  | some b =>
    let (names, goType) := splitNamesAndType b.lhs
    let exprs := splitTop ',' b.rhs
    if exprs.length != names.length then
      fail (.countMismatch names.length exprs.length line)
    let template : ConstTemplate := ⟨goType.map cppType, exprs⟩
    modify fun s => { s with consts := { s.consts with template := some template } }
    return (names, template)
  | none =>
    let names := splitTop ',' body
    match (← get).consts.template with
    | none => fail (.unrecognized .const line)
    | some template =>
      if template.exprs.length != names.length then
        fail (.countMismatch names.length template.exprs.length line)
      return (names, template)

/-- One constant, the index filled in for `iota`. -/
def constOne (type : Option Text) (index : Nat) (name expr : Text) : Text :=
  "const " ++ type.getD "auto" ++ " " ++ name ++ " = " ++ replaceWord expr "iota" (decimal index) ++ ";"

/-- A line `const …`, or an entry of a group. -/
def constDeclaration (line : Text) : Lower Lowered := do
  if (← get).block? != some .constGroup then
    modify fun s => { s with consts := {} }
  let (names, template) ← constEntry (trim (stripStart "const " line)) line
  if !areNames names then
    fail (.unrecognized .const line)
  let index := (← get).consts.index
  modify fun s => { s with consts := { s.consts with index := index + 1 } }
  let named := (names.zip template.exprs).filter fun (name, _) => !isDiscard name
  return if named.isEmpty then .dropped
    else .line (unlines (named.map fun (name, expr) => constOne template.type index name expr))

/-! ## 3. Types -/

/-- The fields of a struct written on one line. -/
def inlineFields (inner : Text) : Lower (List Text) := do
  let fields := ((pieces (· == ';') inner).map trim).filter (!·.isEmpty)
  let members ← fields.mapM structField
  return (members.filterMap Lowered.render).map fun m => ("    " : Text) ++ m

/-- A struct, `rest` being what follows the keyword. -/
def structDeclaration (name rest line : Text) : Lower Lowered := do
  modify (·.enterStruct name)
  if rest == ("\x7b" : Text) then
    modify fun s => s.enterBlock .structBody s.depthBefore
    return .line (classOpener name [])
  else
    match (stripStart? "\x7b" rest).bind (stripEnd? "\x7d") with
    | none => fail (.unrecognized .type line)
    | some inner =>
      let members ← inlineFields inner
      let bases := ((← get).struct.map (·.bases)).getD []
      return .line (unlines ([classOpener name bases] ++ members ++ [← structClose]))

/-- A line `type …`, or an entry of a group. -/
def typeDeclaration (line : Text) : Lower Lowered := do
  let unrecognized : Fault := .unrecognized .type line
  let some (name, rest) := splitOnce? isBlank (trim (stripStart "type " line)) | fail unrecognized
  if !isIdentifier name then
    fail unrecognized
  let rest := trim rest
  if let some after := stripStart? "struct" rest then
    structDeclaration name (trim after) line
  else if startsWith rest "interface" then
    modify (·.notice ("interfaces are not supported, " ++ quoted name ++ " dropped"))
    if endsWith rest "\x7b" then
      modify fun s => s.enterBlock .interfaceBody s.depthBefore
    return .dropped
  else
    let target := trim (stripStart "=" rest)
    if target.isEmpty then
      fail unrecognized
    return .statement ("using " ++ name ++ " = " ++ cppType target)

end Lower

end Linewise
