/-
  Struct bodies.

  A struct becomes a class with public members. Embedded types become public bases, and a method
  `_str` writes the members and bases in order between braces, separated by spaces.
-/
import Linewise.GoType.Parser
import Linewise.Lower.Basic

namespace Linewise

open Text

/-! ## 1. Classes -/

/-- The line that opens a class. -/
def classOpener (name : Text) (bases : List Text) : Text :=
  if bases.isEmpty then "class " ++ name ++ " \x7b public:"
  else "class " ++ name ++ " : " ++ joinWith ", " (bases.map fun b => ("public " : Text) ++ b)
    ++ " \x7b public:"

/-- The statements that write the fields, a space between neighbours. -/
def fieldStatements (fields : List Text) : List Text :=
  (fields.map fun f => ("_format_output(ss, " : Text) ++ f ++ ");").intersperse "ss << \" \";"

/-- The statements of the method that writes an instance. -/
def strBody (fields : List Text) : List Text :=
  "std::stringstream ss;" :: "ss << \"\x7b\";" ::
    (fieldStatements fields ++ (["ss << \"\x7d\";", "return ss.str();"] : List Text))

/-- The method that writes an instance, one step in from the class. -/
def strMethod (fields : List Text) : Text :=
  unlines ("    std::string _str() const \x7b" ::
    ((strBody fields).map (fun s => ("        " : Text) ++ s) ++ (["    \x7d"] : List Text)))

/-! ## 2. Fields -/

/-- Names, and the type they share if the last of them is followed by one. -/
def splitNamesAndType (declaration : Text) : List Text × Option Text :=
  let names := splitTop ',' declaration
  match names.getLast?.bind (splitOnce? isBlank) with
  | some (name, type) => (names.dropLast ++ [name], some (trim type))
  | none => (names, none)

/-- There are names, and all are identifiers. -/
def areNames (names : List Text) : Bool := !names.isEmpty && names.all isIdentifier

theorem areNames_iff {names : List Text} :
    areNames names = true ↔ names ≠ [] ∧ ∀ n ∈ names, isIdentifier n = true := by
  simp [areNames]

/-- The field without its tag: the text before the first literal. -/
def stripTag (field : Text) : Text :=
  let quote := match field.idxOf? '"' with
    | some i => if endsWith (field.take i) "R" then i - 1 else i
    | none => field.length
  let cut := match field.idxOf? '\x60' with
    | some i => min i quote
    | none => quote
  trim (field.take cut)

/-- A variable of a type with its zero value. -/
def zeroValue (type name : Text) : Text := type ++ " " ++ name ++ "\x7b\x7d;"

namespace Lower

/-- The open struct takes more fields and bases. Outside a struct there is nothing to take them. -/
def extendStruct (fields bases : List Text) (line : Text) : Lower Unit := do
  let s ← get
  match s.struct with
  | some draft =>
    set { s with struct := some { draft with
            fields := draft.fields ++ fields, bases := draft.bases ++ bases } }
  | none => fail (.malformed .structField line)

/-- A line inside a struct body. -/
def structField (line : Text) : Lower Lowered := do
  let field := stripTag line
  if field.isEmpty then
    return .dropped
  match splitNamesAndType field with
  | (_, none) =>
    if startsWith field "*" then
      modify (·.notice ("embedded pointer " ++ quoted field ++ " is not supported, dropped"))
    else
      extendStruct ["static_cast<const " ++ field ++ "&>(*this)"] [field] line
    return .dropped
  | (names, some type) =>
    if !areNames names then
      fail (.unrecognized .field line)
    if isMapType type then
      modify fun s => names.foldl State.registerMap s
    extendStruct names [] line
    return .line (unlines (names.map (zeroValue (cppType type))))

/-- The end of a struct body: its method and the closing brace. -/
def structClose : Lower Text := do
  let s ← get
  match s.struct with
  | some draft =>
    set { s with struct := none }
    return strMethod draft.fields ++ "\n\x7d;"
  | none => return "\x7d;"

end Lower

end Linewise
