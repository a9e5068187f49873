/-
  Function definitions and function literals.

      func add(a, b int) int {     auto add(int a, int b) -> int {
      func main() {                auto main() -> int {
      f := func(x int) int {       auto f = [&](int x) -> int {

  Every function but the entry point is also declared ahead of all definitions, so the order of
  the source does not matter. A parameter of a map type is known to hold a map.
-/
import Linewise.Binding
import Linewise.GoType.Parser
import Linewise.Lower.Basic

namespace Linewise

open Text

/-! ## 1. Signatures -/

/-- A function's header: name, parameters, and result types in order. -/
structure Signature where
  name : Text
  params : List Parameter
  results : List Text
  deriving DecidableEq, Repr

namespace Signature

/-- Parameters and result types of a text that starts with a parameter list. The results end
    where a body starts. A list that is not closed counts as absent. -/
def paramsAndResults (s : Text) : List Parameter × List Text :=
  match enclosed? s with
  | some (params, rest) =>
    let results := match topIndex? '{' rest with
      | some body => rest.take body
      | none => rest
    (Parameter.list params, resultTypes results)
  | none => ([], [])

/-- The signature a line spells. -/
def parse (line : Text) : Signature :=
  let rest := trimStart (stripStart "func" line)
  match rest.idxOf? '(' with
  | some i =>
    let (params, results) := paramsAndResults (rest.drop i)
    ⟨trim (rest.take i), params, results⟩
  | none => ⟨trim (dropEndWhile (· == '{') rest), [], []⟩

/-- The entry point. -/
def isMain (sig : Signature) : Bool := sig.name == ("main" : Text)

/-- The header in C++, without body or semicolon. The entry point returns a status. -/
def cpp (sig : Signature) : Text :=
  let result := if sig.isMain then ("int" : Text) else cppResult sig.results
  "auto " ++ sig.name ++ "(" ++ Parameter.cppList sig.params ++ ") -> " ++ result

end Signature

/-- Parameters of map types are known to hold maps. -/
def State.registerParams (s : State) (params : List Parameter) : State :=
  (params.filter (isMapType ·.type)).foldl (fun s p => s.registerMap p.name) s

namespace Lower

/-! ## 2. Definitions -/

/-- A line `func name(…) … {`. -/
def functionDefinition (line : Text) : Lower Lowered := do
  let sig := Signature.parse line
  modify (·.registerParams sig.params)
  if !sig.isMain then
    modify fun s => { s with prototypes := s.prototypes ++ [sig.cpp ++ ";"] }
  modify fun s =>
    { s with function := some ⟨sig.name, sig.results.map cppType, s.depthBefore⟩ }
  return if endsWith line "\x7b" then .line (sig.cpp ++ " \x7b") else .statement sig.cpp

/-! ## 3. Literals -/

/-- The text after all repetitions of `head` at its start. -/
def dropRepeated (head s : Text) : Text :=
  match stripStart? head s with
  | some r => if r.length < s.length then dropRepeated head r else r
  | none => s
termination_by s.length

/-- The statements between the first opening and the last closing brace, cut at semicolons and
    terminated. -/
def inlineBody (rhs : Text) : List Text :=
  let body := match rhs.idxOf? '{', lastIndexOf? '}' rhs with
    | some i, some j => if i < j then trim ((rhs.take j).drop (i + 1)) else []
    | _, _ => []
  (((pieces (· == ';') body).map trim).filter (!·.isEmpty)).map terminate

/-- A function literal bound to a name. With its body on later lines it opens a closure. -/
def functionLiteral (lhs : Text) (kind : Binding.Kind) (rhs : Text) : Lower Lowered := do
  let (params, results) := Signature.paramsAndResults (trimStart (dropRepeated "func" rhs))
  modify (·.registerParams params)
  let s ← get
  -- outside every function there is nothing to capture
  let capture := if s.function.isSome then ("[&]" : Text) else "[]"
  let target := match kind with
    | .define => "auto " ++ lhs
    | .assign => lhs
  let head := target ++ " = " ++ capture ++ "(" ++ Parameter.cppList params ++ ") -> "
    ++ cppResult results
  if endsWith rhs "\x7b" then
    set (s.enterClosure .lambda s.depthBefore)
    return .line (head ++ " \x7b")
  else
    return .line (head ++ " \x7b " ++ joinWith " " (inlineBody rhs) ++ " \x7d;")

end Lower

end Linewise
