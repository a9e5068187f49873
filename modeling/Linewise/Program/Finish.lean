/-
  From emitted lines to a complete program.
-/
import Linewise.Program.Header
import Linewise.Program.Helper
import Linewise.Program.Suffix
import Linewise.Program.Symbol

namespace Linewise

open Text

/-- What lowering found out about the whole program. -/
structure ProgramFlags where
  /-- something that is no literal is printed -/
  needsPrettyPrint : Bool := false
  /-- a struct is declared or built -/
  hasAggregates : Bool := false
  deriving DecidableEq, Repr

/-- The lines as one text, with suffixes and symbols settled. -/
def settle (output : List Text) : Text :=
  let (body, suffixed) := suffixStrings (unlines output)
  let body := replaceSymbols body
  if suffixed then "using namespace std::string_literals;\n\n" ++ body else body

/-- The formatter has to know structs or containers. -/
def ProgramFlags.needsFullFormatter (flags : ProgramFlags) (body : Text) : Bool :=
  flags.hasAggregates || (flags.needsPrettyPrint && usesContainers body)

/-- The complete program. It ends with a newline. -/
def finish (output : List Text) (flags : ProgramFlags) : Text :=
  let body := settle output
  let program := addIncludes (addHelpers body (flags.needsFullFormatter body))
  if endsWith program "\n" then program else program ++ "\n"

end Linewise
