/-
  The headers a program includes.

  The set is read off the symbols in the program's code, and written in the order of the names.
  Includes that lead the text are replaced, so the pass can be repeated.
-/
import Linewise.Program.Segment

namespace Linewise

open Text

/-- The headers in order, each with the symbols it declares. -/
def headerTable : List (Text × List Text) :=
  [("algorithm", ["std::sort"]),
   ("array", ["std::array"]),
   ("cctype", ["std::toupper", "std::tolower"]),
   ("cmath", ["std::sqrt", "std::pow", "std::abs", "std::floor", "std::ceil"]),
   ("cstddef", ["std::size_t"]),
   ("cstdint", ["std::int8_t", "std::int16_t", "std::int32_t", "std::int64_t", "std::uint8_t",
     "std::uint16_t", "std::uint32_t", "std::uint64_t", "std::uintptr_t"]),
   ("cstdio", ["printf", "fprintf", "stdout", "stderr"]),
   ("cstdlib", ["std::exit"]),
   ("functional", ["std::function"]),
   ("iostream", ["std::cout", "std::cerr", "std::endl", "std::ostream", "std::boolalpha"]),
   ("iterator", ["std::size", "std::begin", "std::end"]),
   ("memory", ["std::shared_ptr"]),
   ("sstream", ["std::stringstream"]),
   ("string", ["std::string", "std::to_string", "std::string_literals"]),
   ("tuple", ["std::tuple", "std::tie", "std::make_tuple", "std::ignore"]),
   ("type_traits", ["std::is_same_v", "std::is_integral_v", "std::is_pointer_v",
     "std::remove_pointer_t", "std::void_t", "std::is_array_v", "std::remove_cv_t",
     "std::remove_extent_t", "std::false_type", "std::true_type"]),
   ("unordered_map", ["std::unordered_map"]),
   ("utility", ["std::declval", "std::pair"]),
   ("vector", ["std::vector"])]

/-- The headers the program needs, in order. -/
def requiredHeaders (s : Text) : List Text :=
  let code := codeText s
  (headerTable.filter fun (_, symbols) => symbols.any (containsWord code)).map (·.1)

/-- A line before the first line that counts: blank, or an include. -/
def isPreamble (line : Text) : Bool := isAllBlank line || startsWith (trimStart line) "#include"

/-- The program under exactly the includes it needs. -/
def addIncludes (s : Text) : Text :=
  let body := unlines ((lines s).dropWhile isPreamble)
  let includes := (requiredHeaders body).map fun h => ("#include <" : Text) ++ h ++ ">"
  if includes.isEmpty then body else unlines includes ++ "\n\n" ++ body

end Linewise
