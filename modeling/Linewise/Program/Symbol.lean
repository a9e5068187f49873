/-
  Go symbols that lowering leaves in expressions, and their C++ spellings.
-/
import Linewise.Program.Segment

namespace Linewise

open Text

/-- Symbols and what stands for them, in the order of replacement. -/
def symbolTable : List (String × String) :=
  [("string", "std::string"),
   ("nil", "nullptr"),
   ("len(", "_len("),
   ("strconv.Itoa(", "std::to_string("),
   ("math.Sqrt(", "std::sqrt("),
   ("math.Pow(", "std::pow("),
   ("math.Abs(", "std::abs("),
   ("math.Floor(", "std::floor("),
   ("math.Ceil(", "std::ceil("),
   ("os.Exit(", "std::exit("),
   ("float64(", "double("),
   ("float32(", "float("),
   ("int64(", "std::int64_t("),
   ("int32(", "std::int32_t("),
   ("int16(", "std::int16_t("),
   ("int8(", "std::int8_t("),
   ("uint64(", "std::uint64_t("),
   ("uint32(", "std::uint32_t("),
   ("uint16(", "std::uint16_t("),
   ("uint8(", "std::uint8_t("),
   ("uint(", "unsigned("),
   ("byte(", "std::uint8_t("),
   ("rune(", "std::int32_t("),
   ("strings.Contains(", "stringsContains("),
   ("strings.HasPrefix(", "stringsHasPrefix("),
   ("strings.HasSuffix(", "stringsHasSuffix("),
   ("strings.TrimSpace(", "stringsTrimSpace("),
   ("strings.ToUpper(", "stringsToUpper("),
   ("strings.ToLower(", "stringsToLower("),
   ("strings.Repeat(", "stringsRepeat("),
   ("strings.Index(", "stringsIndex("),
   ("strings.Join(", "stringsJoin("),
   ("strings.Split(", "stringsSplit(")]

/-- The table as texts. -/
def symbols : List (Text × Text) := symbolTable.map fun (symbol, text) => (symbol.toList, text.toList)

/-- All symbols of a code segment replaced, one after the other. -/
def replaceSymbolsInCode (code : Text) : Text :=
  symbols.foldl (fun s (symbol, replacement) => replaceWord s symbol replacement) code

/-- The symbols of a program replaced, in code alone. -/
def replaceSymbols (s : Text) : Text := mapCode replaceSymbolsInCode s

end Linewise
