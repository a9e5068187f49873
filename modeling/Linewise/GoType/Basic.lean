/-
  Go types and their C++ spellings.

  A Go type is a tree; its C++ spelling is read off the tree:

      *T          T*
      []T, ...T   std::vector<T>
      [N]T        std::array<T, N>
      map[K]V     std::unordered_map<K, V>
      func(A) R   std::function<R(A)>

  A name of the primitive table is spelled as the table says, every other name as it stands.
-/
import Linewise.Text.Basic

namespace Linewise

open Text

/-- A Go type. The size of an array is kept as it is written. -/
inductive GoType where
  | named (name : Text)
  | pointer (pointee : GoType)
  | slice (element : GoType)
  | array (size : Text) (element : GoType)
  | map (key value : GoType)
  | func (params results : List GoType)
  deriving Repr

namespace GoType

/-- The named types that C++ spells in its own way. -/
def primitives : List (Text × Text) :=
  [("string", "std::string"), ("float64", "double"), ("float32", "float"),
   ("int64", "std::int64_t"), ("int32", "std::int32_t"), ("int16", "std::int16_t"),
   ("int8", "std::int8_t"), ("uint64", "std::uint64_t"), ("uint32", "std::uint32_t"),
   ("uint16", "std::uint16_t"), ("uint8", "std::uint8_t"), ("byte", "std::uint8_t"),
   ("rune", "std::int32_t"), ("uint", "unsigned int"), ("uintptr", "std::uintptr_t")]

/-- The C++ spelling of a named type. -/
def cppName (name : Text) : Text := (primitives.lookup name).getD name

/-- The C++ type of a list of results, each spelled already: nothing, one value, or a tuple. -/
def resultSpelling : List Text → Text
  | [] => "void"
  | [single] => single
  | many => "std::tuple<" ++ joinWith ", " many ++ ">"

mutual

/-- The C++ spelling of a type. -/
def cpp : GoType → Text
  | named name => cppName name
  | pointer t => cpp t ++ "*"
  | slice t => "std::vector<" ++ cpp t ++ ">"
  | array size t => "std::array<" ++ cpp t ++ ", " ++ size ++ ">"
  | map k v => "std::unordered_map<" ++ cpp k ++ ", " ++ cpp v ++ ">"
  | func params results =>
    "std::function<" ++ resultSpelling (cppAll results) ++ "(" ++ joinWith ", " (cppAll params) ++ ")>"

/-- The C++ spellings of types in order. -/
def cppAll : List GoType → List Text
  | [] => []
  | t :: ts => cpp t :: cppAll ts

end

end GoType

end Linewise
