/-
  C++ helper functions that emitted programs call.

  A program gets the helpers it mentions, and those that these need, in the order of the table and
  in front of everything else. What formats a value for printing comes in two sizes: the full one
  knows structs, pointers, sequences and maps, the small one does not.
-/
import Linewise.Program.Segment

namespace Linewise

open Text

/-! ## 1. Bodies -/

/-- Lines of C++ as one text. -/
def cppLines (text : List String) : Text := unlines (text.map String.toList)

/-- Formats numbers, truth values and strings. -/
def formatOutputSmall : Text :=
  cppLines
    ["template <typename T> void _format_output(std::ostream& out, const T& x) \x7b",
     "    if constexpr (std::is_same_v<T, bool>) \x7b",
     "        out << std::boolalpha << x << std::noboolalpha;",
     "    \x7d else if constexpr (std::is_integral_v<T> && sizeof(T) == 1) \x7b",
     "        out << static_cast<int>(x);",
     "    \x7d else \x7b",
     "        out << x;",
     "    \x7d",
     "\x7d"]

/-- Formats every kind of value. -/
def formatOutputFull : Text :=
  cppLines
    ["template <typename T, typename = void> struct _has_str : std::false_type \x7b\x7d;",
     "template <typename T> struct _has_str<T, std::void_t<decltype(std::declval<const T&>()._str())>> : std::true_type \x7b\x7d;",
     "template <typename T> struct _is_sequence : std::false_type \x7b\x7d;",
     "template <typename T, typename A> struct _is_sequence<std::vector<T, A>> : std::true_type \x7b\x7d;",
     "template <typename T, std::size_t N> struct _is_sequence<std::array<T, N>> : std::true_type \x7b\x7d;",
     "template <typename T> struct _is_map : std::false_type \x7b\x7d;",
     "template <typename K, typename V, typename H, typename E, typename A> struct _is_map<std::unordered_map<K, V, H, E, A>> : std::true_type \x7b\x7d;",
     "template <typename T> void _format_output(std::ostream& out, const T& x) \x7b",
     "    if constexpr (std::is_same_v<T, bool>) \x7b",
     "        out << std::boolalpha << x << std::noboolalpha;",
     "    \x7d else if constexpr (std::is_integral_v<T> && sizeof(T) == 1) \x7b",
     "        out << static_cast<int>(x);",
     "    \x7d else if constexpr (std::is_same_v<T, const char*>) \x7b",
     "        out << x;",
     "    \x7d else if constexpr (std::is_pointer_v<T>) \x7b",
     "        if (x == nullptr) \x7b",
     "            out << \"<nil>\";",
     "        \x7d else if constexpr (_has_str<std::remove_pointer_t<T>>::value) \x7b",
     "            out << \"&\" << x->_str();",
     "        \x7d else \x7b",
     "            out << static_cast<const void*>(x);",
     "        \x7d",
     "    \x7d else if constexpr (_has_str<T>::value) \x7b",
     "        out << x._str();",
     "    \x7d else if constexpr (_is_sequence<T>::value) \x7b",
     "        out << \"[\";",
     "        bool first = true;",
     "        for (const auto& e : x) \x7b",
     "            if (!first) \x7b",
     "                out << \" \";",
     "            \x7d",
     "            first = false;",
     "            _format_output(out, e);",
     "        \x7d",
     "        out << \"]\";",
     "    \x7d else if constexpr (_is_map<T>::value) \x7b",
     "        std::vector<typename T::key_type> keys;",
     "        for (const auto& kv : x) \x7b",
     "            keys.push_back(kv.first);",
     "        \x7d",
     "        std::sort(keys.begin(), keys.end());",
     "        out << \"map[\";",
     "        for (std::size_t i = 0; i < keys.size(); i++) \x7b",
     "            if (i > 0) \x7b",
     "                out << \" \";",
     "            \x7d",
     "            _format_output(out, keys[i]);",
     "            out << \":\";",
     "            _format_output(out, x.at(keys[i]));",
     "        \x7d",
     "        out << \"]\";",
     "    \x7d else \x7b",
     "        out << x;",
     "    \x7d",
     "\x7d"]

/-- Formats a value to a string. -/
def formatStringBody : Text :=
  cppLines
    ["template <typename T> std::string _format_string(const T& x) \x7b",
     "    std::stringstream ss;",
     "    _format_output(ss, x);",
     "    return ss.str();",
     "\x7d"]

/-- The length of a container or of a string. -/
def lengthBody : Text :=
  cppLines
    ["template <typename T> int _len(const T& x) \x7b",
     "    if constexpr (std::is_array_v<T> && std::is_same_v<std::remove_cv_t<std::remove_extent_t<T>>, char>) \x7b",
     "        return static_cast<int>(std::size(x)) - 1;",
     "    \x7d else \x7b",
     "        return static_cast<int>(std::size(x));",
     "    \x7d",
     "\x7d"]

/-- Looks a key up and tells whether it is there. -/
def commaOkBody : Text :=
  cppLines
    ["template <typename M, typename K> auto _comma_ok(const M& m, const K& k) -> std::pair<typename M::mapped_type, bool> \x7b",
     "    auto it = m.find(k);",
     "    if (it == m.end()) \x7b",
     "        return \x7btypename M::mapped_type\x7b\x7d, false\x7d;",
     "    \x7d",
     "    return \x7bit->second, true\x7d;",
     "\x7d"]

/-- One string occurs in the other. -/
def stringsContainsBody : Text :=
  cppLines
    ["inline auto stringsContains(std::string const& s, std::string const& sub) -> bool \x7b return s.find(sub) != std::string::npos; \x7d"]

/-- One string starts with the other. -/
def stringsHasPrefixBody : Text :=
  cppLines
    ["inline auto stringsHasPrefix(std::string const& s, std::string const& prefix) -> bool \x7b return s.rfind(prefix, 0) == 0; \x7d"]

/-- One string ends with the other. -/
def stringsHasSuffixBody : Text :=
  cppLines
    ["inline auto stringsHasSuffix(std::string const& s, std::string const& suffix) -> bool \x7b return s.size() >= suffix.size() && s.compare(s.size() - suffix.size(), suffix.size(), suffix) == 0; \x7d"]

/-- The string without white space at its ends. -/
def stringsTrimSpaceBody : Text :=
  cppLines
    ["inline auto stringsTrimSpace(std::string const& s) -> std::string \x7b",
     "    const char* ws = \" \\t\\n\\v\\f\\r\";",
     "    auto first = s.find_first_not_of(ws);",
     "    if (first == std::string::npos) \x7b",
     "        return \"\";",
     "    \x7d",
     "    return s.substr(first, s.find_last_not_of(ws) - first + 1);",
     "\x7d"]

/-- The string in upper case. -/
def stringsToUpperBody : Text :=
  cppLines
    ["inline auto stringsToUpper(std::string s) -> std::string \x7b for (auto& c : s) \x7b c = static_cast<char>(std::toupper(static_cast<unsigned char>(c))); \x7d return s; \x7d"]

/-- The string in lower case. -/
def stringsToLowerBody : Text :=
  cppLines
    ["inline auto stringsToLower(std::string s) -> std::string \x7b for (auto& c : s) \x7b c = static_cast<char>(std::tolower(static_cast<unsigned char>(c))); \x7d return s; \x7d"]

/-- The string several times over. -/
def stringsRepeatBody : Text :=
  cppLines
    ["inline auto stringsRepeat(std::string const& s, int n) -> std::string \x7b std::string out; for (int i = 0; i < n; i++) \x7b out += s; \x7d return out; \x7d"]

/-- Where one string first occurs in the other. -/
def stringsIndexBody : Text :=
  cppLines
    ["inline auto stringsIndex(std::string const& s, std::string const& sub) -> int \x7b auto p = s.find(sub); return p == std::string::npos ? -1 : static_cast<int>(p); \x7d"]

/-- Strings put together with a separator. -/
def stringsJoinBody : Text :=
  cppLines
    ["inline auto stringsJoin(std::vector<std::string> const& parts, std::string const& sep) -> std::string \x7b",
     "    std::string out;",
     "    for (std::size_t i = 0; i < parts.size(); i++) \x7b",
     "        if (i > 0) \x7b",
     "            out += sep;",
     "        \x7d",
     "        out += parts[i];",
     "    \x7d",
     "    return out;",
     "\x7d"]

/-- A string cut at a separator. -/
def stringsSplitBody : Text :=
  cppLines
    ["inline auto stringsSplit(std::string const& s, std::string const& sep) -> std::vector<std::string> \x7b",
     "    std::vector<std::string> out;",
     "    std::size_t start = 0;",
     "    std::size_t pos;",
     "    while (!sep.empty() && (pos = s.find(sep, start)) != std::string::npos) \x7b",
     "        out.push_back(s.substr(start, pos - start));",
     "        start = pos + sep.size();",
     "    \x7d",
     "    out.push_back(s.substr(start));",
     "    return out;",
     "\x7d"]

/-! ## 2. The table -/

/-- A helper function: its name, the helpers it needs, and its text. -/
structure Helper where
  name : Text
  needs : List Text
  body : Text
  deriving DecidableEq, Repr

/-- The helpers in the order they are emitted; what a helper needs comes before it. -/
def helpers (full : Bool) : List Helper :=
  [⟨"_format_output", [], if full then formatOutputFull else formatOutputSmall⟩,
   ⟨"_format_string", ["_format_output"], formatStringBody⟩,
   ⟨"_len", [], lengthBody⟩,
   ⟨"_comma_ok", [], commaOkBody⟩,
   ⟨"stringsContains", [], stringsContainsBody⟩,
   ⟨"stringsHasPrefix", [], stringsHasPrefixBody⟩,
   ⟨"stringsHasSuffix", [], stringsHasSuffixBody⟩,
   ⟨"stringsTrimSpace", [], stringsTrimSpaceBody⟩,
   ⟨"stringsToUpper", [], stringsToUpperBody⟩,
   ⟨"stringsToLower", [], stringsToLowerBody⟩,
   ⟨"stringsRepeat", [], stringsRepeatBody⟩,
   ⟨"stringsIndex", [], stringsIndexBody⟩,
   ⟨"stringsJoin", [], stringsJoinBody⟩,
   ⟨"stringsSplit", [], stringsSplitBody⟩]

/-! ## 3. Selection -/

/-- The program holds sequences or maps. -/
def usesContainers (s : Text) : Bool :=
  [("std::vector" : Text), "std::unordered_map", "std::array"].any (containsWord (codeText s))

/-- The names of the helpers a program mentions and of those they need. -/
def wantedHelpers (s : Text) : List Text :=
  ((helpers false).filter fun h => containsWord (codeText s) h.name).flatMap fun h => h.name :: h.needs

/-- The program with its helpers in front. -/
def addHelpers (s : Text) (full : Bool) : Text :=
  let bodies := ((helpers full).filter fun h => (wantedHelpers s).contains h.name).map (·.body)
  if bodies.isEmpty then s else joinWith "\n\n" bodies ++ "\n\n" ++ s

end Linewise
