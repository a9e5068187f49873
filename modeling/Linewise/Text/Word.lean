/-
  Words: identifiers, and symbols that stand as whole words.

  A symbol is found only where it is not the tail of a longer word, not a member of something
  (`.` or `:` before it), and, when its own last character is a word character, not the head of a
  longer word. Occurrences are looked for from left to right and do not overlap, whether they are
  accepted or not. `replaceWord` and `containsWord` read the same occurrences.
-/
import Linewise.Text.Basic
import Linewise.Text.Letter
import Linewise.Text.Numeral

namespace Linewise

/-- A character of an identifier. -/
def isWordChar (c : Char) : Bool := isLetter c || isNumeral c || c == '_'

namespace Text

/-! ## 1. Identifiers -/

/-- A letter or an underscore, then word characters. -/
def isIdentifier : Text → Bool
  | [] => false
  | c :: r => (isLetter c || c == '_') && r.all isWordChar

/-- The blank identifier. -/
def isDiscard (s : Text) : Bool := trim s == ['_']

/-! ## 2. Whole words -/

/-- The symbol may stand between these neighbours. -/
def standsAlone (symbol : Text) (before after : Option Char) : Bool :=
  before.all (fun c => !isWordChar c && c != '.' && c != ':')
    && (!symbol.getLast?.any isWordChar || after.all (!isWordChar ·))

/-- The scan behind `replaceWord`. `skip` characters of an occurrence already dealt with are still
    to be passed over, and `before` is the character just passed. -/
def replaceFrom (symbol replacement : Text) : Nat → Option Char → Text → Text
  | _, _, [] => []
  | skip + 1, _, c :: r => replaceFrom symbol replacement skip (some c) r
  | 0, before, c :: r =>
    if startsWith (c :: r) symbol then
      (if standsAlone symbol before ((c :: r).drop symbol.length).head? then replacement else symbol)
        ++ replaceFrom symbol replacement (symbol.length - 1) (some c) r
    else c :: replaceFrom symbol replacement 0 (some c) r

/-- The text with `replacement` for `symbol` wherever that stands as a whole word. -/
def replaceWord (s symbol replacement : Text) : Text := replaceFrom symbol replacement 0 none s

/-- The scan behind `containsWord`, with `skip` and `before` as in `replaceFrom`. -/
def containsFrom (symbol : Text) : Nat → Option Char → Text → Bool
  | _, _, [] => symbol.isEmpty
  | skip + 1, _, c :: r => containsFrom symbol skip (some c) r
  | 0, before, c :: r =>
    if startsWith (c :: r) symbol then
      standsAlone symbol before ((c :: r).drop symbol.length).head?
        || containsFrom symbol (symbol.length - 1) (some c) r
    else containsFrom symbol 0 (some c) r

/-- `symbol` stands somewhere as a whole word. -/
def containsWord (s symbol : Text) : Bool := containsFrom symbol 0 none s

end Text

end Linewise
