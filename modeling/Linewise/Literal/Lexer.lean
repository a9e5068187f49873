/-
  Which characters of a line are code and which belong to a literal.

  A line is read from left to right by a machine with four modes: code, inside a literal between
  equal quotes, inside such a literal right after a backslash, and inside a raw literal. The
  quotes are the double quote, the single quote and the backquote; between backquotes a
  backslash means itself. A double quote right after an `R` opens a raw literal, which only a
  double quote right after a closing parenthesis ends. A literal left open runs to the end.
-/
import Linewise.Text.Basic

namespace Linewise

/-- What the characters read so far leave open. -/
inductive Lexer.Mode where
  | code
  | quoted (quote : Char)
  | escaped (quote : Char)
  | raw
  deriving DecidableEq, Repr

/-- The reading machine: its mode and the character just read (NUL before the first). -/
structure Lexer where
  mode : Lexer.Mode := .code
  last : Char := '\x00'
  deriving DecidableEq, Repr

namespace Lexer

/-! ## 1. The machine -/

/-- The three characters that open a literal. -/
def isQuote (c : Char) : Bool := c == '"' || c == '\'' || c == '\x60'

/-- The start of a line. -/
def start : Lexer := {}

/-- The mode after one more character. -/
def Mode.next (last : Char) (c : Char) : Mode → Mode
  | .code => if c == '"' && last == 'R' then .raw else if isQuote c then .quoted c else .code
  | .quoted q => if c == '\\' && q != '\x60' then .escaped q else if c == q then .code else .quoted q
  | .escaped q => .quoted q
  | .raw => if c == '"' && last == ')' then .code else .raw

/-- The machine after one more character. -/
def step (l : Lexer) (c : Char) : Lexer := ⟨l.mode.next l.last c, c⟩

/-- The next character `c` is code: it lies outside every literal and delimits none. -/
def isCode (l : Lexer) (c : Char) : Bool := l.mode == .code && !isQuote c

/-- The machine stands inside a literal. -/
def inLiteral (l : Lexer) : Bool := l.mode != .code

/-- The machine after a text. -/
def run (l : Lexer) (s : Text) : Lexer := s.foldl step l

/-! ## 2. Masking -/

/-- Masking from a given machine on. -/
def maskFrom (l : Lexer) : Text → Text
  | [] => []
  | c :: r => (if l.isCode c then c else ' ') :: maskFrom (l.step c) r

end Lexer

open Text

/-- The text with a space for every character that is not code, so that a search for an operator
    or a keyword never finds one inside a literal. -/
def mask (s : Text) : Text := Lexer.start.maskFrom s

/-! ## 3. Comments -/

/-- Where the first `//` in code starts. -/
def Lexer.commentIndex? (l : Lexer) : Text → Option Nat
  | [] => none
  | c :: r =>
    if l.isCode c && c == '/' && r.head? == some '/' then some 0
    else ((l.step c).commentIndex? r).map (· + 1)

/-- A line as code and trailing comment. The code loses white space at its end, the comment at
    both ends. -/
def splitComment (line : Text) : Text × Option Text :=
  match Lexer.start.commentIndex? line with
  | some i => (trimEnd (line.take i), some (trim (line.drop i)))
  | none => (trimEnd line, none)

/-! ## 4. Whole literals -/

/-- From the machine `l` on, the text is one literal: it opens (or is `opened`) and closes with the
    last character. -/
def Lexer.fills (l : Lexer) (opened : Bool) : Text → Bool
  | [] => false
  | c :: r =>
    if (l.step c).inLiteral then (l.step c).fills true r
    else if opened then r.isEmpty
    else (l.step c).fills false r

/-- One string literal, in any of its three spellings, and nothing else but white space. -/
def isStringLiteral (s : Text) : Bool :=
  let s := trim s
  2 ≤ s.length && (startsWith s "\"" || startsWith s "\x60" || startsWith s "R\"(")
    && Lexer.start.fills false s

end Linewise
