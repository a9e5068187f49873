/-
  Brackets: top level, matching, brace depth, terminators.

  Brackets count only in code. The nesting depth at a place is the number of opening brackets
  before it less the number of closing ones, whatever their shapes; it may go below zero, and the
  top level is depth zero.
-/
import Linewise.Literal.Lexer
import Linewise.Text.Utf8

namespace Linewise

open Text

/-! ## 1. Top level -/

/-- What a code character adds to the nesting depth. -/
def nesting (c : Char) : Int :=
  if c == '(' || c == '[' || c == '{' then 1
  else if c == ')' || c == ']' || c == '}' then -1
  else 0

/-- What the next character adds to the nesting depth: nothing inside a literal. -/
def Lexer.nesting (l : Lexer) (c : Char) : Int := if l.isCode c then Linewise.nesting c else 0

/-- The search of `topIndex?` from a machine and a depth on. -/
def topIndexFrom? (needle : Char) (l : Lexer) (depth : Int) : Text → Option Nat
  | [] => none
  | c :: r =>
    if l.isCode c && c == needle && depth == 0 then some 0
    else (topIndexFrom? needle (l.step c) (depth + l.nesting c) r).map (· + 1)

/-- Where `needle` first stands in code at top level. An opening bracket stands at the level it is
    opened on. -/
def topIndex? (needle : Char) (s : Text) : Option Nat := topIndexFrom? needle Lexer.start 0 s

/-- The cuts of `splitTop` from a machine and a depth on, white space kept. -/
def cutsFrom (separator : Char) (l : Lexer) (depth : Int) : Text → List Text
  | [] => [[]]
  | c :: r =>
    if l.isCode c && c == separator && depth + l.nesting c == 0 then
      [] :: cutsFrom separator (l.step c) (depth + l.nesting c) r
    else onHead c (cutsFrom separator (l.step c) (depth + l.nesting c) r)

/-- The trimmed parts between the separators at top level. White space alone has no parts. -/
def splitTop (separator : Char) (s : Text) : List Text :=
  if isAllBlank s then [] else (cutsFrom separator Lexer.start 0 s).map trim

/-! ## 2. Matching brackets -/

/-- The bracket that closes this one. -/
def closer? (c : Char) : Option Char :=
  if c == '(' then some ')' else if c == '[' then some ']' else if c == '{' then some '}' else none

/-- The search of `matching?` from a machine on, with `depth` brackets of this shape open. -/
def matchingFrom? (opening closing : Char) (l : Lexer) (depth : Nat) : Text → Option Nat
  | [] => none
  | c :: r =>
    if l.isCode c && c == opening then
      (matchingFrom? opening closing (l.step c) (depth + 1) r).map (· + 1)
    else if l.isCode c && c == closing then
      if depth ≤ 1 then some 0
      else (matchingFrom? opening closing (l.step c) (depth - 1) r).map (· + 1)
    else (matchingFrom? opening closing (l.step c) depth r).map (· + 1)

/-- Where the bracket a text starts with is closed. Reading starts at that bracket, outside every
    literal. -/
def matching? (s : Text) : Option Nat :=
  s.head?.bind fun c => (closer? c).bind fun closing => matchingFrom? c closing Lexer.start 0 s

/-- `matching?` for callers that count bytes: the outer answer is missing if `start` is not an
    offset between two characters. -/
def matchingAtByte? (s : Text) (start : Nat) : Option (Option Nat) :=
  (Utf8.splitAt? start s).map fun (_, rest) =>
    (matching? rest).map fun i => start + Utf8.offset rest i

/-- The text between the bracket a text starts with and the one that closes it, and what follows. -/
def enclosed? (s : Text) : Option (Text × Text) :=
  (matching? s).map fun i => ((s.take i).drop 1, s.drop (i + 1))

/-! ## 3. Brace depth -/

/-- Opening and closing braces in code, from a machine on. -/
def bracesFrom (l : Lexer) : Text → Nat × Nat
  | [] => (0, 0)
  | c :: r =>
    let (opens, closes) := bracesFrom (l.step c) r
    if l.isCode c && c == '{' then (opens + 1, closes)
    else if l.isCode c && c == '}' then (opens, closes + 1)
    else (opens, closes)

/-- How many braces a line opens and closes. -/
def braces (s : Text) : Nat × Nat := bracesFrom Lexer.start s

/-- The depth after a line: all its openings count before its closings, and it stops at zero. -/
def braceDepth (depth : Nat) (line : Text) : Nat := depth + (braces line).1 - (braces line).2

/-! ## 4. Terminators -/

/-- A binary operator stands at the end, so the statement goes on. -/
def endsInOperator (s : Text) : Bool :=
  !(endsWith s "++" || endsWith s "--") && s.getLast?.any (("+-*/%|&^=" : Text).contains ·)

/-- With `depth` braces open and the last closing brace seen (if any) as `inline` says: the last
    closing brace matches an opening one of this text. -/
def closesInlineFrom (depth : Nat) (inline : Bool) : Text → Bool
  | [] => inline
  | c :: r =>
    if c == '{' then closesInlineFrom (depth + 1) inline r
    else if c == '}' then closesInlineFrom (depth - 1) (0 < depth) r
    else closesInlineFrom depth inline r

/-- The last closing brace matches an opening one on the same line. -/
def closesInline (s : Text) : Bool := closesInlineFrom 0 false (mask s)

/-- A statement with its semicolon. None is added after an opening bracket, a comma, a colon, a
    semicolon, a binary operator, or a brace that closes something opened on an earlier line. -/
def terminate (line : Text) : Text :=
  let s := trimEnd line
  match s.getLast? with
  | none => s
  | some c =>
    if c == '}' && closesInline s then s ++ ";"
    else if ("\x7b\x7d,:;([" : Text).contains c then s
    else if endsInOperator s then s
    else s ++ ";"

/-! ## 5. Lengths -/

theorem lt_length_of_topIndexFrom? {needle : Char} {s : Text} :
    ∀ {l : Lexer} {d : Int} {i : Nat}, topIndexFrom? needle l d s = some i → i < s.length := by
  induction s with
  | nil => intro l d i h; simp [topIndexFrom?] at h
  | cons c r ih =>
    intro l d i h
    simp only [topIndexFrom?] at h
    split at h
    · cases h; simp
    · obtain ⟨j, hj, rfl⟩ := Option.map_eq_some_iff.mp h
      have := ih hj
      simp only [List.length_cons]
      omega

theorem lt_length_of_topIndex? {needle : Char} {s : Text} {i : Nat} (h : topIndex? needle s = some i) :
    i < s.length :=
  lt_length_of_topIndexFrom? h

theorem length_of_mem_cutsFrom (sep : Char) (s : Text) :
    ∀ (l : Lexer) (d : Int), ∀ q ∈ cutsFrom sep l d s, q.length ≤ s.length := by
  induction s with
  | nil => intro l d q hq; simp only [cutsFrom, List.mem_singleton] at hq; simp [hq]
  | cons c r ih =>
    intro l d q hq
    simp only [cutsFrom] at hq
    split at hq
    · simp only [List.mem_cons] at hq
      rcases hq with rfl | hq
      · simp
      · have := ih _ _ q hq
        simp only [List.length_cons]
        omega
    · exact length_of_mem_onHead (ih _ _) hq

theorem length_of_mem_splitTop {sep : Char} {s q : Text} (h : q ∈ splitTop sep s) :
    q.length ≤ s.length := by
  unfold splitTop at h
  split at h
  · cases h
  · obtain ⟨p, hp, rfl⟩ := List.mem_map.mp h
    exact Nat.le_trans (length_trim_le p) (length_of_mem_cutsFrom sep s _ _ p hp)

theorem lt_length_of_matchingFrom? {o k : Char} {s : Text} :
    ∀ {l : Lexer} {d i : Nat}, matchingFrom? o k l d s = some i → i < s.length := by
  induction s with
  | nil => intro l d i h; simp [matchingFrom?] at h
  | cons c r ih =>
    intro l d i h
    have step {l' : Lexer} {d' : Nat}
        (h' : (matchingFrom? o k l' d' r).map (· + 1) = some i) : i < (c :: r).length := by
      obtain ⟨j, hj, rfl⟩ := Option.map_eq_some_iff.mp h'
      have := ih hj
      simp only [List.length_cons]
      omega
    simp only [matchingFrom?] at h
    split at h
    · exact step h
    · split at h
      · split at h
        · cases h; simp
        · exact step h
      · exact step h

theorem lt_length_of_matching? {s : Text} {i : Nat} (h : matching? s = some i) : i < s.length := by
  unfold matching? at h
  obtain ⟨c, _, h⟩ := Option.bind_eq_some_iff.mp h
  obtain ⟨k, _, h⟩ := Option.bind_eq_some_iff.mp h
  exact lt_length_of_matchingFrom? h

theorem length_of_enclosed? {s inside after : Text} (h : enclosed? s = some (inside, after)) :
    inside.length < s.length ∧ after.length < s.length := by
  unfold enclosed? at h
  obtain ⟨i, hi, h⟩ := Option.map_eq_some_iff.mp h
  have := lt_length_of_matching? hi
  cases h
  simp only [List.length_drop, List.length_take]
  omega

end Linewise
