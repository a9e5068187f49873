/-
  Text as a list of characters, with the cuts every line is put through.

  Source lines and emitted lines are lists of characters: scanners recurse on them and lemmas
  speak of `take`, `drop` and `++`. A `String` stands only where a literal is written (the
  coercion below) or where the outside world hands text in or takes it out.
-/
import Linewise.Text.Blank

namespace Linewise

/-- A run of characters. -/
abbrev Text := List Char

instance : Coe String Text := ⟨String.toList⟩

instance : LawfulBEq Text := inferInstance

namespace Text

/-! ## 1. Trimming -/

/-- The text without its longest tail of characters in the class. -/
def dropEndWhile (p : Char → Bool) (s : Text) : Text := (s.reverse.dropWhile p).reverse

/-- The text from its first character that is not white space on. -/
def trimStart (s : Text) : Text := s.dropWhile isBlank

/-- The text up to its last character that is not white space. -/
def trimEnd (s : Text) : Text := dropEndWhile isBlank s

/-- The text without white space at either end. -/
def trim (s : Text) : Text := trimEnd (trimStart s)

/-- Nothing but white space. -/
def isAllBlank (s : Text) : Bool := s.all isBlank

/-- The white space a line starts with: what `trimStart` takes away. -/
def indentation (s : Text) : Text := s.takeWhile isBlank

/-! ## 2. Fixed heads and tails -/

/-- The text starts with `head`. -/
def startsWith (s head : Text) : Bool := head.isPrefixOf s

/-- The text ends with `tail`. -/
def endsWith (s tail : Text) : Bool := tail.isSuffixOf s

/-- What follows `head`, for a text that starts with it. -/
def stripStart? (head s : Text) : Option Text :=
  if startsWith s head then some (s.drop head.length) else none

/-- What precedes `tail`, for a text that ends with it. -/
def stripEnd? (tail s : Text) : Option Text :=
  if endsWith s tail then some (s.take (s.length - tail.length)) else none

/-- The text without one `head`, if it starts with it. -/
def stripStart (head s : Text) : Text := (stripStart? head s).getD s

/-- The text without one `tail`, if it ends with it. -/
def stripEnd (tail s : Text) : Text := (stripEnd? tail s).getD s

/-! ## 3. Cuts at a class of characters -/

/-- Put a character in front of the first piece. -/
def onHead (c : Char) : List Text → List Text
  | [] => [[c]]
  | p :: ps => (c :: p) :: ps

/-- The pieces between the characters of the class: one more piece than there are cuts. -/
def pieces (p : Char → Bool) : Text → List Text
  | [] => [[]]
  | c :: r => if p c then [] :: pieces p r else onHead c (pieces p r)

/-- The maximal runs without white space. -/
def words (s : Text) : List Text := (pieces isBlank s).filter (!·.isEmpty)

/-- The text before the first character of the class, and the text after it. -/
def splitOnce? (p : Char → Bool) (s : Text) : Option (Text × Text) :=
  match s.dropWhile (!p ·) with
  | [] => none
  | _ :: r => some (s.takeWhile (!p ·), r)

/-! ## 4. Substrings -/

/-- Where `pattern` first occurs, counted in characters. -/
def indexOf? (pattern : Text) : Text → Option Nat
  | [] => if pattern.isEmpty then some 0 else none
  | c :: r => if startsWith (c :: r) pattern then some 0 else (indexOf? pattern r).map (· + 1)

/-- `pattern` occurs somewhere. -/
def includes (s pattern : Text) : Bool := (indexOf? pattern s).isSome

/-- Where a character occurs last. -/
def lastIndexOf? (c : Char) (s : Text) : Option Nat :=
  (s.reverse.idxOf? c).map (s.length - 1 - ·)

/-! ## 5. Lines -/

/-- A terminated line gives up one carriage return at its end. -/
def chomp (s : Text) : Text := stripEnd ['\r'] s

/-- Lines from the pieces between newlines: what follows the last newline is a line only if it is
    not empty, and it keeps a carriage return. -/
def linesOfPieces : List Text → List Text
  | [] => []
  | [last] => if last.isEmpty then [] else [last]
  | p :: q :: r => chomp p :: linesOfPieces (q :: r)

/-- The lines of a text. -/
def lines (s : Text) : List Text := linesOfPieces (pieces (· == '\n') s)

/-- The parts one after the other with `separator` between neighbours. -/
def joinWith (separator : Text) (parts : List Text) : Text := List.intercalate separator parts

/-- The parts as consecutive lines. -/
def unlines (parts : List Text) : Text := joinWith ['\n'] parts

/-- A natural number in decimal. -/
def decimal (n : Nat) : Text := Nat.toDigits 10 n

/-! ## 6. Lengths

No cut makes a text longer: the measure of every recursion on parts. -/

theorem length_dropWhile_le (p : Char → Bool) (s : Text) : (s.dropWhile p).length ≤ s.length :=
  (List.dropWhile_sublist p).length_le

theorem length_dropEndWhile_le (p : Char → Bool) (s : Text) :
    (dropEndWhile p s).length ≤ s.length := by
  simpa [dropEndWhile] using length_dropWhile_le p s.reverse

theorem length_trim_le (s : Text) : (trim s).length ≤ s.length :=
  Nat.le_trans (length_dropEndWhile_le _ _) (length_dropWhile_le _ _)

theorem length_stripEnd_le (tail s : Text) : (stripEnd tail s).length ≤ s.length := by
  unfold stripEnd stripEnd?
  split <;> simp

theorem length_of_stripStart? {head s r : Text} (h : stripStart? head s = some r) :
    r.length + head.length = s.length := by
  unfold stripStart? startsWith at h
  split at h
  · rename_i hp
    cases h
    have := (List.isPrefixOf_iff_prefix.mp hp).length_le
    simp only [List.length_drop]
    omega
  · cases h

theorem length_of_splitOnce? {p : Char → Bool} {s a b : Text} (h : splitOnce? p s = some (a, b)) :
    b.length < s.length := by
  unfold splitOnce? at h
  have hle := length_dropWhile_le (!p ·) s
  split at h
  · cases h
  · rename_i c r hd
    cases h
    rw [hd] at hle
    simp only [List.length_cons] at hle
    omega

theorem length_of_mem_onHead {c : Char} {ps : List Text} {n : Nat} (hps : ∀ q ∈ ps, q.length ≤ n)
    {q : Text} (hq : q ∈ onHead c ps) : q.length ≤ n + 1 := by
  cases ps with
  | nil =>
    simp only [onHead, List.mem_singleton] at hq
    subst hq
    simp
  | cons p ps =>
    simp only [onHead, List.mem_cons] at hq
    rcases hq with rfl | hq
    · have := hps p (by simp)
      simp only [List.length_cons]
      omega
    · have := hps q (by simp [hq])
      omega

end Text

end Linewise
