/-
  The emitted text as code, literals and comments.

  The passes over the whole program change code alone, so the text is first cut into segments of code,
  literals and comments. A quoted literal that is not closed ends with its line; a raw literal or a
  block comment that is not closed runs to the end of the text. The segments put together are the text.
-/
import Linewise.Text.Word

namespace Linewise

open Text

/-- What a segment is. -/
inductive SegmentKind where
  | code
  | literal
  | comment
  deriving DecidableEq, Repr

/-- A piece of the program text. -/
structure Segment where
  kind : SegmentKind
  text : Text
  deriving DecidableEq, Repr

namespace Segment

/-! ## 1. Where a segment ends -/

/-- How far a quoted literal reaches after its opening quote. -/
def quotedLength (quote : Char) : Text → Nat
  | [] => 0
  | '\\' :: _ :: r => quotedLength quote r + 2
  | '\n' :: _ => 0
  | c :: r => if c == quote then 1 else quotedLength quote r + 1

theorem quotedLength_cons {quote c : Char} (hb : c ≠ '\\') (hn : c ≠ '\n') (r : Text) :
    quotedLength quote (c :: r) = if c == quote then 1 else quotedLength quote r + 1 :=
  quotedLength.eq_4 quote c r (fun _ _ e => absurd e hb) hn

/-- How far the text reaches up to and including `closing`, or to its end. -/
def lengthThrough (closing s : Text) : Nat :=
  match indexOf? closing s with
  | some i => i + closing.length
  | none => s.length

/-- How far the line reaches, its newline excluded. -/
def lineLength (s : Text) : Nat := (s.takeWhile (· != '\n')).length

/-- The literal or comment that starts here, by its kind and by its length less one; `before` is
    the character before. -/
def opening? (before : Option Char) : Text → Option (SegmentKind × Nat)
  | [] => none
  | c :: r =>
    if c == '/' && r.head? == some '/' then some (.comment, lineLength r)
    else if c == '/' && r.head? == some '*' then some (.comment, lengthThrough "*/" r.tail + 1)
    else if startsWith (c :: r) "R\"(" && !before.any isWordChar then
      some (.literal, lengthThrough ")\"" (r.drop 2) + 2)
    else if c == '"' || c == '\'' then some (.literal, quotedLength c r)
    else none

/-! ## 2. Segments -/

/-- A code character in front. -/
def onCode (c : Char) : List Segment → List Segment
  | ⟨.code, text⟩ :: rest => ⟨.code, c :: text⟩ :: rest
  | rest => ⟨.code, [c]⟩ :: rest

/-- The segments of a text that follows the character `before`. -/
def scan (before : Option Char) (s : Text) : List Segment :=
  match s with
  | [] => []
  | c :: r =>
    match opening? before (c :: r) with
    | some (kind, n) =>
      ⟨kind, c :: r.take n⟩ :: scan (some ((r.take n).getLast?.getD c)) (r.drop n)
    | none => onCode c (scan (some c) r)
termination_by s.length
decreasing_by
  · simp only [List.length_drop, List.length_cons]
    omega
  · simp

end Segment

/-- The segments of a program text. -/
def segments (s : Text) : List Segment := Segment.scan none s

/-! ## 3. Passes over code -/

/-- The text with a function applied to every code segment. -/
def mapCode (f : Text → Text) (s : Text) : Text :=
  ((segments s).map fun seg => if seg.kind == .code then f seg.text else seg.text).flatten

/-- The code alone, with one space for every literal and every comment. -/
def codeText (s : Text) : Text :=
  ((segments s).map fun seg => if seg.kind == .code then seg.text else [' ']).flatten

end Linewise
