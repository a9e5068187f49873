/-
  Loops.

      for {                       for (;;) {
      for x < 10 {                while (x < 10) {
      for i := 0; i < n; i++ {    for (auto i = 0; i < n; i++) {
      for i := range xs {         for (int i = 0; i < len(xs); i++) {
      for k, v := range m {       for (const auto& [k, v] : m) {
      for _, v := range xs {      for (auto v : xs) {

  Whether a range walks a map or a sequence is decided by the known maps alone.

  The word ` range ` is searched for in the masked head, and the byte offset found there is used in
  the head itself. Masking puts one byte for each character of a literal, so behind a literal with
  characters of several bytes the offset comes out too small; it may even fall inside a character,
  and then there is no head to go on with.
-/
import Linewise.Binding
import Linewise.Literal.Number
import Linewise.Lower.Basic

namespace Linewise

open Text

namespace Lower

/-! ## 1. Heads -/

/-- The word that separates the variables from what they range over. -/
def rangeWord : Text := " range "

/-- The text without a definition or assignment sign at its end. -/
def stripSign (s : Text) : Text := (stripEnd? ":=" s).getD (stripEnd "=" s)

/-- Variables and container of a range head. No answer if the head is none; the inner answer is
    missing if the offset of the word does not fall between two characters. -/
def splitRange? (head : Text) : Option (Option (Text × Text)) :=
  match stripStart? "range " head with
  | some container => some (some ([], trim container))
  | none =>
    (indexOf? rangeWord (mask head)).map fun i =>
      let start := Utf8.offset (mask head) i
      match Utf8.splitAt? start head, Utf8.splitAt? (start + Utf8.size rangeWord) head with
      | some (before, _), some (_, after) => some (trim (stripSign (trim before)), trim after)
      | _, _ => none

/-! ## 2. Ranges -/

/-- A loop that counts up to a bound. -/
def countingLoop (index bound : Text) : Text :=
  "for (int " ++ index ++ " = 0; " ++ index ++ " < " ++ bound ++ "; " ++ index ++ "++) \x7b"

/-- A loop over the positions of a sequence. -/
def indexLoop (index container : Text) : Text := countingLoop index ("len(" ++ container ++ ")")

/-- A loop over pairs. -/
def pairLoop (first second container : Text) : Text :=
  "for (const auto& [" ++ first ++ ", " ++ second ++ "] : " ++ container ++ ") \x7b"

/-- A loop that uses nothing of what it walks. -/
def unusedLoop (name container : Text) : Text :=
  "for ([[maybe_unused]] const auto& " ++ name ++ " : " ++ container ++ ") \x7b"

/-- A range over the integers below a number. -/
def integerRange (vars : List Text) (bound : Text) : Lower Text := do
  let index ← match vars.head? with
    | some v => bindingName v
    | none => freshName .discard
  return countingLoop index bound

/-- A range over a map with one or two variables. -/
def mapRange (first : Text) (second : Option Text) (container : Text) : Lower Text := do
  match second with
  | none =>
    let key ← bindingName first
    let value ← freshName .discard
    return pairLoop key value container
  | some second =>
    if isDiscard first && !isDiscard second then
      let entry ← freshName .entry
      return "for (const auto& " ++ entry ++ " : " ++ container ++ ") \x7b\nauto " ++ second ++ " = "
        ++ entry ++ ".second;"
    else
      let key ← bindingName first
      let value ← bindingName second
      return pairLoop key value container

/-- A range over a sequence with one or two variables. -/
def sequenceRange (first : Text) (second : Option Text) (container : Text) : Lower Text := do
  match second with
  | none =>
    if isDiscard first then
      let one ← freshName .discard
      let two ← freshName .discard
      return pairLoop one two container
    else return indexLoop first container
  | some second =>
    match isDiscard first, isDiscard second with
    | true, false => return "for (auto " ++ second ++ " : " ++ container ++ ") \x7b"
    | true, true => return unusedLoop (← freshName .discard) container
    | false, true => return indexLoop first container
    | false, false =>
      return indexLoop first container ++ "\nauto " ++ second ++ " = " ++ container ++ "[" ++ first
        ++ "];"

/-- A range over a container with at most two variables. -/
def rangeLoop (vars : List Text) (container : Text) : Lower Text := do
  if Number.isNumber container then
    integerRange vars container
  else
    let isMap := (← get).isKnownMap container
    match vars with
    | [] => return unusedLoop (← freshName .discard) container
    | [v] => if isMap then mapRange v none container else sequenceRange v none container
    | [v, w] => if isMap then mapRange v (some w) container else sequenceRange v (some w) container
    | _ => fail (.malformed .rangeLoop (joinWith ", " vars))

/-! ## 3. Loops -/

/-- The first of three clauses. -/
def loopInit (clause : Text) : Text :=
  match Binding.split? clause with
  | some ⟨lhs, rhs, .define⟩ => "auto " ++ lhs ++ " = " ++ rhs
  | _ => clause

/-- A head without `range`: a condition, or three clauses. -/
def clauseLoop (head line : Text) : Lower Text :=
  match splitTop ';' head with
  | [init, condition, post] =>
    return "for (" ++ loopInit init ++ "; " ++ condition ++ "; " ++ post ++ ") \x7b"
  | clauses =>
    if 1 < clauses.length then fail (.malformed .forLoop line)
    else return "while (" ++ head ++ ") \x7b"

/-- A line `for … {`. -/
def forLoop (line : Text) : Lower Lowered := do
  let head := trim (stripEnd "\x7b" (trim (stripStart "for" line)))
  if head.isEmpty || head.filter (· != ' ') == (";;" : Text) then
    return .line "for (;;) \x7b"
  else
    match splitRange? head with
    | some (some (vars, container)) => return .line (← rangeLoop (splitTop ',' vars) container)
    | some none => throw .splitCharacter
    | none => return .line (← clauseLoop head line)

end Lower

end Linewise
