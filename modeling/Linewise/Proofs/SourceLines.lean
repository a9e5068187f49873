/-
  What one source line does to a run, case by case.

  Only code and the line that closes a literal complete a logical line. Whatever holds along a run is
  settled for these cases.
-/
import Linewise.Run

namespace Linewise

open Text Raw

/-! ## 1. Logical lines -/

/-- A logical line and the state it is lowered in. -/
structure LogicalLine where
  state : State
  text : Text

namespace LogicalLine

/-- The line without its comment and its last semicolon. -/
def code (l : LogicalLine) : Text := codeOfLine (splitComment l.text).1

/-- The kind of the line. -/
def kind (l : LogicalLine) : StatementKind := (l.state.countBraces l.code).classify l.code

end LogicalLine

/-- The logical line that a source line completes: none for a comment or where a literal stays open. -/
def Run.completed? (r : Run) (number : Nat) (line : Text) : Option LogicalLine :=
  match r.pending with
  | some raw =>
    match close? line with
    | none => none
    | some closed =>
      if closed.opened then none
      else some ⟨{ r.state.exitBlock with lineNumber := raw.lineNumber }, raw.text ++ "\n" ++ closed.line⟩
  | none =>
    let s := { r.state with lineNumber := number }
    let trimmed := trim line
    if s.block? == some .blockComment then none
    else if startsWith trimmed "/*" && !includes trimmed "*/" then none
    else if startsWith trimmed "//" || (startsWith trimmed "/*" && endsWith trimmed "*/") then none
    else if (convert trimmed).opened then none
    else some ⟨s, (convert trimmed).line⟩

/-- The logical line that the end of the source completes. -/
def Run.remainder? (r : Run) : Option LogicalLine :=
  r.pending.map fun raw =>
    let s := { r.state with lineNumber := raw.lineNumber }
    ⟨{ (s.notice "raw string not closed before end of input").exitBlock with
      lineNumber := raw.lineNumber }, raw.text⟩

/-- The logical lines of source lines, as far as the run gets. -/
def Run.logicalLines (r : Run) (number : Nat) : List Text → List LogicalLine
  | [] => r.remainder?.toList
  | line :: rest =>
    (r.completed? number line).toList ++
      match r.sourceLine number line with
      | .ok r => r.logicalLines (number + 1) rest
      | .error _ => []

/-- **The logical lines of a source.** -/
def logicalLines (source : Text) : List LogicalLine :=
  Run.logicalLines {} 1 (lines (stripStart ['\uFEFF'] source))

/-! ## 2. Source lines -/

/-- The line opens a comment that goes on below. -/
def opensComment (line : Text) : Bool := startsWith (trim line) "/*" && !includes (trim line) "*/"

/-- The line is a comment from end to end. -/
def isComment (line : Text) : Bool :=
  startsWith (trim line) "//" || (startsWith (trim line) "/*" && endsWith (trim line) "*/")

/-- What is open between two source lines. -/
inductive Context where
  | code
  | comment
  /-- a literal between backquotes -/
  | raw
  deriving DecidableEq, Repr

/-- What is open behind a line. -/
def Context.next (line : Text) : Context → Context
  | raw => if (close? line).any (!·.opened) then code else raw
  | comment => if includes line "*/" then code else comment
  | code =>
    if startsWith (trim line) "/*" && !includes (trim line) "*/" then comment
    else if startsWith (trim line) "//" || (startsWith (trim line) "/*" && endsWith (trim line) "*/") then
      code
    else if (convert (trim line)).opened then raw
    else code

theorem Context.next_code (line : Text) :
    next line code = if opensComment line then comment else if isComment line then code
      else if (convert (trim line)).opened then raw else code := rfl

/-- What is open in a run. -/
def Run.context (r : Run) : Context :=
  if r.pending.isSome then .raw
  else if r.state.block? = some .blockComment then .comment
  else .code

theorem Run.context_of_pending {r : Run} {raw : PendingRaw} (hp : r.pending = some raw) : r.context = .raw := by
  unfold context
  rw [hp]
  rfl

theorem Run.context_of_comment {r : Run} (hp : r.pending = none) (hb : r.state.block? = some .blockComment) :
    r.context = .comment := by
  unfold context
  rw [hp, if_neg nofun, if_pos hb]

theorem Run.context_of_code {r : Run} (hp : r.pending = none) (hb : r.state.block? ≠ some .blockComment) :
    r.context = .code := by
  unfold context
  rw [hp, if_neg nofun, if_neg hb]

/-- The run at a line with this number. -/
def Run.at (r : Run) (number : Nat) : Run := { r with state := { r.state with lineNumber := number } }

/-- **What a source line does**: the logical line it completes, and what becomes of the run. -/
inductive Run.Reads (r : Run) (number : Nat) (line : Text) : Option LogicalLine → Except Halt Run → Prop where
  | inComment (hp : r.pending = none) (hb : r.state.block? = some .blockComment) :
      Reads r number line none (.ok ((r.at number).commentLine line))
  | opensComment (hp : r.pending = none) (hb : r.state.block? ≠ some .blockComment)
      (hopen : opensComment line = true) :
      Reads r number line none
        (.ok (Run.emit { r with state := (r.at number).state.enterBlock .blockComment r.state.depth } [line]))
  | isComment (hp : r.pending = none) (hb : r.state.block? ≠ some .blockComment)
      (hopen : ¬ opensComment line = true) (hwhole : isComment line = true) :
      Reads r number line none (.ok ((r.at number).emit [trimEnd line]))
  | opensRaw (hp : r.pending = none) (hb : r.state.block? ≠ some .blockComment)
      (hopen : ¬ opensComment line = true) (hwhole : ¬ isComment line = true)
      (hraw : (convert (trim line)).opened = true) :
      Reads r number line none (.ok { r with
        state := (r.at number).state.enterBlock .rawString r.state.depth
        pending := some ⟨(convert (trim line)).line, number, indentation line⟩ })
  | code (hp : r.pending = none) (hb : r.state.block? ≠ some .blockComment)
      (hopen : ¬ opensComment line = true) (hwhole : ¬ isComment line = true)
      (hraw : ¬ (convert (trim line)).opened = true) :
      Reads r number line (some ⟨(r.at number).state, (convert (trim line)).line⟩)
        ((r.at number).logicalLine (indentation line) (convert (trim line)).line false)
  | inRaw {raw : PendingRaw} (text : Text) (hp : r.pending = some raw)
      (hclose : (close? line).any (!·.opened) = false) :
      Reads r number line none (.ok { r with pending := some { raw with text := text } })
  | closesRaw {raw : PendingRaw} (text : Text) (hp : r.pending = some raw)
      (hclose : (close? line).any (!·.opened) = true) :
      Reads r number line (some ⟨{ r.state.exitBlock with lineNumber := raw.lineNumber }, text⟩)
        (r.finishRaw { raw with text := text })

theorem Run.reads (r : Run) (number : Nat) (line : Text) :
    r.Reads number line (r.completed? number line) (r.sourceLine number line) := by
  obtain ⟨state, output, pending, firstFunction⟩ := r
  unfold completed? sourceLine
  cases pending with
  | some raw =>
    simp only [rawLine]
    cases hclose : close? line with
    | none => exact .inRaw _ rfl (by rw [hclose]; rfl)
    | some closed =>
      dsimp only
      split
      · rename_i hopen
        exact .inRaw _ rfl (by rw [hclose, Option.any_some, hopen]; rfl)
      · rename_i hopen
        exact .closesRaw _ rfl (by rw [hclose, Option.any_some, Bool.eq_false_iff.mpr hopen]; rfl)
  | none =>
    simp only [plainLine]
    split
    · rename_i hb
      exact .inComment rfl (beq_iff_eq.mp hb)
    · rename_i hb
      have hb : state.block? ≠ some .blockComment := fun h => hb (beq_iff_eq.mpr h)
      split
      · rename_i hopen
        exact .opensComment rfl hb hopen
      · rename_i hopen
        split
        · rename_i hwhole
          exact .isComment rfl hb hopen hwhole
        · rename_i hwhole
          split
          · rename_i hraw
            exact .opensRaw rfl hb hopen hwhole hraw
          · rename_i hraw
            exact .code rfl hb hopen hwhole hraw

end Linewise
