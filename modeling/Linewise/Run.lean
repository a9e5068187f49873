/-
  A whole source, line by line.

  Each source line is classified against what is open, lowered, and laid out under the indentation
  it had. Two things come before that: a literal between backquotes that spans lines is put together
  into one logical line under the number of its first line, and a block comment is copied. The
  declarations of all functions go right before the first function.
-/
import Linewise.Literal.Raw
import Linewise.Lower.Line
import Linewise.Program.Finish

namespace Linewise

open Text

/-! ## 1. The run -/

/-- A literal between backquotes that is not closed yet, as one text. -/
structure PendingRaw where
  text : Text
  /-- where it starts -/
  lineNumber : Nat
  indent : Text
  deriving DecidableEq, Repr

/-- What has been read and emitted so far. -/
structure Run where
  state : State := {}
  output : List Text := []
  pending : Option PendingRaw := none
  /-- which output line the first function starts on -/
  firstFunction : Option Nat := none
  deriving DecidableEq, Repr

/-- Why a run ended before the end of its source. -/
structure Halt where
  line : Nat
  stop : Stop
  deriving DecidableEq, Repr

/-- More lines of output. -/
def Run.emit (r : Run) (lines : List Text) : Run := { r with output := r.output ++ lines }

/-! ## 2. Closing braces and class openers -/

/-- The braces of a line are counted before it is classified. -/
def State.countBraces (s : State) (line : Text) : State :=
  { s with depthBefore := s.depth, depth := braceDepth s.depth line }

/-- The body of a function ends. Before the brace that ends the entry point stands its status. -/
def State.closeFunction (s : State) (line : Text) (rendered : Option Text) : Option Text × State :=
  if s.closesFunction line then
    (if s.function.any (·.isMain) then rendered.map (fun r => ("return 0;\n" : Text) ++ r) else rendered,
      { s with function := none })
  else (rendered, s)

/-- A line that starts with a closing brace and is nothing else may end a switch and a function. The
    brace of a switch without clauses has nothing to close. -/
def State.closeBrace (s : State) (line : Text) (rendered : Option Text) : Option Text × State :=
  match s.switchAt? s.depth with
  | some frame =>
    if frame.firstClause then (none, s.exitSwitch) else s.exitSwitch.closeFunction line rendered
  | none => s.closeFunction line rendered

/-- The open struct remembers which line opened it. -/
def State.noteOpener (s : State) (index : Nat) : State :=
  { s with struct := s.struct.map fun d => { d with opener := d.opener.or (some index) } }

/-- Once the embedded types of a struct are known, the line that opened its class names them. -/
def reopenClass (draft : Option StructDraft) (output : List Text) : List Text :=
  match draft with
  | some ⟨name, _, bases, some index⟩ =>
    if bases.isEmpty then output
    else output.modify index fun opener => indentation opener ++ classOpener name bases
  | _ => output

/-! ## 3. Logical lines -/

/-- A comment goes to the end of the last line. -/
def appendComment (comment : Text) : List Text → List Text
  | [] => []
  | [last] => [last ++ " " ++ comment]
  | l :: ls => l :: appendComment comment ls

/-- The lines of output for one logical line. Text that holds a literal over several lines is not
    indented again. -/
def layout (indent : Text) (spansLines : Bool) (rendered comment : Option Text) : List Text :=
  match rendered, comment with
  | some text, comment =>
    let ls := if spansLines then [indent ++ text] else (lines text).map (indent ++ ·)
    match comment with
    | some c => appendComment c ls
    | none => ls
  | none, some c => [indent ++ c]
  | none, none => []

/-- The code of a logical line: no comment, no white space around it, no semicolon at its end. -/
def codeOfLine (code : Text) : Text := trimEnd (stripEnd ";" (trim code))

/-- A logical line with code in it. -/
def Run.codeLine (r : Run) (indent code : Text) (comment : Option Text) (spansLines : Bool) :
    Except Halt Run :=
  let s := r.state.countBraces code
  let kind := s.classify code
  match (Lower.line kind code).run s with
  | .error stop s' => .error ⟨s'.lineNumber, stop⟩
  | .ok lowered s' =>
    let (rendered, s') :=
      if kind == .expression && startsWith code "\x7d" then s'.closeBrace code lowered.render
      else (lowered.render, s')
    let closing := if kind == .blockClose .structBody then s.struct else none
    .ok { r with
      state := s'.noteOpener r.output.length
      output := reopenClass closing r.output ++ layout indent spansLines rendered comment
      firstFunction :=
        if kind == .functionSignature then r.firstFunction.or (some r.output.length)
        else r.firstFunction }

/-- A logical line. -/
def Run.logicalLine (r : Run) (indent text : Text) (spansLines : Bool) : Except Halt Run :=
  let (code, comment) := splitComment text
  let code := codeOfLine code
  if code.isEmpty then .ok (r.emit [(comment.map (indent ++ ·)).getD []])
  else r.codeLine indent code comment spansLines

/-! ## 4. Source lines -/

/-- The pending literal is complete: its text is one logical line. -/
def Run.finishRaw (r : Run) (raw : PendingRaw) : Except Halt Run :=
  { r with pending := none, state := { r.state.exitBlock with lineNumber := raw.lineNumber } }.logicalLine
    raw.indent raw.text true

/-- A line inside a literal between backquotes. -/
def Run.rawLine (r : Run) (raw : PendingRaw) (line : Text) : Except Halt Run :=
  match Raw.close? line with
  | none => .ok { r with pending := some { raw with text := raw.text ++ "\n" ++ line } }
  | some closed =>
    let raw := { raw with text := raw.text ++ "\n" ++ closed.line }
    if closed.opened then .ok { r with pending := some raw } else r.finishRaw raw

/-- A line inside a block comment. -/
def Run.commentLine (r : Run) (line : Text) : Run :=
  { r with state := if includes line "*/" then r.state.exitBlock else r.state }.emit [line]

/-- A line outside literals and comments. -/
def Run.plainLine (r : Run) (number : Nat) (line : Text) : Except Halt Run :=
  let trimmed := trim line
  if startsWith trimmed "/*" && !includes trimmed "*/" then
    .ok ({ r with state := r.state.enterBlock .blockComment r.state.depth }.emit [line])
  else if startsWith trimmed "//" || (startsWith trimmed "/*" && endsWith trimmed "*/") then
    .ok (r.emit [trimEnd line])
  else
    let converted := Raw.convert trimmed
    if converted.opened then
      .ok { r with
        state := r.state.enterBlock .rawString r.state.depth
        pending := some ⟨converted.line, number, indentation line⟩ }
    else r.logicalLine (indentation line) converted.line false

/-- One source line. -/
def Run.sourceLine (r : Run) (number : Nat) (line : Text) : Except Halt Run :=
  match r.pending with
  | some raw => r.rawLine raw line
  | none =>
    let r := { r with state := { r.state with lineNumber := number } }
    if r.state.block? == some .blockComment then .ok (r.commentLine line) else r.plainLine number line

/-- Source lines, the first of them under the given number. -/
def Run.sourceLines (r : Run) (number : Nat) : List Text → Except Halt Run
  | [] => .ok r
  | line :: rest => (r.sourceLine number line).bind fun r => r.sourceLines (number + 1) rest

/-! ## 5. The end of the source -/

/-- Every block still open gets a notice, the innermost first. -/
def State.noticeOpenBlocks (s : State) : State :=
  { s.blocks.foldl (fun s f => s.notice (f.block.name ++ " block not closed before end of input")) s with
    blocks := [] }

/-- The end of the source: a pending literal is taken as it is. -/
def Run.close (r : Run) : Except Halt Run := do
  let r ← match r.pending with
    | some raw =>
      let s := { r.state with lineNumber := raw.lineNumber }
      { r with state := s.notice "raw string not closed before end of input" }.finishRaw raw
    | none => .ok r
  return { r with state := r.state.noticeOpenBlocks }

/-- The lines of output with the declarations of the functions in place. -/
def Run.placed (r : Run) : List Text :=
  let prototypes := r.state.prototypes
  if prototypes.isEmpty then r.output
  else
    let i := r.firstFunction.getD r.output.length
    r.output.take i ++ prototypes ++ [[]] ++ r.output.drop i

/-- What the program as a whole needs. -/
def Run.flags (r : Run) : ProgramFlags := ⟨r.state.needsPrettyPrint, r.state.hasAggregates⟩

/-- A C++ program, with remarks on lines that were passed through. -/
structure Program where
  cpp : Text
  notices : List Notice
  deriving DecidableEq, Repr

/-- The run of a source, to its end. A byte order mark at the start is not part of it. -/
def runSource (source : Text) : Except Halt Run :=
  (Run.sourceLines {} 1 (lines (stripStart ['\uFEFF'] source))).bind Run.close

/-- The C++ program for a Go source. -/
def lower (source : Text) : Except Halt Program :=
  (runSource source).map fun r => ⟨finish r.placed r.flags, r.state.notices⟩

end Linewise
