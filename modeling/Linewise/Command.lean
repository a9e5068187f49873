/-
  The command line.

  A source is lowered, formatted unless that is not wanted, and printed, written to a file or
  compiled. What the command does to the world it does through a `Host`, so the same definition
  serves a real system and a described one.
-/
import Linewise.Run
import Linewise.Tool

namespace Linewise

open Text

/-! ## 1. Options -/

/-- What the command is asked to do. -/
structure Options where
  /-- the source file; standard input if there is none -/
  input : Option Text := none
  /-- where the result goes; standard output if there is none -/
  output : Option Text := none
  emitCpp : Bool := false
  noFormat : Bool := false
  cxx : Option Text := none
  standard : Option Text := none
  formatStyle : Option Text := none
  quiet : Bool := false
  deriving DecidableEq, Repr

/-- What the arguments ask for. -/
inductive Invocation where
  | run (options : Options)
  | version
  /-- the arguments make no sense -/
  | usage (message : Text)
  deriving DecidableEq, Repr

/-- The options that take a value. -/
inductive ValueOption where
  | output
  | cxx
  | standard
  | formatStyle
  deriving DecidableEq, Repr

/-- The options that take none. -/
inductive FlagOption where
  | emitCpp
  | noFormat
  | quiet
  deriving DecidableEq, Repr

namespace Options

/-- The long names of options. -/
def longValue? (name : Text) : Option ValueOption :=
  [(("output" : Text), ValueOption.output), ("cxx", .cxx), ("std", .standard),
    ("format-style", .formatStyle)].lookup name

/-- The long names of flags. -/
def longFlag? (name : Text) : Option FlagOption :=
  [(("emit-cpp" : Text), FlagOption.emitCpp), ("no-format", .noFormat), ("quiet", .quiet)].lookup name

/-- The short names of flags. -/
def shortFlag? (c : Char) : Option FlagOption :=
  [('O', FlagOption.noFormat), ('q', .quiet)].lookup c

/-- The options with a value more. Each is given once, and a path is not empty. -/
def setValue? (o : Options) (option : ValueOption) (value : Text) : Option Options :=
  match option with
  | .output => if o.output.isNone && !value.isEmpty then some { o with output := some value } else none
  | .cxx => if o.cxx.isNone then some { o with cxx := some value } else none
  | .standard => if o.standard.isNone then some { o with standard := some value } else none
  | .formatStyle => if o.formatStyle.isNone then some { o with formatStyle := some value } else none

/-- The options with a flag more. Each is given once. -/
def setFlag? (o : Options) : FlagOption → Option Options
  | .emitCpp => if o.emitCpp then none else some { o with emitCpp := true }
  | .noFormat => if o.noFormat then none else some { o with noFormat := true }
  | .quiet => if o.quiet then none else some { o with quiet := true }

/-- The options with the source file, which is given once and is not empty. -/
def setInput? (o : Options) (path : Text) : Option Options :=
  if o.input.isNone && !path.isEmpty then some { o with input := some path } else none

/-- What one argument comes to. -/
inductive Reading where
  | taken (options : Options)
  /-- the value of an option is the next argument -/
  | wants (options : Options) (option : ValueOption)
  | version
  | refused
  deriving DecidableEq, Repr

/-- An argument that is taken or refused. -/
def Reading.ofOption : Option Options → Reading
  | some o => .taken o
  | none => .refused

/-- A cluster of short options. The output takes the rest of the cluster for its value. -/
def readShort (o : Options) : Text → Reading
  | [] => .taken o
  | 'V' :: _ => .version
  | 'o' :: [] => .wants o .output
  | 'o' :: '=' :: value => .ofOption (o.setValue? .output value)
  | 'o' :: value => .ofOption (o.setValue? .output value)
  | c :: rest =>
    match (shortFlag? c).bind o.setFlag? with
    | some o => o.readShort rest
    | none => .refused

/-- A long option, its value perhaps after an equals sign. -/
def readLong (o : Options) (s : Text) : Reading :=
  match splitOnce? (· == '=') s with
  | some (name, value) => .ofOption ((longValue? name).bind fun option => o.setValue? option value)
  | none =>
    if s = "version" then .version
    else match longValue? s with
      | some option => .wants o option
      | none => .ofOption ((longFlag? s).bind o.setFlag?)

/-- An argument is a long option, a cluster of short ones, or the source file. -/
def read (o : Options) : Text → Reading
  | '-' :: '-' :: s => o.readLong s
  | '-' :: c :: s => o.readShort (c :: s)
  | path => .ofOption (o.setInput? path)

/-- Does an argument look like an option? Then it is nobody's value. -/
def looksLikeOption : Text → Bool
  | '-' :: _ :: _ => true
  | _ => false

/-- What is wrong with an argument. -/
def unexpected (arg : Text) : Invocation := .usage ("unexpected argument '" ++ arg ++ "' found")

/-- What is wrong with an option that no value follows. -/
def missingValue (arg : Text) : Invocation := .usage ("a value is required for '" ++ arg ++ "'")

/-- Arguments after the end of the options. -/
def paths (o : Options) : List Text → Invocation
  | [] => .run o
  | arg :: rest =>
    match o.setInput? arg with
    | some o => o.paths rest
    | none => unexpected arg

/-- The arguments read from left to right. -/
def parseFrom (o : Options) : List Text → Invocation
  | [] => .run o
  | ['-', '-'] :: rest => o.paths rest
  | arg :: rest =>
    match o.read arg with
    | .taken o => o.parseFrom rest
    | .version => .version
    | .refused => unexpected arg
    | .wants o option =>
      match rest with
      | [] => missingValue arg
      | value :: rest =>
        if looksLikeOption value then missingValue arg
        else match o.setValue? option value with
          | some o => o.parseFrom rest
          | none => unexpected value

/-- What the arguments ask for. -/
def parse (args : List Text) : Invocation := parseFrom {} args

/-- The source as messages call it. -/
def inputName (o : Options) : Text := o.input.getD "<stdin>"

end Options

/-! ## 2. The world -/

/-- What the command needs from the world. -/
structure Host (m : Type → Type) where
  /-- all of standard input -/
  readStdin : m (List UInt8)
  /-- a file, or why it cannot be read -/
  load : Text → m (Except OsError (List UInt8))
  /-- write a file, or tell why not -/
  store : Text → Text → m (Option OsError)
  runTool : ToolCall → m (Except OsError ToolRun)
  /-- a variable of the environment -/
  environment : Text → m (Option Text)
  print : Text → m Unit
  printError : Text → m Unit

/-! ## 3. Messages -/

/-- Text in a colour. -/
def coloured (code text : Text) : Text := "\x1b[" ++ code ++ "m" ++ text ++ "\x1b[0m"

/-- A line that says why the command fails. -/
def errorLine (message : Text) : Text := coloured "1;31" "error" ++ ": " ++ message ++ "\n"

/-- A line for a notice. -/
def warningLine (input : Text) (n : Notice) : Text :=
  coloured "1;33" "warning" ++ ": " ++ input ++ ":" ++ n.display ++ "\n"

/-- A rule across the page. -/
def ruleLine : Text := coloured "34" (List.replicate 63 '─') ++ "\n"

/-- A number in a column of four. -/
def column (n : Nat) : Text := List.replicate (4 - (decimal n).length) ' ' ++ decimal n

/-- The lines of a program under their numbers, the first of them under `n`. -/
def listing (n : Nat) : List Text → Text
  | [] => []
  | l :: ls => column n ++ " | " ++ l ++ "\n" ++ listing (n + 1) ls

/-- What is shown of a program that the compiler refuses. -/
def rejection (cpp diagnostics : Text) : Text :=
  ruleLine ++ coloured "36" "Translated C++:" ++ "\n" ++ ruleLine ++ listing 1 (lines cpp) ++ ruleLine
    ++ diagnostics ++ "\n"

/-! ## 4. The command -/

namespace Host

variable {m : Type → Type} [Monad m]

/-- Fail with a message. -/
def fail (h : Host m) (message : Text) : m Nat := do
  h.printError (errorLine message)
  return 1

/-- The source text. -/
def readSource (h : Host m) (input : Option Text) : m (Except OsError Text) := do
  let bytes ← match input with
    | some path => h.load path
    | none => do pure (.ok (← h.readStdin))
  return bytes.bind fun bytes =>
    match Utf8.decode? bytes with
    | some text => .ok text
    | none => .error .invalidUtf8

/-- Run a tool. A name or an argument with a NUL in it is refused before that. -/
def call (h : Host m) (c : ToolCall) : m (Except ToolError Text) := do
  if (c.program :: c.args).any (·.contains '\x00') then
    return c.judge (.error .nulByte)
  else
    return c.judge (← h.runTool c)

/-- The formatted program; the program itself if there is no formatter or it fails. -/
def format (h : Host m) (o : Options) (cpp : Text) : m Text := do
  if o.noFormat then
    return cpp
  let formatter : Formatter := match o.formatStyle with
    | some style => { style := some style }
    | none => {}
  match ← h.call (formatter.call cpp) with
  | .ok formatted => return formatted
  | .error _ => return cpp

/-- Compile into an executable. An option wins over a variable. -/
def compile (h : Host m) (o : Options) (cpp output : Text) : m Nat := do
  let cxx := o.cxx.or (← h.environment "GO2CPP_CXX")
  let standard := o.standard.or (← h.environment "GO2CPP_STD")
  let compiler : Compiler := { program := cxx.getD "g++", standard := standard.getD "c++17" }
  match ← h.call (compiler.call cpp output) with
  | .ok _ =>
    if !o.quiet then
      h.printError (coloured "1;32" "compiled" ++ " " ++ output ++ "\n")
    return 0
  | .error (.failed tool _ diagnostics input) =>
    h.printError (rejection input diagnostics)
    h.fail (tool ++ " rejected the translated program")
  | .error e => h.fail e.message

/-- Where the program goes: standard output, a file, or the compiler. -/
def deliver (h : Host m) (o : Options) (cpp : Text) : m Nat := do
  match o.output with
  | none =>
    h.print cpp
    return 0
  | some output =>
    if o.emitCpp then
      match ← h.store output cpp with
      | none => return 0
      | some reason => h.fail ("writing " ++ output ++ ": " ++ reason.message)
    else h.compile o cpp output

/-- A source lowered, formatted and delivered. -/
def process (h : Host m) (o : Options) : m Nat := do
  match ← h.readSource o.input with
  | .error reason => h.fail ("reading " ++ o.inputName ++ ": " ++ reason.message)
  | .ok source =>
    match lower source with
    | .error ⟨line, .fault f⟩ => h.fail (o.inputName ++ ":" ++ atLine line f.message)
    | .error ⟨_, .splitCharacter⟩ => return 101
    | .ok program =>
      if !o.quiet then
        h.printError (program.notices.flatMap (warningLine o.inputName))
      h.deliver o (← h.format o program.cpp)

/-- The whole command: its exit status. -/
def command (h : Host m) (args : List Text) : m Nat := do
  match Options.parse args with
  | .run o => h.process o
  | .version =>
    h.print "go2cpp 1.0.0\n"
    return 0
  | .usage message =>
    h.printError ("error: " ++ message ++ "\n")
    return 2

end Host

end Linewise
