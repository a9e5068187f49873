/-
  Printing.

      fmt.Println("x =", x)     std::cout << "x =" << " ";
                                _format_output(std::cout, x);
                                std::cout << std::endl;
      println("oops")           std::cerr << "oops" << std::endl;
      fmt.Printf("%v\n", p)     printf("%s\n", _format_string(p).c_str());

  A string or a number written out is streamed as it stands; every other operand goes through
  `_format_output`. In a format, a verb that C does not have, or has with another meaning, becomes
  `%s` and its argument is formatted to a string first.
-/
import Linewise.Literal.Number
import Linewise.Lower.Basic

namespace Linewise

open Text

/-! ## 1. Printing functions -/

/-- Where a space goes between two operands. -/
inductive Spacing where
  | always
  /-- where neither operand is a string written out -/
  | betweenNonStrings
  | never
  deriving DecidableEq, Repr

/-- Standard output or standard error. -/
inductive Sink where
  | out
  | err
  deriving DecidableEq, Repr

namespace Sink

/-- The sink as a stream. -/
def stream : Sink → Text
  | out => "std::cout"
  | err => "std::cerr"

/-- The sink as a file. -/
def file : Sink → Text
  | out => "stdout"
  | err => "stderr"

/-- The sink a writer argument names. -/
def ofWriter? (writer : Text) : Option Sink :=
  if trim writer == ("os.Stdout" : Text) then some out
  else if trim writer == ("os.Stderr" : Text) then some err
  else none

end Sink

/-- What a printing function does with its operands. -/
inductive Printer where
  /-- stream them, one after the other; without a sink the first operand names it -/
  | stream (sink : Option Sink) (spacing : Spacing) (newline : Bool)
  /-- print them under a format; `toWriter` if the first operand names the file -/
  | format (toWriter : Bool)
  deriving DecidableEq, Repr

/-- The printing functions. -/
def printers : List (Text × Printer) :=
  [("fmt.Println", .stream (some .out) .always true),
   ("fmt.Print", .stream (some .out) .betweenNonStrings false),
   ("println", .stream (some .err) .always true),
   ("print", .stream (some .err) .never false),
   ("fmt.Fprintln", .stream none .always true),
   ("fmt.Fprint", .stream none .betweenNonStrings false),
   ("fmt.Printf", .format false),
   ("fmt.Fprintf", .format true)]

/-! ## 2. Streams -/

/-- What is sent to a stream. -/
inductive Piece where
  /-- with `<<` -/
  | direct (text : Text)
  /-- through `_format_output` -/
  | formatted (expr : Text)
  deriving DecidableEq, Repr

/-- A string or a number written out. -/
def isDirect (operand : Text) : Bool := isStringLiteral operand || Number.isNumber operand

namespace Spacing

/-- A space goes between these neighbours. -/
def separates (s : Spacing) (left right : Text) : Bool :=
  match s with
  | always => true
  | betweenNonStrings => !isStringLiteral left && !isStringLiteral right
  | never => false

/-- The pieces of the operands that follow `left`. -/
def piecesAfter (s : Spacing) (left : Option Text) : List Text → List Piece
  | [] => []
  | operand :: rest =>
    (if left.any (s.separates · operand) then [.direct "\" \""] else [])
      ++ (if isDirect operand then .direct operand else .formatted operand)
      :: s.piecesAfter (some operand) rest

end Spacing

/-- A run of pieces sent with `<<`, as one statement. -/
def flush (sink : Text) (run : List Text) : List Text :=
  if run.isEmpty then [] else [sink ++ " << " ++ joinWith " << " run ++ ";"]

/-- The statements for pieces; `run` are those not yet sent. -/
def streamStatements (sink : Text) (run : List Text) : List Piece → List Text
  | [] => flush sink run
  | .direct text :: rest => streamStatements sink (run ++ [text]) rest
  | .formatted expr :: rest =>
    flush sink run ++ ("_format_output(" ++ sink ++ ", " ++ expr ++ ");") :: streamStatements sink [] rest

/-! ## 3. Formats -/

/-- Flags, width and precision. -/
def isFlag (c : Char) : Bool := ("+-# 0123456789." : Text).contains c

/-- A verb that C has with the same meaning. -/
def isNativeVerb (c : Char) : Bool := ("dfFeEgGxXoc" : Text).contains c

/-- The argument is an integer written in decimal or with the head `0x`. -/
def isIntegerArgument (arg : Text) : Bool := (Number.int64? 10 arg).isSome || startsWith arg "0x"

/-- A conversion in a C format, and whether its argument has to be formatted first. -/
def conversion (spec : Text) (verb : Char) (arg : Text) : Text × Bool :=
  if isNativeVerb verb then ("%" ++ spec ++ [verb], false)
  else if verb == 'v' && Number.isNumber arg then
    ("%" ++ spec ++ [if isIntegerArgument arg then 'd' else 'g'], false)
  else if (verb == 'v' || verb == 's') && isStringLiteral arg then ("%" ++ spec ++ "s", false)
  else if verb == 'q' then ("\\\"%s\\\"", true)
  else ("%" ++ spec ++ "s", true)

/-- A format and its arguments in C, and whether any argument is formatted first. -/
structure CFormat where
  format : Text
  args : List Text
  formats : Bool
  deriving DecidableEq, Repr

namespace CFormat

/-- The format with text in front. -/
def prepend (text : Text) (f : CFormat) : CFormat := { f with format := text ++ f.format }

/-- The format with a converted argument in front. -/
def prependArg (text arg : Text) (wrap : Bool) (f : CFormat) : CFormat :=
  ⟨text ++ f.format, (if wrap then "_format_string(" ++ arg ++ ").c_str()" else arg) :: f.args,
    f.formats || wrap⟩

/-- The format read from left to right with the arguments still to come. Inside a conversion
    `spec` holds its flags so far. A percent sign that ends the format stays as it is. -/
def ofGo (spec : Option Text) (args : List Text) : Text → CFormat
  | [] => ⟨(spec.map ('%' :: ·)).getD [], args, false⟩
  | c :: r =>
    match spec with
    | none => if c == '%' then ofGo (some []) args r else (ofGo none args r).prepend [c]
    | some flags =>
      if isFlag c then ofGo (some (flags ++ [c])) args r
      else if c == '%' then (ofGo none args r).prepend "%%"
      else
        match args with
        | [] => (ofGo none [] r).prepend (conversion flags c []).1
        | arg :: rest =>
          let (text, wrap) := conversion flags c arg
          (ofGo none rest r).prependArg text arg wrap

end CFormat

namespace Lower

/-! ## 4. Print statements -/

/-- Operands sent to a stream. -/
def printStream (sink : Sink) (spacing : Spacing) (newline : Bool) (operands : List Text) :
    Lower Lowered := do
  if !operands.all isDirect then
    modify fun s => { s with needsPrettyPrint := true }
  let pieces := spacing.piecesAfter none operands ++ (if newline then [.direct "std::endl"] else [])
  return if pieces.isEmpty then .dropped else .line (unlines (streamStatements sink.stream [] pieces))

/-- Operands printed under a format, the first of them. `head` starts the call. -/
def printFormat (head : Text) (operands : List Text) (line : Text) : Lower Lowered := do
  match operands with
  | [] => fail (.malformed .formattedPrint line)
  | format :: args =>
    if startsWith format "\"" && isStringLiteral format then
      let f := CFormat.ofGo none args format
      if f.formats then
        modify fun s => { s with needsPrettyPrint := true }
      return .statement (head ++ joinWith ", " (f.format :: f.args) ++ ")")
    else
      modify (·.notice ("non-literal format string passed through: " ++ quoted line))
      return .statement (head ++ joinWith ", " operands ++ ")")

/-- A print call that is no call this library knows. -/
def unsupportedPrint (what line : Text) : Lower Lowered :=
  passThrough ("unsupported " ++ what ++ " passed through: ") line

/-- A call of the named function with these operands. -/
def printCall (name : Text) (operands : List Text) (line : Text) : Lower Lowered :=
  match printers.lookup name with
  | none => unsupportedPrint "print function" line
  | some (.stream (some sink) spacing newline) => printStream sink spacing newline operands
  | some (.stream none spacing newline) =>
    match operands.head?.bind Sink.ofWriter? with
    | some sink => printStream sink spacing newline operands.tail
    | none => unsupportedPrint "writer" line
  | some (.format false) => printFormat "printf(" operands line
  | some (.format true) =>
    match operands.head?.bind Sink.ofWriter? with
    | some sink => printFormat ("fprintf(" ++ sink.file ++ ", ") operands.tail line
    | none => unsupportedPrint "writer" line

/-- A line that calls a printing function. -/
def print (line : Text) : Lower Lowered := do
  let some i := line.idxOf? '(' | unsupportedPrint "print call without arguments" line
  match enclosed? (line.drop i) with
  | some (inside, []) => printCall (trim (line.take i)) (splitTop ',' inside) line
  | _ => unsupportedPrint "print call with trailing text" line

end Lower

end Linewise
