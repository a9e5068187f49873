/-
  The formatter and the compiler.

  Both read the program on standard input. What running a tool gives is a value, so everything said
  here about tools holds whatever runs them.
-/
import Linewise.Text.Decode

namespace Linewise

open Text

/-! ## 1. Running a tool -/

/-- Why the system refuses something. -/
inductive OsError where
  | noEntry
  | permissionDenied
  | isDirectory
  | notDirectory
  /-- a name or argument holds the character NUL -/
  | nulByte
  | invalidUtf8
  | other (message : Text)
  deriving DecidableEq, Repr

/-- The system's message. -/
def OsError.message : OsError → Text
  | noEntry => "No such file or directory (os error 2)"
  | permissionDenied => "Permission denied (os error 13)"
  | isDirectory => "Is a directory (os error 21)"
  | notDirectory => "Not a directory (os error 20)"
  | nulByte => "nul byte found in provided data"
  | invalidUtf8 => "stream did not contain valid UTF-8"
  | other message => message

/-- How a tool ended. -/
inductive ToolStatus where
  | exit (code : Nat)
  | signal (number : Nat) (name : Text)
  deriving DecidableEq, Repr

/-- The ending as a message calls it. -/
def ToolStatus.label : ToolStatus → Text
  | exit code => "exit status: " ++ decimal code
  | signal number name => "signal: " ++ decimal number ++ " (" ++ name ++ ")"

/-- What a tool that ran left behind. -/
structure ToolRun where
  status : ToolStatus
  stdout : List UInt8
  stderr : List UInt8
  deriving DecidableEq, Repr

/-- A tool to run: its name, its arguments, and what it reads. -/
structure ToolCall where
  program : Text
  args : List Text
  input : Text
  deriving DecidableEq, Repr

/-- Why a tool did not do its work. -/
inductive ToolError where
  | unavailable (tool : Text) (reason : OsError)
  /-- it ran and refused its input -/
  | failed (tool : Text) (status : ToolStatus) (diagnostics input : Text)
  | system (reason : OsError)
  deriving DecidableEq, Repr

/-- The message of a tool error. -/
def ToolError.message : ToolError → Text
  | unavailable tool reason => tool ++ " is not available: " ++ reason.message
  | failed tool status _ _ => tool ++ " exited with " ++ status.label
  | system reason => reason.message

/-- What a call comes to, from what running it gave: standard output, as text. -/
def ToolCall.judge (call : ToolCall) : Except OsError ToolRun → Except ToolError Text
  | .error .noEntry => .error (.unavailable call.program .noEntry)
  | .error .permissionDenied => .error (.unavailable call.program .permissionDenied)
  | .error reason => .error (.system reason)
  | .ok run =>
    if run.status = .exit 0 then .ok (Utf8.decodeLenient run.stdout)
    else .error (.failed call.program run.status (Utf8.decodeLenient run.stderr) call.input)

/-! ## 2. Formatter and compiler -/

/-- How the formatter is called. -/
structure Formatter where
  program : Text := "clang-format"
  style : Option Text := some "\x7bBasedOnStyle: WebKit, ColumnLimit: 99\x7d"
  deriving DecidableEq, Repr

/-- The call that formats a program. -/
def Formatter.call (f : Formatter) (cpp : Text) : ToolCall :=
  ⟨f.program, (f.style.map fun s => ("--style=" : Text) ++ s).toList, cpp⟩

/-- How the compiler is called. -/
structure Compiler where
  program : Text := "g++"
  standard : Text := "c++17"
  flags : List Text := ["-O2", "-pipe", "-fPIC", "-Wfatal-errors", "-s"]
  deriving DecidableEq, Repr

/-- The call that compiles a program into an executable. -/
def Compiler.call (c : Compiler) (cpp output : Text) : ToolCall :=
  ⟨c.program, "-x" :: "c++" :: ("-std=" ++ c.standard) :: (c.flags ++ (["-o", output, "-"] : List Text)), cpp⟩

end Linewise
