/-
  The command on a real system.

  Standard input, standard output and files are the system's own. No other program is run from
  here: to this host every tool is absent, so programs are printed or written, not compiled.
-/
import Linewise.Command

namespace Linewise

/-- The system's refusal, from the exception it raises. -/
def OsError.ofIOError : IO.Error → OsError
  | .noFileOrDirectory .. => .noEntry
  | .permissionDenied .. => .permissionDenied
  | .inappropriateType _ 20 _ => .notDirectory
  | .inappropriateType _ 21 _ => .isDirectory
  | e => .other e.toString.toList

/-- Everything on standard input. -/
partial def readAll (stream : IO.FS.Stream) (bytes : ByteArray) : IO ByteArray := do
  let more ← stream.read 65536
  if more.isEmpty then return bytes else readAll stream (bytes ++ more)

/-- The host of the command line. -/
def systemHost : Host IO where
  readStdin := return (← readAll (← IO.getStdin) .empty).toList
  load path := do
    try return .ok (← IO.FS.readBinFile (String.ofList path)).toList
    catch e => return .error (.ofIOError e)
  store path text := do
    try
      IO.FS.writeFile (String.ofList path) (String.ofList text)
      return none
    catch e => return some (.ofIOError e)
  runTool _ := return .error .noEntry
  environment name := return (← IO.getEnv (String.ofList name)).map String.toList
  print text := do (← IO.getStdout).putStr (String.ofList text)
  printError text := do (← IO.getStderr).putStr (String.ofList text)

end Linewise

/-- The command line. -/
def main (args : List String) : IO UInt32 := do
  return (← Linewise.systemHost.command (args.map String.toList)).toUInt32
