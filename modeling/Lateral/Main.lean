import Lateral.CommandLine.Demo

/-!
# Program

Runs the demonstration on the arguments of the command line, prints what it puts
out and writes its log to the log file.
-/

namespace Lateral

/-- The lines of a log file; entries for debugging are left out. -/
def logLines (log : List LogEntry) : String :=
  String.join ((log.filter fun entry => entry.level != .debug).map fun entry =>
    "[" ++ entry.level.text ++ "] " ++ entry.message ++ "\n")

end Lateral

/-- Runs the demonstration. A log file that can not be written is passed over. -/
def main (arguments : List String) : IO UInt32 := do
  let session := Lateral.Demo.session arguments
  IO.print session.output
  match session.logFile with
  | some path => try IO.FS.writeFile path (Lateral.logLines session.log) catch _ => pure ()
  | none => pure ()
  return session.exitCode
