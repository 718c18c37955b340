import PauliLowering.Command.Arguments
import PauliLowering.Command.Host

/-!
The executable: reads the files and variables that a call needs, and does what its report says.
-/

namespace PauliLowering

def FileFault.ofError : IO.Error → FileFault
  | .noFileOrDirectory _ _ _ => .missing
  | .inappropriateType _ code _ => if code = 20 then .notDirectory else .isDirectory
  | _ => .missing

def readBytes (path : String) : IO (Except FileFault ByteArray) := do
  try return .ok (← IO.FS.readBinFile path) catch e => return .error (.ofError e)

def writeText (path text : String) : IO (Except FileFault Unit) := do
  try return .ok (← IO.FS.writeFile path text) catch e => return .error (.ofError e)

def readEnvironment : IO Environment := do
  let names :=
    ["PAULIQ_QASM_VERSION", "PAULIQ_ANGLE_MULTIPLIER", "PAULIQ_EXECUTION", "PAULIQ_THREADS"]
  let values ← names.mapM fun name => return (name, (← IO.getEnv name).map String.toUTF8)
  return fun name => (values.lookup name).join

def execute (args : List String) : IO UInt32 := do
  let report ← match Command.Request.ofArguments args with
    | .lower verbosity input options => do
      let paths := input :: options.config.toList
      let contents ← paths.mapM fun path => return (path, ← readBytes path)
      let read := fun path => (contents.lookup path).getD (.error .missing)
      let host := Command.Host.standard (← readEnvironment) 1
      let prepared := Command.prepare host read verbosity input options
      match prepared.program, options.output with
      | .ok text, some path => pure (prepared.saved path (← writeText path text))
      | _, _ => pure prepared.print
    | request => pure request.answer
  for line in report.stderr do IO.eprintln line
  IO.print report.stdout
  return report.code.toUInt32

end PauliLowering

def main (args : List String) : IO UInt32 := PauliLowering.execute args
