import SignatureLedger.Command.Run
import Std.Time.DateTime.Timestamp

/-!
# The program

The files, the environment and the streams of the machine.
-/

namespace SignatureLedger

/-- Bytes as the text that the machine takes as a path. -/
def pathText (p : Bytes) : String := (String.fromUTF8? ⟨p.toArray⟩).getD ""

/-- The reason behind an error of the run-time system. -/
def FileError.ofError : IO.Error → FileError
  | .noFileOrDirectory .. => .notFound
  | .inappropriateType _ _ details =>
    if details.toLower = "not a directory" then .notDirectory else .isDirectory
  | .invalidArgument .. => .nameTooLong
  | .permissionDenied .. => .denied
  | _ => .other

/-- What is at a path shows when it is read. -/
def lookAt (p : Bytes) : IO Entry := do
  match ← (IO.FS.readBinFile (pathText p)).toBaseIO with
  | .ok content => return .file content.data.toList
  | .error e =>
    match FileError.ofError e with
    | .isDirectory => return .directory
    | .denied => return .closed .denied
    | error => return .absent error

/-- An action succeeds if it raises no error. -/
def succeeds (action : IO Unit) : IO Bool := do
  match ← action.toBaseIO with
  | .ok _ => return true
  | .error _ => return false

instance : Files IO where
  look := lookAt
  makeDirectory p := do
    if ← succeeds (IO.FS.createDir (pathText p)) then return true
    return (← lookAt p) == .directory
  write p content := succeeds (IO.FS.writeBinFile (pathText p) ⟨content.toArray⟩)
  rename source target := succeeds (IO.FS.rename (pathText source) (pathText target))
  remove p := do
    if ← succeeds (IO.FS.removeFile (pathText p)) then return true
    succeeds (IO.FS.removeDir (pathText p))

/-- The variables of the environment that settings are read from. -/
def environment : IO Config.Environment := do
  let found ← Config.Environment.names.filterMapM fun name => do
    return (← IO.getEnv name).map fun v => (bytes name, bytes v)
  return ByteMap.ofList found

/-- What a run depends on besides its arguments and the files. -/
def circumstances : IO Command.Circumstances := do
  let directory ← IO.currentDir
  let now ← Std.Time.Timestamp.now
  return {
    directory := bytes directory.toString
    environment := ← environment
    now := Int64.ofInt now.toMillisecondsSinceUnixEpoch.val }

end SignatureLedger

/-- Runs the program with its arguments. -/
def main (args : List String) : IO UInt32 := do
  let c ← SignatureLedger.circumstances
  let report ← SignatureLedger.Command.run c (args.map SignatureLedger.bytes)
  (← IO.getStdout).write ⟨report.out.toArray⟩
  (← IO.getStderr).write ⟨report.err.toArray⟩
  return report.status.code
