import SignatureLedger.Files
import SignatureLedger.Files.Path

/-!
# Writing whole files

A file is written under another name first and then renamed, so that nobody finds it half written.
-/

namespace SignatureLedger

/-- The step of writing a file that failed. -/
inductive WriteFault where
  | directory (path : Bytes)
  | temporary (path : Bytes)
  | rename (path : Bytes)
deriving DecidableEq, Repr

/-- The text of the fault, as the user reads it. -/
def WriteFault.message : WriteFault → Bytes
  | directory path => bytes "failed to create ledger directory: " ++ path
  | temporary path => bytes "failed to open temporary file for write: " ++ path
  | rename path => bytes "failed to move temporary file to final path: " ++ path

namespace Files

variable {m : Type → Type} [Monad m] [Files m]

/-- Makes a directory and those above it that are missing. The result tells whether it is there
then. -/
def ensureDirectory (path : Bytes) : m Bool := do
  match ← look path with
  | .directory => return true
  | .absent .notFound | .absent .notDirectory =>
    let above := Path.parent path
    let ready ←
      if _h : above.length < path.length then
        if above.isEmpty then pure true else ensureDirectory above
      else pure false
    if !ready then return false
    else if Path.isDots (Path.fileName path) then return true
    else makeDirectory path
  | _ => return false
termination_by path.length

/-- Moves a file to another path. Whatever is in the way is removed. -/
def moveOver (source target : Bytes) : m Bool := do
  if ← rename source target then return true
  let _ ← remove target
  rename source target

/-- Writes a file, and the directories it is in. The text goes to a temporary file first, which is
then moved over the old one. -/
def replace (path content : Bytes) : m (Option WriteFault) := do
  let above := Path.parent path
  let ready ← if above.isEmpty then pure true else ensureDirectory above
  if !ready then return some (.directory above)
  let temporary := path ++ bytes ".tmp"
  if !(← write temporary content) then return some (.temporary temporary)
  if ← moveOver temporary path then return none
  let _ ← remove temporary
  return some (.rename path)

end Files

end SignatureLedger
