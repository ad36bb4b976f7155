import SignatureLedger.Text.Bytes

/-!
# Files

What the program asks of a file system. Everything that reads or writes files is written for any
monad with these operations, so that it can be run on a machine and on a tree held in memory alike.
-/

namespace SignatureLedger

/-- Why something at a path cannot be had. -/
inductive FileError where
  | notFound
  | notDirectory
  | isDirectory
  | nameTooLong
  | denied
  | other
deriving DecidableEq, Repr

/-- The message of the operating system. -/
def FileError.message : FileError → Bytes
  | notFound => bytes "No such file or directory"
  | notDirectory => bytes "Not a directory"
  | isDirectory => bytes "Is a directory"
  | nameTooLong => bytes "File name too long"
  | denied => bytes "Permission denied"
  | other => bytes "Input/output error"

/-- What is at a path. -/
inductive Entry where
  | file (content : Bytes)
  | directory
  /-- There is something, but it cannot be opened. -/
  | closed (error : FileError)
  | absent (error : FileError)
deriving DecidableEq, Repr

/-- There is something. -/
def Entry.isThere : Entry → Bool
  | file _ | directory | closed _ => true
  | absent _ => false

/-- The content of a file, or why it cannot be read. What reading a directory gives depends on the
file system: some let a directory be opened and then give no size, or none that fits in memory. Here
it is an error, and a result that depends on it says that the paths lead to no directory. -/
def Entry.content : Entry → Except FileError Bytes
  | file content => .ok content
  | directory => .error .isDirectory
  | closed error | absent error => .error error

/-- The operations of a file system. Those that change something say whether they succeeded. -/
class Files (m : Type → Type) where
  look : Bytes → m Entry
  /-- Makes a directory. One that is there already will do. -/
  makeDirectory : Bytes → m Bool
  /-- Gives a file its content; the file is made if there is none. -/
  write : Bytes → Bytes → m Bool
  /-- Renames a file. Another file of the new name is replaced, but no directory. -/
  rename : Bytes → Bytes → m Bool
  /-- Removes a file or an empty directory. -/
  remove : Bytes → m Bool

end SignatureLedger
