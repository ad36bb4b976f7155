import SignatureLedger.ByteMap
import SignatureLedger.Files
import SignatureLedger.Files.Path

/-!
# File trees in memory

A tree of files and directories, and the file operations on it. A node is known by its full name:
the names of the directories above it and its own one, each with a slash before it, so that the root
has the empty name.
-/

namespace SignatureLedger

/-- What a name can stand for. -/
inductive Node where
  | file (content : Bytes)
  | directory
deriving DecidableEq, Repr

/-- A file system in memory: its nodes by their full names. -/
structure FileTree where
  nodes : ByteMap Node := ByteMap.empty
  /-- The full name of the directory that relative paths start from. -/
  here : Bytes := []

namespace FileTree

/-- What a path leads to: a node, or a place in a directory where nothing is yet. -/
inductive Place where
  | node (name : Bytes) (n : Node)
  | free (name : Bytes)
  | error (e : FileError)
deriving DecidableEq, Repr

/-- The longest name in a directory, and the length that every path stays below. -/
def nameLimit : Nat := 255

/-- How long a path can be, in bytes. -/
def pathLimit : Nat := 4096

/-- The full name of the directory above. The root is above itself. -/
def above (name : Bytes) : Bytes :=
  ((name.splitLast? Byte.slash).map (·.1)).getD []

/-- Follows names from the directory `start`. A dot stays where it is, and two dots lead to the
directory above. -/
def walk (t : FileTree) (start : Bytes) : List Bytes → Place
  | [] => .node start .directory
  | part :: parts =>
    if part.isEmpty ∨ part = [Byte.dot] then walk t start parts
    else if part = [Byte.dot, Byte.dot] then walk t (above start) parts
    else if nameLimit < part.length then .error .nameTooLong
    else
      let name := start ++ Byte.slash :: part
      match t.nodes.find? name with
      | none => if parts.isEmpty then .free name else .error .notFound
      | some .directory => walk t name parts
      | some (.file content) =>
        if parts.isEmpty then .node name (.file content) else .error .notDirectory

/-- Follows a path. -/
def find (t : FileTree) (path : Bytes) : Place :=
  if path.isEmpty then .error .notFound
  else if pathLimit ≤ path.length then .error .nameTooLong
  else walk t (if Path.isAbsolute path then [] else t.here) (path.splitOn Byte.slash)

/-- What a path leads to. -/
def look (t : FileTree) (path : Bytes) : Entry :=
  match t.find path with
  | .node _ (.file content) => .file content
  | .node _ .directory => .directory
  | .free _ => .absent .notFound
  | .error e => .absent e

/-- Puts a node under its full name. -/
def set (t : FileTree) (name : Bytes) (n : Node) : FileTree :=
  { t with nodes := t.nodes.insert name n }

/-- There is something in the directory of the given full name. -/
def hasChildren (t : FileTree) (name : Bytes) : Bool :=
  t.nodes.keys.any (name ++ [Byte.slash]).isPrefixOf

/-- Makes a directory in one that is there; a directory that is there already will do. -/
def makeDirectory (t : FileTree) (path : Bytes) : Bool × FileTree :=
  match t.find path with
  | .free name => (true, t.set name .directory)
  | .node _ .directory => (true, t)
  | _ => (false, t)

/-- Writes a file, in place of one that is there. -/
def write (t : FileTree) (path content : Bytes) : Bool × FileTree :=
  match t.find path with
  | .free name | .node name (.file _) => (true, t.set name (.file content))
  | _ => (false, t)

/-- Moves a file to a new name, in place of a file that is there. -/
def rename (t : FileTree) (source target : Bytes) : Bool × FileTree :=
  match t.find source, t.find target with
  | .node old (.file content), .free new | .node old (.file content), .node new (.file _) =>
    (true, { t with nodes := (t.nodes.erase old).insert new (.file content) })
  | _, _ => (false, t)

/-- Removes a file, or a directory with nothing in it. -/
def remove (t : FileTree) (path : Bytes) : Bool × FileTree :=
  match t.find path with
  | .node name (.file _) => (true, { t with nodes := t.nodes.erase name })
  | .node name .directory =>
    if name.isEmpty || t.hasChildren name then (false, t)
    else (true, { t with nodes := t.nodes.erase name })
  | _ => (false, t)

/-- The tree with a directory of the given full name and all those above it. -/
def withDirectory (t : FileTree) (name : Bytes) : FileTree :=
  let parts := (name.splitOn Byte.slash).filter (!·.isEmpty)
  (parts.foldl (fun (t, above) part =>
    let name := above ++ Byte.slash :: part
    (t.set name .directory, name)) (t, ([] : Bytes))).1

/-- The tree with a file of the given full name, in directories that are made for it. -/
def withFile (t : FileTree) (name content : Bytes) : FileTree :=
  (t.withDirectory (above name)).set name (.file content)

instance : Files (StateM FileTree) where
  look path := return (← get).look path
  makeDirectory path := modifyGet fun t => t.makeDirectory path
  write path content := modifyGet fun t => t.write path content
  rename source target := modifyGet fun t => t.rename source target
  remove path := modifyGet fun t => t.remove path

end FileTree

end SignatureLedger
