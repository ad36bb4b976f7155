import SignatureLedger.Config.Format
import SignatureLedger.Config.Settings
import SignatureLedger.Files
import SignatureLedger.Files.Path

/-!
# Layers of configuration

A user has a configuration for all projects, and a project has one of its own or is given one. Both
are read leniently: what is wrong with them is remarked on and no more. Only a configuration that is
given has to be there and to be right. The values of the project go before those of the user.
-/

namespace SignatureLedger.Config

/-! ## One layer -/

/-- A place for a configuration, and what is there. -/
structure Candidate where
  path : Bytes
  entry : Entry
deriving DecidableEq, Repr

/-- Why a configuration cannot be read to its end. -/
inductive LayerFault where
  | irregular
  | closed
  | format (e : FormatError)
deriving DecidableEq, Repr

/-- The text of the fault, with the path as it was given. -/
def LayerFault.message (path : Bytes) : LayerFault → Bytes
  | irregular => bytes "not a regular file: " ++ path
  | closed => bytes "failed to open file: " ++ path
  | format e => e.message path

/-- What reading a place gives. A place without a configuration has no values. -/
structure Layer where
  path : Bytes
  values : Values := ByteMap.empty
  overridden : List Overridden := []
  fault? : Option LayerFault := none

/-- Reads a candidate; one that is absent is an empty layer. The entries in front of a faulty line
are kept. -/
def Layer.read (c : Candidate) : Layer :=
  match c.entry with
  | .absent _ => { path := c.path }
  | .directory => { path := c.path, fault? := some .irregular }
  | .closed _ => { path := c.path, fault? := some .closed }
  | .file text =>
    let r := parse text
    { path := c.path
      values := r.values
      overridden := r.warnings
      fault? := r.error?.map .format }

/-- The values that mean something. -/
def Layer.knownValues (l : Layer) : Values := l.values.filter fun key _ => isKnownKey key

/-- The keys that are no setting, rising. -/
def Layer.unknownKeys (l : Layer) : List Bytes := l.values.keys.filter (!isKnownKey ·)

/-! ## All layers -/

/-- Whose configuration a layer is. -/
inductive Scope where
  | user
  | project
deriving DecidableEq, Repr

/-- The word of the messages. -/
def Scope.name : Scope → String
  | user => "global"
  | project => "project"

/-- What is remarked on while a configuration is loaded. -/
inductive Warning where
  | overridden (path : Bytes) (w : Overridden)
  | failed (scope : Scope) (path : Bytes) (fault : LayerFault)
  | unknownKey (path key : Bytes)
  | setting (w : SettingWarning)
deriving DecidableEq, Repr

/-- The text of the warning, as the user reads it. -/
def Warning.message : Warning → Bytes
  | overridden path w => w.message path
  | failed scope path fault =>
    bytes "failed to load " ++ bytes scope.name ++ bytes " config: " ++ fault.message path
  | unknownKey path key => path ++ bytes ": unknown key '" ++ key ++ bytes "' ignored"
  | setting w => w.message

/-- The remarks on a layer. -/
def Layer.warnings (scope : Scope) (l : Layer) : List Warning :=
  l.overridden.map (.overridden l.path)
    ++ (match l.fault? with
      | some fault => [.failed scope l.path fault]
      | none => [])
    ++ l.unknownKeys.map (.unknownKey l.path)

/-- Where the configuration of a project comes from. -/
inductive ProjectConfig where
  | none
  | discovered (c : Candidate)
  | given (c : Candidate)
deriving DecidableEq, Repr

/-- Why a configuration that is given cannot be used. -/
inductive LoadError where
  | notFound (path : Bytes)
  | broken (path : Bytes) (fault : LayerFault)
deriving DecidableEq, Repr

/-- The text of the error, as the user reads it. -/
def LoadError.message : LoadError → Bytes
  | notFound path => bytes "config file not found: " ++ path
  | broken path fault => fault.message path

/-- The layer of a project. A configuration that is given has to be one. One that was found without
being asked for may have a fault. -/
def ProjectConfig.layer : ProjectConfig → Except LoadError (Option Layer)
  | none => .ok Option.none
  | discovered c => .ok (some (Layer.read c))
  | given c =>
    match c.entry with
    | .directory | .absent _ => .error (.notFound c.path)
    | .file _ | .closed _ =>
      let l := Layer.read c
      match l.fault? with
      | some fault => .error (.broken c.path fault)
      | Option.none => .ok (some l)

/-- The values of all layers, and what there is to say about them. -/
structure Loaded where
  values : Values
  warnings : List Warning

/-- Puts the layers of the user and of a project together. -/
def load (user : Candidate) (project : ProjectConfig) : Except LoadError Loaded := do
  let upper? ← project.layer
  let base := Layer.read user
  match upper? with
  | none => return ⟨base.knownValues, base.warnings .user⟩
  | some upper =>
    return ⟨base.knownValues.override upper.knownValues,
      base.warnings .user ++ upper.warnings .project⟩

/-! ## Where configurations are -/

/-- The name of the configuration of a project. -/
def projectFile : Bytes := bytes "sigil.toml"

/-- The place of the configuration of the user. -/
def userPath (directory : Bytes) (env : Environment) : Bytes :=
  let base :=
    match env.value? "XDG_CONFIG_HOME" with
    | some d => d
    | none => Path.append ((env.value? "HOME").getD directory) (bytes ".config")
  Path.append (Path.append base (bytes "sigil")) (bytes "config.toml")

section

variable {m : Type → Type} [Monad m] [Files m]

/-- Looks at a path for a configuration. -/
def candidate (path : Bytes) : m Candidate := return ⟨path, ← Files.look path⟩

/-- The nearest directory, from the given one upwards, that has a configuration or a repository. -/
def rootFrom? (directory : Bytes) : m (Option Bytes) := do
  let config ← Files.look (Path.append directory projectFile)
  let repository ← Files.look (Path.append directory (bytes ".git"))
  if config.isThere || repository.isThere then return some directory
  else
    let above := Path.parent directory
    if _h : above.length < directory.length then
      if above.isEmpty then return none else rootFrom? above
    else return none
termination_by directory.length

/-- The root of the project that a file or a directory is in. -/
def projectRoot? (directory start : Bytes) : m (Option Bytes) := do
  let place := Path.append directory start
  match ← Files.look place with
  | .absent _ => return none
  | .directory => rootFrom? place
  | .file _ | .closed _ => rootFrom? (Path.parent place)

/-- Looks for the configurations of the user and of the project that `start` is in, and loads them.
The one that is given stands in for that of the project. -/
def discover (directory : Bytes) (env : Environment) (start : Bytes) (given? : Option Bytes) :
    m (Except LoadError Loaded) := do
  let user ← candidate (userPath directory env)
  let project ←
    match given? with
    | some path => pure (.given (← candidate path))
    | none =>
      match ← projectRoot? directory start with
      | some root => pure (.discovered (← candidate (Path.append root projectFile)))
      | none => pure ProjectConfig.none
  return load user project

end

end SignatureLedger.Config
