import SignatureLedger.Command.Arguments
import SignatureLedger.Command.Report
import SignatureLedger.Config.Layers
import SignatureLedger.Files.Replace
import SignatureLedger.Ledger.Format

/-!
# Running commands

A command reads its configuration, then a ledger and the files, and prints its report; `extract` may
write a ledger at the end.
-/

namespace SignatureLedger.Command

/-- What a command finds around it. -/
structure Circumstances where
  /-- The directory that the program is started in. -/
  directory : Bytes
  environment : Config.Environment := ByteMap.empty
  /-- The time, in milliseconds. -/
  now : Int64 := 0

section

variable {m : Type → Type} [Monad m] [Files m]

/-- Reads and analyses files. -/
def analyseFiles (plan : Plan) (paths : List Bytes) : m (List Outcome) :=
  paths.mapM fun path => return Outcome.of plan path (← Files.look path)

/-- Analyzes the files, reports their symbols and writes a ledger if one is asked for. -/
def runExtract (c : Circumstances) (s : Config.Settings) (r : ExtractRequest) : m Report := do
  let plan := Plan.of c.environment s r.analysis
  let outcomes ← analyseFiles plan r.analysis.files
  let report := extractReport r plan outcomes
  match r.ledger? with
  | none => return report
  | some path =>
    match ← Files.replace path (extractLedger c.now outcomes).render with
    | none => return report
    | some fault => return report.fail fault.message

/-- Compares files with a ledger that was found at `path`. A ledger that is refused as a whole is an
error; lines of it that are skipped are warnings. -/
def checkAgainst (c : Circumstances) (s : Config.Settings) (r : AnalysisRequest) (path : Bytes)
    (text : Bytes) : m Report := do
  let reading := Ledger.parse text
  let warnings := reading.warnings.map (·.message path)
  match reading.error? with
  | some e => return (Report.ofError (e.message path)).warn warnings
  | none =>
    let plan := Plan.of c.environment s r
    let outcomes ← analyseFiles plan r.files
    return (checkReport plan reading.ledger outcomes).warn warnings

/-- Compares the files with the ledger; without one there is nothing to compare. -/
def runCheck (c : Circumstances) (s : Config.Settings) (r : CheckRequest) : m Report := do
  let path := r.ledger?.getD s.ledger
  if path.isEmpty then
    return .ofError (bytes "check requires --ledger <path> (or ledger.path in sigil.toml)")
  match ← Files.look path with
  | .file text => checkAgainst c s r.analysis path text
  | .closed _ => return .ofError (bytes "failed to open ledger: " ++ path)
  | .directory | .absent _ => return .ofError (bytes "ledger not found: " ++ path)

/-- The file that the search for a configuration starts at. -/
def Task.anchor? : Task → Option Bytes
  | .extract r => r.analysis.files.head?
  | .check r => r.analysis.files.head?
  | _ => none

/-- Does a task, with the settings known. -/
def runTask (c : Circumstances) (s : Config.Settings) : Task → m Report
  | .extract r => runExtract c s r
  | .check r => runCheck c s r
  | .hash text => return { out := Sha256.hex text ++ bytes "\n" }
  | .config (some format) => return configReport format s
  | .config none => return .ofError (bytes "unsupported config action")

/-- Loads the configuration for a task and does it. The warnings about the configuration come before
what the task reports. -/
def perform (c : Circumstances) (given? : Option Bytes) (task : Task) : m Report := do
  let start := task.anchor?.getD c.directory
  match ← Config.discover c.directory c.environment start given? with
  | .error e => return .ofError e.message
  | .ok loaded =>
    let settings := Config.Settings.choose c.environment loaded.values
    let remarks := loaded.warnings
      ++ (Config.Settings.warnings c.environment loaded.values).map .setting
    return (← runTask c settings task).warn (remarks.map (·.message))

/-- Runs the program. A faulty command line is answered with its fault and the usage. -/
def run (c : Circumstances) (args : List Bytes) : m Report := do
  let line := CommandLine.ofArguments args
  match line.fault?, line.request with
  | some fault, _ =>
    let report := Report.ofError fault.message
    return { report with err := report.err ++ usageText }
  | none, .usage => return { out := usageText }
  | none, .version => return { out := versionText }
  | none, .perform task => perform c line.config? task

end

end SignatureLedger.Command
