import SignatureLedger.Command
import SignatureLedger.Config.Settings
import SignatureLedger.Diagnostic.Render
import SignatureLedger.Drift
import SignatureLedger.Files
import SignatureLedger.Source.File
import SignatureLedger.Text.Quoted

/-!
# Reports

What the commands print, and how they end, as plain functions of the files that were read.
-/

namespace SignatureLedger.Command

/-! ## Reports in general -/

/-- How a command ends. -/
inductive Status where
  | ok
  | failed
  | drift
deriving DecidableEq, Repr

/-- The exit code of the program. -/
def Status.code : Status → UInt32
  | ok => 0
  | failed => 1
  | drift => 2

/-- What a command prints on its two streams, and how it ends. -/
structure Report where
  out : Bytes := []
  err : Bytes := []
  status : Status := .ok
deriving DecidableEq, Repr

/-- A line of the error output. -/
def errorLine (message : Bytes) : Bytes := bytes "error: " ++ message ++ bytes "\n"

/-- A warning for the error output. -/
def warningLine (message : Bytes) : Bytes := bytes "[WARN] " ++ message ++ bytes "\n"

namespace Report

/-- The report of a command that could not do its work. -/
def ofError (message : Bytes) : Report := { err := errorLine message, status := .failed }

/-- The report with an error at its end. -/
def fail (r : Report) (message : Bytes) : Report :=
  { r with err := r.err ++ errorLine message, status := .failed }

/-- The report with warnings before everything else. -/
def warn (r : Report) (messages : List Bytes) : Report :=
  { r with err := messages.flatMap warningLine ++ r.err }

end Report

/-! ## Analysed files -/

/-- How files are analysed and how their findings are shown. -/
structure Plan where
  options : AnalysisOptions
  language : Language
  context : UInt32
deriving DecidableEq, Repr

/-- What a request leaves open is taken from the settings. Their numbers are cut to 32 bits. -/
def Plan.of (env : Config.Environment) (s : Config.Settings) (r : AnalysisRequest) : Plan where
  options :=
    { policy := r.policy?.getD (Config.Settings.policyOf s.policy)
      maxErrors := s.maxErrors.toUInt64.toUInt32 }
  language := r.language?.getD (Config.Settings.languageOf env s.language)
  context := r.context?.getD s.context.toUInt64.toUInt32

/-- What became of a file that was to be analysed. -/
inductive Outcome where
  | unreadable (error : FileError)
  | analysed (a : Analysis) (source : Bytes)

/-- Analyses what was found at a path. -/
def Outcome.of (plan : Plan) (path : Bytes) (entry : Entry) : Outcome :=
  match entry.content with
  | .error e => .unreadable e
  | .ok content =>
    let source := SourceFile.decode content
    .analysed (analyze plan.options (SourceFile.displayPath path) source) source

namespace Outcome

/-- The file could not be read. -/
def isUnreadable : Outcome → Bool
  | unreadable _ => true
  | analysed _ _ => false

/-- The analysis, if the file could be read. -/
def analysis? : Outcome → Option Analysis
  | unreadable _ => none
  | analysed a _ => some a

/-- The lines about a file on the error stream: its findings, or why it cannot be read. -/
def remarks (plan : Plan) : Outcome → Bytes
  | unreadable e => errorLine (bytes "CANNOT open file: " ++ e.message)
  | analysed a source =>
    a.found.flatMap fun d =>
      d.renderContext plan.language [⟨a.path, source⟩] plan.context ++ bytes "\n"

end Outcome

/-- The analyses of the files that could be read. -/
def analyses (outcomes : List Outcome) : List Analysis := outcomes.filterMap Outcome.analysis?

/-! ## Extraction -/

/-- The signatures of a file that a request asks for. -/
def selected (r : ExtractRequest) (a : Analysis) : List Signature :=
  a.signatures.filter fun s => r.kinds.isEmpty || r.kinds.contains s.kind

/-- A symbol in the report that people read. -/
def signatureLine (s : Signature) : Bytes :=
  bytes s.kind.name ++ bytes "\t" ++ s.name ++ bytes "\t" ++ s.digest ++ bytes "\t" ++ s.text
    ++ bytes "\n"

/-- A symbol in the report for programs. The members stand in a fixed order. -/
def signatureObject (a : Analysis) (s : Signature) : Bytes :=
  bytes "\x7b\"file\":" ++ quote a.path
    ++ bytes ",\"dialect\":" ++ quote (bytes a.dialect.name)
    ++ bytes ",\"name\":" ++ quote s.name
    ++ bytes ",\"kind\":" ++ quote (bytes s.kind.name)
    ++ bytes ",\"exported\":" ++ bytes (if s.exported then "true" else "false")
    ++ bytes ",\"hash\":" ++ quote s.digest
    ++ bytes ",\"signature\":" ++ quote s.text
    ++ [Byte.closeBrace]

/-- The lines of a file; `heading` says whether its path comes first. -/
def extractLines (r : ExtractRequest) (heading : Bool) (a : Analysis) : Bytes :=
  (if heading then
      bytes "# " ++ a.path ++ bytes " (" ++ bytes a.dialect.name ++ bytes ")\n"
    else [])
    ++ (selected r a).flatMap signatureLine

/-- One object to a line, in one array. -/
def renderArray (objects : List Bytes) : Bytes :=
  if objects.isEmpty then bytes "[]\n"
  else
    bytes "[\n" ++ Bytes.join (bytes ",\n") (objects.map (bytes "  " ++ ·)) ++ bytes "\n]\n"

/-- The report on extracted signatures. -/
def extractReport (r : ExtractRequest) (plan : Plan) (outcomes : List Outcome) : Report where
  out :=
    match r.format with
    | .text => (analyses outcomes).flatMap (extractLines r (1 < outcomes.length))
    | .json => renderArray ((analyses outcomes).flatMap fun a =>
        (selected r a).map (signatureObject a))
  err := outcomes.flatMap (Outcome.remarks plan)
  status := if outcomes.any Outcome.isUnreadable then .failed else .ok

/-- The ledger of extracted signatures. It has those of every kind. -/
def extractLedger (now : Int64) (outcomes : List Outcome) : Ledger :=
  (analyses outcomes).foldl (fun l a => (a.entries now).foldl Ledger.store l) ByteMap.empty

/-! ## Checks -/

/-- The start of a digest, as it is shown. -/
def shortDigest (d : Bytes) : Bytes := d.take 12

/-- The status of a symbol in the report of a check. -/
def statusLine (key : Bytes) (s : DriftStatus) : Bytes :=
  bytes "  " ++ bytes s.name ++ bytes "\t" ++ key
    ++ (match s with
      | .drifted old new => bytes "\t" ++ shortDigest old ++ bytes " -> " ++ shortDigest new
      | _ => [])
    ++ bytes "\n"

/-- The lines of a file. -/
def checkLines (a : Analysis) (d : Drift) : Bytes :=
  a.path ++ bytes "\n" ++ d.statuses.toList.flatMap (fun (key, s) => statusLine key s)
    ++ bytes "  " ++ d.summary ++ bytes "\n"

/-- The drift of each file that could be read. -/
def drifts (ledger : Ledger) (outcomes : List Outcome) : List (Analysis × Drift) :=
  (analyses outcomes).map fun a => (a, Drift.check ledger a.path a.signatures)

/-- The report on a comparison with a ledger. A file that cannot be read decides the status before
any drift does. -/
def checkReport (plan : Plan) (ledger : Ledger) (outcomes : List Outcome) : Report :=
  let ds := drifts ledger outcomes
  let total := Drift.sum (ds.map (·.2))
  { out := ds.flatMap (fun (a, d) => checkLines a d)
      ++ (if 1 < ds.length then bytes "total: " ++ total.summary ++ bytes "\n" else [])
    err := outcomes.flatMap (Outcome.remarks plan)
    status :=
      if outcomes.any Outcome.isUnreadable then .failed
      else if total.hasDrift then .drift
      else .ok }

/-! ## Settings -/

/-- The settings in the form that was asked for. -/
def configReport (format : ConfigFormat) (s : Config.Settings) : Report where
  out :=
    match format with
    | .sections => Config.renderSections s.toValues
    | .object => Config.renderObject s.toValues ++ bytes "\n"

end SignatureLedger.Command
