import SignatureLedger.Diagnostic.Message
import SignatureLedger.Signature.Extract

/-!
# Commands

What a command line asks for, and what can be wrong with it. A fault keeps what was read before it,
so a `CommandLine` has a request and perhaps a fault as well.
-/

namespace SignatureLedger.Command

/-! ## Requests -/

/-- What a user asks for. -/
inductive Verb where
  | extract
  | check
  | hash
  | config
deriving DecidableEq, Repr

namespace Verb

/-- The word of the command line. -/
def name : Verb → String
  | extract => "extract"
  | check => "check"
  | hash => "hash"
  | config => "config"

/-- All commands, in the order of the usage text. -/
def all : List Verb := [extract, check, hash, config]

/-- The command with this word. -/
def ofName? (s : Bytes) : Option Verb := all.find? (fun v => bytes v.name = s)

end Verb

/-- The files to analyse, and what is to be different from the settings. -/
structure AnalysisRequest where
  files : List Bytes := []
  policy? : Option VariablePolicy := none
  jobs? : Option UInt32 := none
  language? : Option Language := none
  context? : Option UInt32 := none
deriving DecidableEq, Repr

/-- How symbols and findings are written. -/
inductive ReportFormat where
  | text
  | json
deriving DecidableEq, Repr

/-- What the command `extract` is given. -/
structure ExtractRequest where
  analysis : AnalysisRequest := {}
  format : ReportFormat := .text
  /-- Where to write a ledger of the symbols. -/
  ledger? : Option Bytes := none
  /-- The kinds to report; all of them when there is none. -/
  kinds : List SymbolKind := []
deriving DecidableEq, Repr

/-- What the command `check` is given. -/
structure CheckRequest where
  analysis : AnalysisRequest := {}
  ledger? : Option Bytes := none
deriving DecidableEq, Repr

/-- How the configuration is written: in sections, as in its files, or as one object. -/
inductive ConfigFormat where
  | sections
  | object
deriving DecidableEq, Repr

/-- What there is to do. -/
inductive Task where
  | extract (r : ExtractRequest)
  | check (r : CheckRequest)
  | hash (text : Bytes)
  /-- The format to show the settings in; none as long as showing them is not asked for. -/
  | config (show? : Option ConfigFormat)
deriving DecidableEq, Repr

/-- What a command line asks for. -/
inductive Request where
  | usage
  | version
  | perform (task : Task)
deriving DecidableEq, Repr

/-! ## Faults -/

/-- What is wrong with a command line. A command line with a fault is not performed. -/
inductive Fault where
  | missingCommand
  | unknownGlobalOption (arg : Bytes)
  | unknownCommand (arg : Bytes)
  | missingValue (key : Bytes)
  | reportFormat
  | configFormat
  | policy
  | jobs
  | language
  | context
  | unknownKind (name : Bytes)
  | unknownOption (verb : Verb) (arg : Bytes)
  | noFiles (verb : Verb)
  | noText
  | extraText (arg : Bytes)
  | noSubcommand
  | unknownSubcommand (arg : Bytes)
deriving DecidableEq, Repr

/-- The message for the user. An argument is shown as it was given. -/
def Fault.message : Fault → Bytes
  | missingCommand => bytes "missing command"
  | unknownGlobalOption arg => bytes "unknown global option: " ++ arg
  | unknownCommand arg => bytes "unknown command: " ++ arg
  | missingValue key => key ++ bytes " requires a value"
  | reportFormat => bytes "--format must be text or json"
  | configFormat => bytes "--format must be toml or json"
  | policy => bytes "--policy must be export-only or all-top-level"
  | jobs => bytes "--jobs requires a positive integer"
  | language => bytes "--lang must be en or ko"
  | context => bytes "--context requires a non-negative integer"
  | unknownKind name => bytes "unknown symbol kind: " ++ name
  | unknownOption verb arg =>
    bytes "unknown " ++ bytes verb.name ++ (if verb = .config then bytes " show" else [])
      ++ bytes " option: " ++ arg
  | noFiles verb => bytes verb.name ++ bytes " requires at least one input file"
  | noText => bytes "hash requires a text argument"
  | extraText arg => bytes "unexpected argument for hash: " ++ arg
  | noSubcommand => bytes "config command requires subcommand"
  | unknownSubcommand arg => bytes "unknown config subcommand: " ++ arg

/-- A command line that has been read. -/
structure CommandLine where
  /-- The configuration to read in place of the one of the project. -/
  config? : Option Bytes := none
  request : Request := .usage
  fault? : Option Fault := none
deriving DecidableEq, Repr

/-! ## Fixed texts -/

/-- The answer to `--version`. -/
def versionText : Bytes := bytes "sigil v0.1.0\n"

/-- The answer to `--help`, and what is shown if there is no command. -/
def usageText : Bytes := bytes <| String.intercalate "\n" [
  "sigil [global-options] <command> [args]",
  "",
  "Global options:",
  "  -h, --help",
  "  --version",
  "  --config <path>",
  "",
  "Commands:",
  "  extract <files...> [--format text|json] [--emit-ledger <path>] [--kind <Kind>]...",
  "          [--policy export-only|all-top-level] [--jobs <N>] [--lang <en|ko>] [--context <N>]",
  "  check --ledger <path> <files...> [--policy export-only|all-top-level] [--jobs <N>]",
  "          [--lang <en|ko>] [--context <N>]",
  "  hash <text>",
  "  config show [--format toml|json]",
  ""]

end SignatureLedger.Command
