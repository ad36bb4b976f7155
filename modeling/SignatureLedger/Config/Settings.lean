import SignatureLedger.Config.Value
import SignatureLedger.Diagnostic.Message
import SignatureLedger.Signature.Extract

/-!
# Settings

The settings that a configuration and the environment decide, their keys, and how each is chosen: a
value of the wrong type or out of range gives way to the default, and the environment goes before
the configuration.
-/

namespace SignatureLedger.Config

/-! ## Keys -/

/-- The keys that mean something. -/
inductive Key where
  | policy
  | jobs
  | language
  | context
  | maxErrors
  | ledger
deriving DecidableEq, Repr

namespace Key

/-- The full name, with the section in front. -/
def name : Key → Bytes
  | policy => bytes "extract.variable_policy"
  | jobs => bytes "extract.jobs"
  | language => bytes "diag.lang"
  | context => bytes "diag.context"
  | maxErrors => bytes "diag.max_errors"
  | ledger => bytes "ledger.path"

/-- All keys, in the order in which their values are looked at. -/
def all : List Key := [policy, jobs, language, context, maxErrors, ledger]

/-- The key has a text as its value, and not a number. -/
def isText : Key → Bool
  | policy | language | ledger => true
  | jobs | context | maxErrors => false

end Key

/-- The key is one of the six settings. -/
def isKnownKey (key : Bytes) : Bool := Key.all.any (·.name == key)

/-- The text that a configuration has for a key. -/
def textAt? (values : Values) (key : Key) : Option Bytes :=
  match values.find? key.name with
  | some (.text s) => some s
  | _ => none

/-- The number that a configuration has for a key. -/
def numberAt? (values : Values) (key : Key) : Option Int64 :=
  match values.find? key.name with
  | some (.number n) => some n
  | _ => none

/-- The configuration has a number where the key has a text, or the other way round. -/
def hasWrongType (values : Values) (key : Key) : Bool :=
  match values.find? key.name with
  | some (.text _) => !key.isText
  | some (.number _) => key.isText
  | none => false

/-! ## The environment -/

/-- The variables of the environment. -/
abbrev Environment := ByteMap Bytes

/-- The value of a variable. An empty one is as good as none. -/
def Environment.value? (env : Environment) (name : String) : Option Bytes :=
  (env.find? (bytes name)).filter (!·.isEmpty)

/-- The variables that are looked at. -/
def Environment.names : List String := [
  "SIGIL_DIAG_LANG", "SIGIL_DIAG_CONTEXT", "SIGIL_LEDGER", "LC_ALL", "LC_MESSAGES", "LANG",
  "XDG_CONFIG_HOME", "HOME"]

/-! ## Settings -/

/-- The names that policies have in a configuration. -/
def policyNames : List Bytes :=
  ([.exportOnly, .allTopLevel] : List VariablePolicy).map fun p => bytes p.name

/-- The names that languages have in a configuration; `auto` stands for that of the locale. -/
def languageNames : List Bytes := [bytes "en", bytes "ko", bytes "auto"]

/-- The name in lower case, if it is one of the given ones. -/
def nameAmong? (names : List Bytes) (s : Bytes) : Option Bytes := names.find? (· == s.toLower)

/-- The settings. The names of the policy and of the language are those that a configuration has for
them, in lower case. -/
structure Settings where
  policy : Bytes := bytes VariablePolicy.exportOnly.name
  /-- The number of files to read at a time; zero leaves it open. -/
  jobs : Int64 := 0
  language : Bytes := bytes "auto"
  /-- The number of lines shown before and after the line of a finding. -/
  context : Int64 := 2
  maxErrors : Int64 := 64
  /-- The path of the ledger; empty when there is none. -/
  ledger : Bytes := []
deriving DecidableEq, Repr

/-- What is remarked on while settings are chosen. -/
inductive SettingWarning where
  | wrongType (key : Key)
  | unknownPolicy (name : Bytes)
  | contextVariable
deriving DecidableEq, Repr

/-- The text of the warning, as the user reads it. -/
def SettingWarning.message : SettingWarning → Bytes
  | wrongType key =>
    bytes "config key '" ++ key.name ++ bytes "' has wrong type (expected "
      ++ bytes (if key.isText then "string)" else "int)")
  | unknownPolicy name =>
    bytes "extract.variable_policy '" ++ name ++ bytes "' is not supported, using 'export-only'"
  | contextVariable => bytes "SIGIL_DIAG_CONTEXT must be a non-negative integer, ignored"

/-- A number in a variable: at most 18 digits, and nothing else. -/
def variableNumber? (s : Bytes) : Option Int64 :=
  if s.length ≤ 18 ∧ s.all Byte.isDigit then some (Int64.ofNat s.digitsValue) else none

/-- A number if it is not below the smallest one allowed, and else the default. -/
def atLeast (smallest default n : Int64) : Int64 := if n < smallest then default else n

namespace Settings

/-- The name of the policy of a configuration, or that of one that does not exist. -/
def choosePolicy (values : Values) : Except Bytes Bytes :=
  let s := (textAt? values .policy).getD (bytes VariablePolicy.exportOnly.name)
  match nameAmong? policyNames s with
  | some name => .ok name
  | none => .error s.toLower

/-- The name of a language; any other text is `auto`. -/
def languageName (s : Bytes) : Bytes := (nameAmong? languageNames s).getD (bytes "auto")

/-- The number of context lines in the environment; `error` when its text is no number. -/
def chooseContext (env : Environment) : Except Unit (Option Int64) :=
  match env.value? "SIGIL_DIAG_CONTEXT" with
  | none => .ok none
  | some s =>
    match variableNumber? s with
    | some n => .ok (some n)
    | none => .error ()

/-- The settings of a configuration in an environment. The environment goes before the
configuration, and what is out of range is replaced by its default. -/
def choose (env : Environment) (values : Values) : Settings where
  policy := (choosePolicy values).toOption.getD (bytes VariablePolicy.exportOnly.name)
  jobs := atLeast 0 0 ((numberAt? values .jobs).getD 0)
  language := languageName
    ((env.value? "SIGIL_DIAG_LANG" <|> textAt? values .language).getD (bytes "auto"))
  context :=
    let own := (numberAt? values .context).getD 2
    atLeast 0 2 (((chooseContext env).toOption.getD none).getD own)
  maxErrors := atLeast 1 64 ((numberAt? values .maxErrors).getD 64)
  ledger := (env.value? "SIGIL_LEDGER" <|> textAt? values .ledger).getD []

/-- The remarks on a configuration and an environment. -/
def warnings (env : Environment) (values : Values) : List SettingWarning :=
  (Key.all.filter (hasWrongType values)).map .wrongType
    ++ (match choosePolicy values with
      | .ok _ => []
      | .error name => [.unknownPolicy name])
    ++ (match chooseContext env with
      | .ok _ => []
      | .error _ => [.contextVariable])

/-- The settings as a configuration. -/
def toValues (s : Settings) : Values :=
  ByteMap.ofList [
    (Key.policy.name, .text s.policy),
    (Key.jobs.name, .number s.jobs),
    (Key.language.name, .text s.language),
    (Key.context.name, .number s.context),
    (Key.maxErrors.name, .number s.maxErrors),
    (Key.ledger.name, .text s.ledger)]

/-! ### What settings are used for -/

/-- The policy of the given name. -/
def policyOf (name : Bytes) : VariablePolicy :=
  if name = bytes VariablePolicy.allTopLevel.name then .allTopLevel else .exportOnly

/-- The language of the locale: that of the first of its variables that has a value. -/
def localeLanguage (env : Environment) : Language :=
  match ["LC_ALL", "LC_MESSAGES", "LANG"].findSome? env.value? with
  | some v => if (bytes "ko").isPrefixOf v then .korean else .english
  | none => .english

/-- The language of the given name, which is that of the locale for `auto`. -/
def languageOf (env : Environment) (name : Bytes) : Language :=
  if name = bytes "ko" then .korean
  else if name = bytes "en" then .english
  else localeLanguage env

end Settings

end SignatureLedger.Config
