import SignatureLedger.Command

/-!
# Reading command lines

Arguments are read in two steps. The first one groups them: an option and its value make one item,
whether the value is joined to it or comes as the next argument, and any other argument is an item
of its own. The second one lets each item change the request, up to the first fault.
-/

namespace SignatureLedger.Command

/-! ## Options -/

/-- How an argument names an option: by itself, the next argument being the value, or joined with
the value by an equals sign. -/
inductive OptionUse where
  | alone
  | joined (value : Bytes)
deriving DecidableEq, Repr

/-- How an argument uses the option `key`: alone, or joined with its value by an equals sign. -/
def OptionUse.of? (key arg : Bytes) : Option OptionUse :=
  if arg = key then some .alone
  else if (key ++ [Byte.equals]).isPrefixOf arg then some (.joined (arg.drop (key.length + 1)))
  else none

/-- An option of a request, and what its value changes. -/
structure ValueOption (σ : Type) where
  key : Bytes
  set : Bytes → σ → Except Fault σ

/-- The options of a part of a request are options of the whole. -/
def ValueOption.lift (part : σ → τ) (put : τ → σ → σ) (o : ValueOption τ) : ValueOption σ where
  key := o.key
  set v s := (o.set v (part s)).map (put · s)

/-- An argument with its value, or one that stands for itself. -/
inductive Item (σ : Type) where
  | valued (option : ValueOption σ) (value : Bytes)
  | plain (arg : Bytes)

/-- The option that an argument names. -/
def findUse? (options : List (ValueOption σ)) (arg : Bytes) : Option (ValueOption σ × OptionUse) :=
  options.findSome? fun o => (OptionUse.of? o.key arg).map fun u => (o, u)

/-- Groups arguments. An option at the end that lacks its value gets an empty one. -/
def items (options : List (ValueOption σ)) : List Bytes → List (Item σ)
  | [] => []
  | arg :: args =>
    match findUse? options arg with
    | none => .plain arg :: items options args
    | some (o, .joined v) => .valued o v :: items options args
    | some (o, .alone) =>
      match args with
      | [] => [.valued o []]
      | v :: args => .valued o v :: items options args

/-- Lets an item change a request. No option has an empty value. -/
def Item.apply (operand : Bytes → σ → Except Fault σ) (s : σ) : Item σ → Except Fault σ
  | valued o v => if v.isEmpty then .error (.missingValue o.key) else o.set v s
  | plain arg => operand arg s

/-- Lets items change a request one after the other, up to the first fault. -/
def applyItems (operand : Bytes → σ → Except Fault σ) (s : σ) : List (Item σ) → σ × Option Fault
  | [] => (s, none)
  | i :: is =>
    match i.apply operand s with
    | .ok s => applyItems operand s is
    | .error fault => (s, some fault)

/-- Reads the arguments of a command into a request. -/
def readArguments (options : List (ValueOption σ)) (operand : Bytes → σ → Except Fault σ) (s : σ)
    (args : List Bytes) : σ × Option Fault :=
  applyItems operand s (items options args)

/-! ## Values -/

/-- A number that fits 32 bits, written with at most ten digits. -/
def word? (s : Bytes) : Option UInt32 :=
  if s.isEmpty || 10 < s.length || !s.all Byte.isDigit || UInt32.size ≤ s.digitsValue then none
  else some (UInt32.ofNat s.digitsValue)

/-- The language with this name, as the option `--lang` takes it. -/
def languageOfName? (s : Bytes) : Option Language :=
  if s = bytes "en" then some .english
  else if s = bytes "ko" then some .korean
  else none

/-- What is found, or else a fault. -/
def orFault (fault : Fault) : Option α → Except Fault α
  | some a => .ok a
  | none => .error fault

/-! ## Commands -/

/-- The options of everything that is analyzed. Each has a value, which is checked when it is read,
and of several values the last one counts. -/
def analysisOptions : List (ValueOption AnalysisRequest) := [
  { key := bytes "--policy"
    set v r := return { r with policy? := some (← orFault .policy (VariablePolicy.ofName? v)) } },
  { key := bytes "--jobs"
    set v r := return { r with jobs? := some (← orFault .jobs ((word? v).filter (· != 0))) } },
  { key := bytes "--lang"
    set v r := return { r with language? := some (← orFault .language (languageOfName? v)) } },
  { key := bytes "--context"
    set v r := return { r with context? := some (← orFault .context (word? v)) } }]

/-- The options of the command `extract`. Kinds are gathered; of any other option the last value
counts. -/
def extractOptions : List (ValueOption ExtractRequest) := [
  { key := bytes "--format"
    set v r :=
      if v = bytes "text" then .ok { r with format := .text }
      else if v = bytes "json" then .ok { r with format := .json }
      else .error .reportFormat },
  { key := bytes "--emit-ledger"
    set v r := .ok { r with ledger? := some v } },
  { key := bytes "--kind"
    set v r := do
      let kind ← orFault (.unknownKind v) (SymbolKind.ofName? v)
      return { r with kinds := r.kinds ++ [kind] } }]
  ++ analysisOptions.map (.lift (·.analysis) fun a r => { r with analysis := a })

/-- The options of the command `check`. -/
def checkOptions : List (ValueOption CheckRequest) :=
  { key := bytes "--ledger"
    set v r := .ok { r with ledger? := some v } }
  :: analysisOptions.map (.lift (·.analysis) fun a r => { r with analysis := a })

/-- The options of the command `config`. -/
def configOptions : List (ValueOption ConfigFormat) := [
  { key := bytes "--format"
    set v _ :=
      if v = bytes "toml" then .ok .sections
      else if v = bytes "json" then .ok .object
      else .error .configFormat }]

/-- An argument that is no option is a file, unless it looks like an option. -/
def addFile (verb : Verb) (arg : Bytes) (r : AnalysisRequest) : Except Fault AnalysisRequest :=
  if arg.head? = some Byte.minus then .error (.unknownOption verb arg)
  else .ok { r with files := r.files ++ [arg] }

/-- A command that analyses files needs at least one. -/
def noFilesFault? (verb : Verb) (r : AnalysisRequest) : Option Fault :=
  if r.files.isEmpty then some (.noFiles verb) else none

/-- Reads the arguments that follow a command. Of several faults the first one that is met is
told. -/
def readTask : Verb → List Bytes → Task × Option Fault
  | .extract, args =>
    let (r, fault?) := readArguments extractOptions
      (fun arg r => return { r with analysis := ← addFile .extract arg r.analysis }) {} args
    (.extract r, fault? <|> noFilesFault? .extract r.analysis)
  | .check, args =>
    let (r, fault?) := readArguments checkOptions
      (fun arg r => return { r with analysis := ← addFile .check arg r.analysis }) {} args
    (.check r, fault? <|> noFilesFault? .check r.analysis)
  | .hash, [] => (.hash [], some .noText)
  | .hash, [text] => (.hash text, none)
  | .hash, text :: arg :: _ => (.hash text, some (.extraText arg))
  | .config, [] => (.config none, some .noSubcommand)
  | .config, arg :: args =>
    if arg = bytes "show" then
      let (format, fault?) := readArguments configOptions
        (fun arg _ => .error (.unknownOption .config arg)) .sections args
      (.config (some format), fault?)
    else (.config none, some (.unknownSubcommand arg))

/-! ## Command lines -/

/-- Reads what comes before the command, and then the command. What asks for help or for the version
leaves the rest unread. -/
def readFrom (config? : Option Bytes) : List Bytes → CommandLine
  | [] => { config?, fault? := some .missingCommand }
  | arg :: args =>
    if arg = bytes "-h" ∨ arg = bytes "--help" then { config? }
    else if arg = bytes "--version" then { config?, request := .version }
    else match OptionUse.of? (bytes "--config") arg, Verb.ofName? arg with
      | some (.joined v), _ =>
        if v.isEmpty then { config?, fault? := some (.missingValue (bytes "--config")) }
        else readFrom (some v) args
      | some .alone, _ =>
        match args with
        | [] => { config?, fault? := some (.missingValue (bytes "--config")) }
        | v :: args =>
          if v.isEmpty then { config?, fault? := some (.missingValue (bytes "--config")) }
          else readFrom (some v) args
      | none, some verb =>
        let (task, fault?) := readTask verb args
        { config?, request := .perform task, fault? }
      | none, none =>
        if arg.head? = some Byte.minus then { config?, fault? := some (.unknownGlobalOption arg) }
        else { config?, fault? := some (.unknownCommand arg) }

/-- Reads the arguments of the program. Without any the usage is asked for. -/
def CommandLine.ofArguments (args : List Bytes) : CommandLine :=
  if args.isEmpty then {} else readFrom none args

end SignatureLedger.Command
