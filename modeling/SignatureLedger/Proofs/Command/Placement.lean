import SignatureLedger.Proofs.Command.Rearranged
import Mathlib.Data.Option.Basic

/-!
# Where options stand on a command line

Behind `extract` and `check` it does not matter where an option stands and how its value is spelled:
a command line that is accepted can be rearranged, and asks for the same (`ofArguments_rearranged`).
-/

namespace SignatureLedger.Command

open Byte

/-! ## Options of an analysis -/

/-- The options of an analysis change one field each. -/
theorem pairwise_analysisOptions :
    analysisOptions.Pairwise fun o o' => ∀ v v', Swaps (o.set v) (o'.set v') := by
  simp only [analysisOptions, List.pairwise_cons, List.forall_mem_cons, List.not_mem_nil,
    List.Pairwise.nil, false_imp_iff, implies_true, and_true]
  refine ⟨⟨?_, ?_, ?_⟩, ⟨?_, ?_⟩, ?_⟩
  all_goals
    intro v v'
    exact swaps_of_puts (puts_bind _ _) (puts_bind _ _) fun _ _ _ => rfl

/-- A file is put behind the ones before, unless it looks like an option. -/
theorem puts_addFile (verb : Verb) (arg : Bytes) :
    Puts (addFile verb arg)
      (if arg.head? = some minus then .error (.unknownOption verb arg) else .ok arg)
      (fun path r => { r with files := r.files ++ [path] }) := by
  intro r
  unfold addFile
  split <;> rfl

/-- A file is added to a field of its own. -/
theorem swaps_addFile (verb : Verb) : ∀ o ∈ analysisOptions, ∀ v arg,
    Swaps (o.set v) (addFile verb arg) := by
  simp only [analysisOptions, List.forall_mem_cons, List.not_mem_nil, false_imp_iff, implies_true,
    and_true]
  refine ⟨?_, ?_, ?_, ?_⟩
  all_goals
    intro v arg
    exact swaps_of_puts (puts_bind _ _) (puts_addFile verb arg) fun _ _ _ => rfl

/-- What is taken for a file does not look like an option. -/
theorem head?_ne_of_addFile {verb : Verb} {arg : Bytes} {r r' : AnalysisRequest}
    (h : addFile verb arg r = .ok r') : arg.head? ≠ some minus := by
  rintro harg
  rw [addFile, if_pos harg] at h
  exact absurd h (by simp)

section

variable {σ : Type} {part : σ → AnalysisRequest} {put : AnalysisRequest → σ → σ}

/-- The options of a command that analyses files: its own ones and those of the analysis. -/
theorem independent_append (hpart : IsPart part put) {own : List (ValueOption σ)}
    (hown : own.Pairwise fun o o' => ∀ v v', Swaps (o.set v) (o'.set v'))
    (hapart : ∀ o ∈ own, ∀ v c, Swaps (o.set v) (onPart part put c)) (verb : Verb) :
    Independent (own ++ analysisOptions.map (.lift part put))
      (fun arg => onPart part put (addFile verb arg)) where
  pairwise := by
    refine List.pairwise_append.mpr ⟨hown, ?_, ?_⟩
    · rw [List.pairwise_map]
      exact pairwise_analysisOptions.imp fun h v v' => (h v v').onPart hpart
    · intro o ho o' ho' v v'
      obtain ⟨a, ha, rfl⟩ := List.mem_map.mp ho'
      exact hapart o ho v _
  swaps_operand := by
    intro o ho v arg
    rcases List.mem_append.mp ho with ho | ho
    · exact hapart o ho v _
    · obtain ⟨a, ha, rfl⟩ := List.mem_map.mp ho
      exact (swaps_addFile verb a ha v arg).onPart hpart

end

/-! ## Commands that analyse files -/

/-- The keys of the options of a command that analyses files. -/
def Verb.optionKeys : Verb → List Bytes
  | extract => ["--format", "--emit-ledger", "--kind", "--policy", "--jobs", "--lang",
      "--context"].map bytes
  | check => ["--ledger", "--policy", "--jobs", "--lang", "--context"].map bytes
  | hash | config => []

/-- The keys of every verb are well formed. -/
theorem wellKeyed_optionKeys (verb : Verb) : WellKeyed verb.optionKeys := by
  cases verb <;> exact ⟨by decide +kernel, by decide +kernel, by decide +kernel⟩

/-- The keys of the extraction are well formed. -/
theorem wellKeyed_extractOptions : WellKeyed (keysOf extractOptions) :=
  wellKeyed_optionKeys .extract

/-- The keys of the check are well formed. -/
theorem wellKeyed_checkOptions : WellKeyed (keysOf checkOptions) := wellKeyed_optionKeys .check

/-- A file for an extraction. -/
def extractOperand (arg : Bytes) : ExtractRequest → Except Fault ExtractRequest :=
  onPart (·.analysis) (fun a r => { r with analysis := a }) (addFile .extract arg)

/-- A file for a check. -/
def checkOperand (arg : Bytes) : CheckRequest → Except Fault CheckRequest :=
  onPart (·.analysis) (fun a r => { r with analysis := a }) (addFile .check arg)

/-- The request for an analysis is a part of the request for an extraction. -/
theorem isPart_analysis :
    IsPart ExtractRequest.analysis (fun a (r : ExtractRequest) => { r with analysis := a }) :=
  ⟨fun _ _ => rfl, fun _ _ _ => rfl⟩

/-- The request for an analysis is a part of the request for a check. -/
theorem isPart_analysis_check :
    IsPart CheckRequest.analysis (fun a (r : CheckRequest) => { r with analysis := a }) :=
  ⟨fun _ _ => rfl, fun _ _ _ => rfl⟩

/-- The options of the extraction do not disturb one another. Each of its own options puts a field,
and those of the analysis touch another part of the request. -/
theorem independent_extractOptions : Independent extractOptions extractOperand := by
  have hformat : ∀ v, Puts (fun r : ExtractRequest =>
      if v = bytes "text" then .ok { r with format := .text }
      else if v = bytes "json" then .ok { r with format := .json }
      else .error .reportFormat)
      (if v = bytes "text" then .ok .text
        else if v = bytes "json" then .ok .json
        else .error Fault.reportFormat)
      (fun f r => { r with format := f }) := by
    intro v r
    dsimp only
    split
    · rfl
    · split <;> rfl
  have hledger : ∀ v, Puts (fun r : ExtractRequest => .ok { r with ledger? := some v })
      (.ok v : Except Fault Bytes) (fun v r => { r with ledger? := some v }) := fun v r => rfl
  refine independent_append isPart_analysis ?_ ?_ .extract
  · simp only [List.pairwise_cons, List.forall_mem_cons, List.not_mem_nil, List.Pairwise.nil,
      false_imp_iff, implies_true, and_true]
    exact ⟨⟨fun v v' => swaps_of_puts (hformat v) (hledger v') fun _ _ _ => rfl,
      fun v v' => swaps_of_puts (hformat v) (puts_bind _ _) fun _ _ _ => rfl⟩,
      fun v v' => swaps_of_puts (hledger v) (puts_bind _ _) fun _ _ _ => rfl⟩
  · simp only [List.forall_mem_cons, List.not_mem_nil, false_imp_iff, implies_true, and_true]
    exact ⟨fun v => swaps_onPart (hformat v) (fun _ _ => rfl) fun _ _ _ => rfl,
      fun v => swaps_onPart (hledger v) (fun _ _ => rfl) fun _ _ _ => rfl,
      fun v => swaps_onPart (puts_bind _ _) (fun _ _ => rfl) fun _ _ _ => rfl⟩

/-- The options of the check do not disturb one another. -/
theorem independent_checkOptions : Independent checkOptions checkOperand := by
  have hledger : ∀ v, Puts (fun r : CheckRequest => .ok { r with ledger? := some v })
      (.ok v : Except Fault Bytes) (fun v r => { r with ledger? := some v }) := fun v r => rfl
  refine independent_append isPart_analysis_check (List.pairwise_singleton _ _) ?_ .check
  rintro o ho v
  obtain rfl := List.mem_singleton.mp ho
  exact swaps_onPart (hledger v) (fun _ _ => rfl) fun _ _ _ => rfl

/-- An extraction is read by its own options. -/
theorem readTask_extract (args : List Bytes) :
    let r := readArguments extractOptions extractOperand {} args
    readTask .extract args =
      (.extract r.1, r.2 <|> noFilesFault? .extract r.1.analysis) := by
  have hoperand : extractOperand =
      fun arg r => return { r with analysis := ← addFile .extract arg r.analysis } := by
    funext arg r
    unfold extractOperand onPart
    cases addFile .extract arg r.analysis <;> rfl
  rw [hoperand]
  rfl

/-- A check is read by its own options. -/
theorem readTask_check (args : List Bytes) :
    let r := readArguments checkOptions checkOperand {} args
    readTask .check args = (.check r.1, r.2 <|> noFilesFault? .check r.1.analysis) := by
  have hoperand : checkOperand =
      fun arg r => return { r with analysis := ← addFile .check arg r.analysis } := by
    funext arg r
    unfold checkOperand onPart
    cases addFile .check arg r.analysis <;> rfl
  rw [hoperand]
  rfl

/-- A file does not look like an option. -/
theorem head?_ne_of_onPart {σ : Type} {part : σ → AnalysisRequest} {put : AnalysisRequest → σ → σ}
    {verb : Verb} (arg : Bytes) (s t : σ) (h : onPart part put (addFile verb arg) s = .ok t) :
    arg.head? ≠ some minus := by
  obtain ⟨a, ha, -⟩ := map_eq_ok_iff.mp h
  exact head?_ne_of_addFile ha

section

variable {verb : Verb} {args : List Bytes} {task : Task}

/-- What a command that analyses files accepts is properly spelled. -/
theorem exists_spellAll_of_readTask (hverb : verb = .extract ∨ verb = .check)
    (h : readTask verb args = (task, none)) :
    ∃ os : List Occurrence, (∀ a ∈ os, a.IsProper verb.optionKeys) ∧ spellAll os = args := by
  have hfault := congrArg Prod.snd h
  rcases hverb with rfl | rfl
  · rw [readTask_extract, Option.orElse_eq_none] at hfault
    exact exists_spellAll head?_ne_of_onPart (Prod.ext rfl hfault.1)
  · rw [readTask_check, Option.orElse_eq_none] at hfault
    exact exists_spellAll head?_ne_of_onPart (Prod.ext rfl hfault.1)

/-- Rearranged arguments ask the command for the same. -/
theorem readTask_rearranged (hverb : verb = .extract ∨ verb = .check) {os os' : List Occurrence}
    (hos : ∀ a ∈ os, a.IsProper verb.optionKeys) (hsame : Rearranged os os')
    (h : readTask verb (spellAll os) = (task, none)) :
    readTask verb (spellAll os') = (task, none) := by
  have hfault := congrArg Prod.snd h
  rcases hverb with rfl | rfl
  · rw [readTask_extract, Option.orElse_eq_none] at hfault
    have hread := hsame.readArguments wellKeyed_extractOptions independent_extractOptions hos
      (Prod.ext rfl hfault.1)
    rw [← h, readTask_extract, readTask_extract, hread, hfault.1]
  · rw [readTask_check, Option.orElse_eq_none] at hfault
    have hread := hsame.readArguments wellKeyed_checkOptions independent_checkOptions hos
      (Prod.ext rfl hfault.1)
    rw [← h, readTask_check, readTask_check, hread, hfault.1]

end

/-! ## Command lines -/

/-- The verb of a task. -/
def Task.verb : Task → Verb
  | extract _ => .extract
  | check _ => .check
  | hash _ => .hash
  | config _ => .config

/-- The occurrence names a configuration, which is what stands in front of a command. -/
def Occurrence.IsGlobal (g : Occurrence) : Prop :=
  g.key? = some (bytes "--config") ∧ g.text ≠ []

instance (g : Occurrence) : Decidable g.IsGlobal := inferInstanceAs (Decidable (_ ∧ _))

/-- A command line that names configurations, and then a command with its arguments. -/
def commandLine (gs : List Occurrence) (verb : Verb) (args : List Bytes) : List Bytes :=
  spellAll gs ++ bytes verb.name :: args

/-- The first global option is spelled before the others. -/
theorem commandLine_cons (g : Occurrence) (gs : List Occurrence) (verb : Verb) (args : List Bytes) :
    commandLine (g :: gs) verb args = g.spell ++ commandLine gs verb args := by
  rw [commandLine, spellAll_cons, List.append_assoc, ← commandLine]

section

variable {config? : Option Bytes} {args : List Bytes} {gs gs' : List Occurrence}

/-- In either spelling the global option takes the place of the one before. As the text is a use of
`--config`, it is none of the words that are looked at before. -/
theorem readFrom_option {value : Bytes} (hvalue : value ≠ []) (joined : Bool) :
    readFrom config? ((Occurrence.option (bytes "--config") value joined).spell ++ args) =
      readFrom (some value) args := by
  have hne : ∀ {arg use text}, OptionUse.of? (bytes "--config") arg = some use →
      OptionUse.of? (bytes "--config") text = none → arg ≠ text := by
    rintro arg use text huse hnone rfl
    exact absurd (huse.symm.trans hnone) (by simp)
  have hhelp : ∀ {arg use}, OptionUse.of? (bytes "--config") arg = some use →
      ¬(arg = bytes "-h" ∨ arg = bytes "--help") := by
    rintro arg use huse (heq | heq)
    · exact hne huse (by decide) heq
    · exact hne huse (by decide) heq
  have hempty : ¬value.isEmpty = true := by simpa using hvalue
  cases joined with
  | true =>
    have huse := of?_joined (bytes "--config") value
    rw [Occurrence.spell, List.singleton_append, readFrom.eq_def]
    dsimp only
    rw [if_neg (hhelp huse), if_neg (hne huse (by decide)), huse]
    exact if_neg hempty
  | false =>
    have huse := of?_key (bytes "--config")
    rw [Occurrence.spell, List.cons_append, List.singleton_append, readFrom.eq_def]
    dsimp only
    rw [if_neg (hhelp huse), if_neg (hne huse (by decide)), huse]
    exact if_neg hempty

/-- Behind the verb its own arguments are read. -/
theorem readFrom_verb (verb : Verb) : readFrom config? (bytes verb.name :: args) =
    { config?, request := .perform (readTask verb args).1, fault? := (readTask verb args).2 } := by
  cases verb <;> rfl

/-- The last configuration is the one that is read. -/
theorem readFrom_commandLine (hgs : ∀ g ∈ gs, g.IsGlobal) (verb : Verb) :
    readFrom config? (commandLine gs verb args) =
      { config? := (told (some (bytes "--config")) gs).getLast?.or config?
        request := .perform (readTask verb args).1
        fault? := (readTask verb args).2 } := by
  induction gs generalizing config? with
  | nil => exact readFrom_verb verb
  | cons g gs ih =>
    obtain ⟨⟨hkey, htext⟩, hrest⟩ := List.forall_mem_cons.mp hgs
    cases g with
    | file path => exact absurd hkey (by simp [Occurrence.key?])
    | option key value joined =>
      obtain rfl := Option.some.inj hkey
      have hvalue : value ≠ [] := htext
      rw [commandLine_cons, readFrom_option hvalue, ih hrest, told_cons_of_eq hkey,
        List.getLast?_cons]
      cases (told _ gs).getLast? <;> rfl

/-- What asks for a task names configurations, and then a command with its arguments. -/
theorem exists_commandLine {task : Task} (h : (readFrom config? args).request = .perform task) :
    ∃ (gs : List Occurrence) (verb : Verb) (rest : List Bytes),
      (∀ g ∈ gs, g.IsGlobal) ∧ commandLine gs verb rest = args := by
  have hname : ∀ {arg verb}, Verb.ofName? arg = some verb → bytes verb.name = arg :=
    fun hverb => by simpa using List.find?_some hverb
  fun_induction readFrom config? args with
  | case1 | case2 | case3 | case4 | case6 | case7 | case10 | case11 => cases h
  | case5 config? arg args _ _ v huse hv ih =>
    obtain ⟨gs, verb, rest, hgs, rfl⟩ := ih h
    have hvalue : v ≠ [] := by simpa using hv
    refine ⟨.option (bytes "--config") v true :: gs, verb, rest,
      List.forall_mem_cons.mpr ⟨⟨rfl, hvalue⟩, hgs⟩, ?_⟩
    rw [commandLine_cons, eq_of_of? huse]
    rfl
  | case8 config? arg _ _ huse v args hv ih =>
    obtain ⟨gs, verb, rest, hgs, rfl⟩ := ih h
    have hvalue : v ≠ [] := by simpa using hv
    refine ⟨.option (bytes "--config") v false :: gs, verb, rest,
      List.forall_mem_cons.mpr ⟨⟨rfl, hvalue⟩, hgs⟩, ?_⟩
    rw [commandLine_cons, eq_of_of? huse]
    rfl
  | case9 config? arg args _ _ verb hverb =>
    exact ⟨[], verb, args, by simp, by rw [← hname hverb]; rfl⟩

/-- What is read is a task of the verb. -/
theorem verb_readTask (verb : Verb) : (readTask verb args).1.verb = verb := by
  cases verb with
  | extract => rw [readTask_extract]; rfl
  | check => rw [readTask_check]; rfl
  | hash =>
    match args with
    | [] | [_] | _ :: _ :: _ => rfl
  | config =>
    match args with
    | [] => rfl
    | arg :: args =>
      rw [readTask]
      split <;> rfl

/-- A command line is its last global option, and the task of its verb. -/
theorem ofArguments_commandLine (hgs : ∀ g ∈ gs, g.IsGlobal) (verb : Verb) :
    CommandLine.ofArguments (commandLine gs verb args) =
      { config? := (told (some (bytes "--config")) gs).getLast?
        request := .perform (readTask verb args).1
        fault? := (readTask verb args).2 } := by
  rw [CommandLine.ofArguments, if_neg (by simp [commandLine]), readFrom_commandLine hgs,
    Option.or_none]

/-- Global options stay global when they are rearranged. -/
theorem Rearranged.isGlobal (h : Rearranged gs gs') (hgs : ∀ g ∈ gs, g.IsGlobal) :
    ∀ g ∈ gs', g.IsGlobal := by
  intro g hg
  obtain ⟨f, hf, hkey, htext⟩ := h.exists_of_mem hg
  exact ⟨hkey ▸ (hgs f hf).1, htext ▸ (hgs f hf).2⟩

/-- A command line as it is written: configurations, the command, and what is behind it. -/
structure Written (gs : List Occurrence) (verb : Verb) (os : List Occurrence) (args : List Bytes) :
    Prop where
  globals : ∀ g ∈ gs, g.IsGlobal
  arguments : ∀ a ∈ os, a.IsProper verb.optionKeys
  commandLine_eq : commandLine gs verb (spellAll os) = args

/-- What is accepted is written so. -/
theorem exists_written {task : Task} (hfault : (CommandLine.ofArguments args).fault? = none)
    (hrequest : (CommandLine.ofArguments args).request = .perform task)
    (hverb : task.verb = .extract ∨ task.verb = .check) :
    ∃ gs os, Written gs task.verb os args := by
  have hargs : CommandLine.ofArguments args = readFrom none args := by
    refine if_neg fun hempty => ?_
    rw [CommandLine.ofArguments, if_pos hempty] at hrequest
    cases hrequest
  obtain ⟨gs, verb, rest, hgs, rfl⟩ := exists_commandLine (hargs ▸ hrequest)
  rw [ofArguments_commandLine hgs] at hfault hrequest
  have htask : (readTask verb rest).1 = task := Request.perform.inj hrequest
  obtain rfl : task.verb = verb := htask ▸ verb_readTask verb
  obtain ⟨os, hos, rfl⟩ := exists_spellAll_of_readTask hverb (Prod.ext htask hfault)
  exact ⟨gs, os, hgs, hos, rfl⟩

/-- **The options of a command that analyses files may stand anywhere behind it, and their values
may be spelled in either way.** What is accepted consists of options, each with its value, and of
files. The same command line comes from all that say the same about each option, and name the same
files, in the same order each: from respelling a value (`rearranged_respell`), and from moving an
option with its value over anything but a further occurrence of it (`rearranged_move`). -/
theorem ofArguments_rearranged {args : List Bytes} {task : Task}
    (hfault : (CommandLine.ofArguments args).fault? = none)
    (hrequest : (CommandLine.ofArguments args).request = .perform task)
    (hverb : task.verb = .extract ∨ task.verb = .check) :
    (∃ gs os, Written gs task.verb os args) ∧
    ∀ gs gs' os os', Written gs task.verb os args → Rearranged gs gs' → Rearranged os os' →
      CommandLine.ofArguments (commandLine gs' task.verb (spellAll os')) =
        CommandLine.ofArguments args := by
  refine ⟨exists_written hfault hrequest hverb, ?_⟩
  rintro gs gs' os os' ⟨hgs, hos, rfl⟩ hglobals harguments
  rw [ofArguments_commandLine hgs] at hfault hrequest ⊢
  have hread : readTask task.verb (spellAll os) = (task, none) :=
    Prod.ext (Request.perform.inj hrequest) hfault
  rw [ofArguments_commandLine (hglobals.isGlobal hgs), ← hglobals, hread,
    readTask_rearranged hverb hos harguments hread]

/-- Two spellings of one line, the options in another order, are read as the same. -/
theorem ofArguments_rearranged_sample :
    let args := ["--config=c", "extract", "--kind=Class", "a.ts", "--kind", "Enum"].map bytes
    (CommandLine.ofArguments args).fault? = none ∧
    (CommandLine.ofArguments args).request = .perform
      (.extract { analysis := { files := [bytes "a.ts"] }, kinds := [.classKind, .enumKind] }) ∧
    CommandLine.ofArguments
      (["--config", "c", "extract", "a.ts", "--kind", "Class", "--kind", "Enum"].map bytes) =
      CommandLine.ofArguments args := by
  intro args
  have hfault : (CommandLine.ofArguments args).fault? = none := by decide +kernel
  have hrequest : (CommandLine.ofArguments args).request = .perform
      (.extract { analysis := { files := [bytes "a.ts"] }, kinds := [.classKind, .enumKind] }) := by
    decide +kernel
  refine ⟨hfault, hrequest, ?_⟩
  let kind (name : String) (joined : Bool) : Occurrence :=
    .option (bytes "--kind") (bytes name) joined
  have hwritten : Written [.option (bytes "--config") (bytes "c") true] .extract
      [kind "Class" true, .file (bytes "a.ts"), kind "Enum" false] args :=
    ⟨by decide +kernel, by decide +kernel, by decide +kernel⟩
  have hspelled : Rearranged [kind "Class" true, .file (bytes "a.ts"), kind "Enum" false]
      [kind "Class" false, .file (bytes "a.ts"), kind "Enum" false] :=
    rearranged_respell [] _ rfl rfl
  have hmoved : Rearranged [kind "Class" false, .file (bytes "a.ts"), kind "Enum" false]
      [.file (bytes "a.ts"), kind "Class" false, kind "Enum" false] :=
    rearranged_move [] [.file (bytes "a.ts")] _ (by decide)
  exact (ofArguments_rearranged hfault hrequest (.inl rfl)).2 _
    [.option (bytes "--config") (bytes "c") false] _ _ hwritten
    (rearranged_respell [] [] rfl rfl) (hspelled.trans hmoved)

end

end SignatureLedger.Command
