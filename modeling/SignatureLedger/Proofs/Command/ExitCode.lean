import SignatureLedger.Command.Run
import SignatureLedger.Files.Tree
import SignatureLedger.Proofs.Ledger.Comparison

/-!
# How a check ends

The exit code of `check` tells three things apart: that the work could not be done, that it was done
and some file differs from the ledger, and that it was done and none does (`code_check`). The files
may be any that can be looked at without changing them.
-/

namespace SignatureLedger

/-! ## Differences -/

/-- The symbol differs from the ledger or is gone. -/
def DriftStatus.isDrift : DriftStatus → Bool
  | drifted _ _ | removed => true
  | inSync | notTracked => false

namespace Drift

/-- Two results together have drift exactly if one of them has. -/
theorem hasDrift_plus (d e : Drift) : (d.plus e).hasDrift = (d.hasDrift || e.hasDrift) := by
  rw [Bool.eq_iff_iff]
  simp only [hasDrift, plus, Bool.or_eq_true, decide_eq_true_eq, gt_iff_lt,
    Nat.add_pos_iff_pos_or_pos]
  exact or_or_or_comm

/-- **The numbers of several files show a difference if one of the files has it.** -/
theorem hasDrift_sum (ds : List Drift) : (sum ds).hasDrift = ds.any hasDrift := by
  have hfold : ∀ d : Drift, (ds.foldl plus d).hasDrift = (d.hasDrift || ds.any hasDrift) := by
    induction ds with
    | nil => simp
    | cons e ds ih =>
      intro d
      rw [List.foldl_cons, ih, hasDrift_plus, List.any_cons, Bool.or_assoc]
  exact hfold {}

/-- Some symbol of the file differs from the ledger or is gone. -/
def Drifts (d : Drift) : Prop := ∃ key st, d.statuses.find? key = some st ∧ st.isDrift = true

/-- A counter is positive exactly if some key has its status. -/
theorem counter_pos_iff {d : Drift} (h : d.Counted) (t : DriftStatus) :
    0 < d.counter t ↔ ∃ key st, d.statuses.find? key = some st ∧ st.name = t.name := by
  rw [h t, ByteMap.tally, List.countP_pos_iff]
  simp only [decide_eq_true_eq, Prod.exists]
  constructor
  · rintro ⟨key, st, hmem, hname⟩
    exact ⟨key, st, ByteMap.mem_entries_iff.mp hmem, hname⟩
  · rintro ⟨key, st, hfind, hname⟩
    exact ⟨key, st, ByteMap.mem_entries_iff.mpr hfind, hname⟩

/-- The result has drift exactly if some key has drifted. -/
theorem hasDrift_iff {d : Drift} (h : d.Counted) : d.hasDrift = true ↔ d.Drifts := by
  have hdrifted := counter_pos_iff h (.drifted [] [])
  have hremoved := counter_pos_iff h .removed
  rw [hasDrift, Bool.or_eq_true, decide_eq_true_eq, decide_eq_true_eq]
  constructor
  · rintro (hpos | hpos)
    · obtain ⟨key, st, hfind, hname⟩ := hdrifted.mp hpos
      exact ⟨key, st, hfind, by cases st <;> simp_all [DriftStatus.name, DriftStatus.isDrift]⟩
    · obtain ⟨key, st, hfind, hname⟩ := hremoved.mp hpos
      exact ⟨key, st, hfind, by cases st <;> simp_all [DriftStatus.name, DriftStatus.isDrift]⟩
  · rintro ⟨key, st, hfind, hst⟩
    cases st with
    | drifted old new => exact .inl (hdrifted.mpr ⟨key, _, hfind, rfl⟩)
    | removed => exact .inr (hremoved.mpr ⟨key, _, hfind, rfl⟩)
    | inSync | notTracked => exact absurd hst (by simp [DriftStatus.isDrift])

end Drift

/-! ## Looking at files -/

section

variable {σ α β : Type}

/-- The action gives a value and leaves the state as it is. -/
def Gives (s : σ) (a : StateM σ α) (v : α) : Prop := a.run s = (v, s)

namespace Gives

variable {s : σ} {a : StateM σ α} {f : α → StateM σ β} {v : α} {w : β}

theorem pure (v : α) : Gives s (Pure.pure v) v := rfl

/-- What two steps give one after the other. -/
theorem bind (ha : Gives s a v) (hf : Gives s (f v) w) : Gives s (a >>= f) w := by
  show (f (a.run s).1).run (a.run s).2 = (w, s)
  rw [ha]
  exact hf

end Gives

namespace Command

/-- The action leaves the state as it is and gives a report with such an end. -/
def EndsIn (s : σ) (P : Status → Prop) (a : StateM σ Report) : Prop :=
  ∃ report, Gives s a report ∧ P report.status

namespace EndsIn

variable {s : σ} {P : Status → Prop}

theorem pure {report : Report} (h : P report.status) : EndsIn s P (Pure.pure report) :=
  ⟨report, .pure _, h⟩

/-- How a run ends is decided by its last step. -/
theorem bind {a : StateM σ α} {f : α → StateM σ Report} {v : α} (ha : Gives s a v)
    (hf : EndsIn s P (f v)) : EndsIn s P (a >>= f) := by
  obtain ⟨report, hreport, hend⟩ := hf
  exact ⟨report, ha.bind hreport, hend⟩

/-- Warnings do not change how a command ends. -/
theorem warn {a : StateM σ Report} (ha : EndsIn s P a) (messages : List Bytes) :
    EndsIn s P (a >>= fun report => Pure.pure (report.warn messages)) := by
  obtain ⟨report, hreport, hend⟩ := ha
  exact ⟨_, hreport.bind (.pure _), hend⟩

end EndsIn

end Command

variable [Files (StateM σ)]

/-- What is at each path, and stays there when it is looked at. -/
def Shows (s : σ) (view : Bytes → Entry) : Prop := ∀ path, Gives s (Files.look path) (view path)

variable {s : σ} {view : Bytes → Entry}

/-- A tree of files shows what is found in it. -/
theorem FileTree.shows (t : FileTree) : Shows t t.look := fun _ => rfl

/-! ## Configurations -/

namespace Config

/-- Looking at a file gives what the view has at its path. -/
theorem Gives.candidate (hview : Shows s view) (path : Bytes) :
    Gives s (candidate path) ⟨path, view path⟩ :=
  (hview path).bind (.pure _)

/-- Looking for a root upwards from a directory gives some answer, or none. -/
theorem exists_gives_rootFrom? (hview : Shows s view) (directory : Bytes) :
    ∃ root?, Gives s (rootFrom? directory) root? := by
  unfold rootFrom?
  refine Exists.imp (fun v hv => (hview _).bind ((hview _).bind hv)) ?_
  split
  · exact ⟨_, .pure _⟩
  dsimp only
  split
  · split
    · exact ⟨_, .pure _⟩
    · exact exists_gives_rootFrom? hview _
  · exact ⟨_, .pure _⟩
termination_by directory.length

/-- So does looking for the root of a project. -/
theorem exists_gives_projectRoot? (hview : Shows s view) (directory start : Bytes) :
    ∃ root?, Gives s (projectRoot? directory start) root? := by
  unfold projectRoot?
  refine Exists.imp (fun v hv => (hview _).bind hv) ?_
  split
  · exact ⟨_, .pure _⟩
  · exact exists_gives_rootFrom? hview _
  · exact exists_gives_rootFrom? hview _
  · exact exists_gives_rootFrom? hview _

/-- A configuration that is given is refused unless it is a file that can be read to its end. -/
theorem layer_given_error_iff (c : Candidate) :
    (∃ e, (ProjectConfig.given c).layer = .error e) ↔
      ∀ text, c.entry = .file text → (parse text).error? ≠ none := by
  obtain ⟨path, entry⟩ := c
  cases entry with
  | file text =>
    cases herror : (parse text).error? <;> simp [ProjectConfig.layer, Layer.read, herror]
  | directory | closed | absent => simp [ProjectConfig.layer, Layer.read]

/-- Whether the search for configurations succeeds does not depend on the one of the user. -/
theorem load_error_iff (user : Candidate) (project : ProjectConfig) :
    (∃ e, load user project = .error e) ↔ ∃ e, project.layer = .error e := by
  unfold load
  cases hlayer : project.layer with
  | error e => exact ⟨fun _ => ⟨e, rfl⟩, fun _ => ⟨e, rfl⟩⟩
  | ok upper? => cases upper? <;> exact ⟨fun ⟨_, h⟩ => (nomatch h), fun ⟨_, h⟩ => (nomatch h)⟩

/-- **The search for configurations only looks**, and it fails exactly where one is given that is
not a file or cannot be read to its end. -/
theorem exists_gives_discover (hview : Shows s view) (directory : Bytes) (env : Environment)
    (start : Bytes) (given? : Option Bytes) :
    ∃ found, Gives s (discover directory env start given?) found ∧
      ((∃ e, found = .error e) ↔
        ∃ path ∈ given?, ∀ text, view path = .file text → (parse text).error? ≠ none) := by
  unfold discover
  cases given? with
  | some path =>
    refine ⟨_, (Gives.candidate hview _).bind
      ((Gives.candidate hview path).bind ((Gives.pure _).bind (.pure _))), ?_⟩
    rw [load_error_iff, layer_given_error_iff]
    simp
  | none =>
    obtain ⟨root?, hroot⟩ := exists_gives_projectRoot? hview directory start
    cases root? with
    | none =>
      refine ⟨_, (Gives.candidate hview _).bind (hroot.bind ((Gives.pure _).bind (.pure _))), ?_⟩
      rw [load_error_iff]
      simp [ProjectConfig.layer]
    | some root =>
      refine ⟨_, (Gives.candidate hview _).bind
        (hroot.bind ((Gives.candidate hview _).bind ((Gives.pure _).bind (.pure _)))), ?_⟩
      rw [load_error_iff]
      simp [ProjectConfig.layer]

end Config

/-! ## Checks -/

namespace Command

/-- Files are analysed as they are seen. -/
theorem gives_analyseFiles (hview : Shows s view) (plan : Plan) (paths : List Bytes) :
    Gives s (analyseFiles plan paths) (paths.map fun p => Outcome.of plan p (view p)) := by
  unfold analyseFiles
  induction paths with
  | nil => exact .pure _
  | cons p paths ih =>
    rw [List.mapM_cons]
    exact Gives.bind (v := .of plan p (view p)) ((hview p).bind (.pure _)) (ih.bind (.pure _))

/-- The comparison of a file with a ledger. -/
def fileDrift (plan : Plan) (ledger : Ledger) (path content : Bytes) : Drift :=
  let a := analyze plan.options (SourceFile.displayPath path) (SourceFile.decode content)
  Drift.check ledger a.path a.signatures

/-- Some symbol of some file differs from the ledger or is gone. -/
def SomeDrift (view : Bytes → Entry) (plan : Plan) (ledger : Ledger) (files : List Bytes) : Prop :=
  ∃ path ∈ files, ∃ content, view path = .file content ∧
    (fileDrift plan ledger path content).Drifts

/-- An outcome has an analysis exactly if the entry is a file, and then it is that of its content.
-/
theorem analysis?_of (plan : Plan) (path : Bytes) (entry : Entry) (a : Analysis) :
    (Outcome.of plan path entry).analysis? = some a ↔ ∃ content, entry = .file content ∧
      analyze plan.options (SourceFile.displayPath path) (SourceFile.decode content) = a := by
  cases entry <;> simp [Outcome.of, Entry.content, Outcome.analysis?]

/-- There is nothing, or it cannot be opened. -/
def Unreadable (entry : Entry) : Prop := ∃ e, entry = .closed e ∨ entry = .absent e

/-- Of what is no directory, only what cannot be opened has no content. -/
theorem isUnreadable_of_iff (plan : Plan) (path : Bytes) {entry : Entry}
    (hentry : entry ≠ .directory) :
    (Outcome.of plan path entry).isUnreadable = true ↔ Unreadable entry := by
  cases entry with
  | file content => simp [Outcome.of, Entry.content, Outcome.isUnreadable, Unreadable]
  | directory => exact absurd rfl hentry
  | closed error => simp [Outcome.of, Entry.content, Outcome.isUnreadable, Unreadable]
  | absent error => simp [Outcome.of, Entry.content, Outcome.isUnreadable, Unreadable]

/-- Some outcome is unreadable exactly if some file is. -/
theorem any_isUnreadable_iff (plan : Plan) {files : List Bytes}
    (hfiles : ∀ path ∈ files, view path ≠ .directory) :
    (files.map fun p => Outcome.of plan p (view p)).any Outcome.isUnreadable = true ↔
      ∃ path ∈ files, Unreadable (view path) := by
  rw [List.any_map, List.any_eq_true]
  constructor
  · rintro ⟨path, hpath, h⟩
    exact ⟨path, hpath, (isUnreadable_of_iff plan path (hfiles path hpath)).mp h⟩
  · rintro ⟨path, hpath, h⟩
    exact ⟨path, hpath, (isUnreadable_of_iff plan path (hfiles path hpath)).mpr h⟩

/-- The results together have drift exactly if some file that was read has drifted. -/
theorem hasDrift_drifts_iff (plan : Plan) (ledger : Ledger) (files : List Bytes) :
    (Drift.sum ((drifts ledger (files.map fun p => Outcome.of plan p (view p))).map
      (·.2))).hasDrift = true ↔ SomeDrift view plan ledger files := by
  rw [Drift.hasDrift_sum, drifts, List.map_map, List.any_map, List.any_eq_true]
  simp only [analyses, List.mem_filterMap, List.mem_map, Function.comp_apply]
  constructor
  · rintro ⟨a, ⟨_, ⟨path, hpath, rfl⟩, ha⟩, hdrift⟩
    obtain ⟨content, hcontent, rfl⟩ := (analysis?_of plan path (view path) a).mp ha
    exact ⟨path, hpath, content, hcontent,
      (Drift.hasDrift_iff (Drift.counted_check _ _ _)).mp hdrift⟩
  · rintro ⟨path, hpath, content, hcontent, hdrift⟩
    exact ⟨_, ⟨_, ⟨path, hpath, rfl⟩,
      (analysis?_of plan path (view path) _).mpr ⟨content, hcontent, rfl⟩⟩,
      (Drift.hasDrift_iff (Drift.counted_check _ _ _)).mpr hdrift⟩

/-! ### What a check needs -/

/-- The search for the configurations that a check starts with. -/
def discovered (s : σ) (c : Circumstances) (line : CommandLine) (r : CheckRequest) :
    Except Config.LoadError Config.Loaded :=
  ((Config.discover c.directory c.environment ((Task.check r).anchor?.getD c.directory)
    line.config? : StateM σ _).run s).1

/-- The configuration is accepted exactly if none is given, or if the one that is given is a file
that can be read to its end. -/
theorem discovered_ok_iff (hview : Shows s view) (c : Circumstances) (line : CommandLine)
    (r : CheckRequest) :
    (∃ loaded, discovered s c line r = .ok loaded) ↔
      ∀ path ∈ line.config?, ∃ text, view path = .file text ∧
        (Config.parse text).error? = none := by
  obtain ⟨found, hfound, herror⟩ := Config.exists_gives_discover hview c.directory c.environment
    ((Task.check r).anchor?.getD c.directory) line.config?
  rw [show discovered s c line r = found from congrArg Prod.fst hfound]
  have hok : (∃ loaded, found = .ok loaded) ↔ ¬ ∃ e, found = .error e := by
    cases found <;> simp
  rw [hok, herror]
  push Not
  rfl

/-- The settings that a check works with. -/
def settings (c : Circumstances) (loaded : Config.Loaded) : Config.Settings :=
  .choose c.environment loaded.values

/-- The place of the ledger. -/
def ledgerPath (c : Circumstances) (r : CheckRequest) (loaded : Config.Loaded) : Bytes :=
  r.ledger?.getD (settings c loaded).ledger

/-- The options and the configuration of a check are accepted, and its ledger is the given text. -/
structure Opened (s : σ) (view : Bytes → Entry) (c : Circumstances) (line : CommandLine)
    (r : CheckRequest) (loaded : Config.Loaded) (text : Bytes) : Prop where
  options : line.fault? = none
  config : discovered s c line r = .ok loaded
  named : ledgerPath c r loaded ≠ []
  opened : view (ledgerPath c r loaded) = .file text

/-- A check can be done: its ledger is accepted as well, and all files can be opened. -/
structure Ready (s : σ) (view : Bytes → Entry) (c : Circumstances) (line : CommandLine)
    (r : CheckRequest) (loaded : Config.Loaded) (text : Bytes) : Prop
    extends Opened s view c line r loaded text where
  ledger : (Ledger.parse text).error? = none
  readable : ∀ path ∈ r.analysis.files, ¬ Unreadable (view path)

/-- The ways in which a check ends. One that cannot be made has failed, and any other tells whether
something drifted. -/
inductive Ends (s : σ) (view : Bytes → Entry) (c : Circumstances) (line : CommandLine)
    (r : CheckRequest) : Status → Prop
  | failed (h : ∀ loaded text, ¬ Ready s view c line r loaded text) : Ends s view c line r .failed
  | drift {loaded : Config.Loaded} {text : Bytes} (h : Ready s view c line r loaded text)
      (hdrift : SomeDrift view (.of c.environment (settings c loaded) r.analysis)
        (Ledger.parse text).ledger r.analysis.files) : Ends s view c line r .drift
  | ok {loaded : Config.Loaded} {text : Bytes} (h : Ready s view c line r loaded text)
      (hsync : ¬ SomeDrift view (.of c.environment (settings c loaded) r.analysis)
        (Ledger.parse text).ledger r.analysis.files) : Ends s view c line r .ok

variable {c : Circumstances} {line : CommandLine} {r : CheckRequest}
  {loaded loaded' : Config.Loaded} {text text' : Bytes}

/-- There is one configuration and one ledger. -/
theorem Opened.unique (h : Opened s view c line r loaded text)
    (h' : Opened s view c line r loaded' text') : loaded = loaded' ∧ text = text' := by
  obtain rfl := Except.ok.inj (h.config.symm.trans h'.config)
  exact ⟨rfl, Entry.file.inj (h.opened.symm.trans h'.opened)⟩

/-- Behind an accepted configuration and an opened ledger, the ledger and the files decide. -/
theorem ends_checkAgainst (hview : Shows s view)
    (hfiles : ∀ path ∈ r.analysis.files, view path ≠ .directory)
    (h : Opened s view c line r loaded text) :
    EndsIn s (Ends s view c line r)
      (checkAgainst c (settings c loaded) r.analysis (ledgerPath c r loaded) text) := by
  unfold checkAgainst
  dsimp only
  cases herror : (Ledger.parse text).error? with
  | some e =>
    refine .pure (.failed fun loaded' text' h' => ?_)
    obtain ⟨rfl, rfl⟩ := h.unique h'.toOpened
    exact absurd (herror.symm.trans h'.ledger) (by simp)
  | none =>
    refine .bind (gives_analyseFiles hview _ _) (.pure ?_)
    show Ends s view c line r (if _ then Status.failed else if _ then Status.drift else Status.ok)
    split
    · rename_i hunreadable
      obtain ⟨path, hpath, hclosed⟩ := (any_isUnreadable_iff _ hfiles).mp hunreadable
      exact .failed fun loaded' text' h' => h'.readable path hpath hclosed
    rename_i hreadable
    rw [any_isUnreadable_iff _ hfiles] at hreadable
    have hready : Ready s view c line r loaded text :=
      ⟨h, herror, fun path hpath hclosed => hreadable ⟨path, hpath, hclosed⟩⟩
    split
    · rename_i hdrift
      exact .drift hready ((hasDrift_drifts_iff _ _ _).mp hdrift)
    · rename_i hsync
      exact .ok hready (mt (hasDrift_drifts_iff _ _ _).mpr hsync)

/-- A check with a configuration that was loaded ends as described. If the ledger is opened the
comparison decides how (`ends_checkAgainst`). -/
theorem ends_runCheck (hview : Shows s view)
    (hfiles : ∀ path ∈ r.analysis.files, view path ≠ .directory) (hoptions : line.fault? = none)
    (hconfig : discovered s c line r = .ok loaded) :
    EndsIn s (Ends s view c line r) (runCheck c (settings c loaded) r) := by
  -- without a ledger that is opened nothing can be done
  have hfailed : (∀ text, ¬ Opened s view c line r loaded text) → Ends s view c line r .failed :=
    fun h => .failed fun loaded' text h' => by
      obtain rfl := Except.ok.inj (hconfig.symm.trans h'.config)
      exact h text h'.toOpened
  have hpath : r.ledger?.getD (settings c loaded).ledger = ledgerPath c r loaded := rfl
  unfold runCheck
  dsimp only
  rw [hpath]
  split
  · rename_i hempty
    exact .pure (hfailed fun text h => h.named (List.isEmpty_iff.mp hempty))
  rename_i hnamed
  refine .bind (hview _) ?_
  cases hopened : view (ledgerPath c r loaded) with
  | file text =>
    exact ends_checkAgainst hview hfiles ⟨hoptions, hconfig, mt List.isEmpty_iff.mpr hnamed, hopened⟩
  | directory | closed | absent =>
    exact .pure (hfailed fun text h => absurd (hopened.symm.trans h.opened) (by simp))

/-- **A run of a check ends in one of the three ways.** -/
theorem ends_run (hview : Shows s view) (args : List Bytes)
    (hrequest : (CommandLine.ofArguments args).request = .perform (.check r))
    (hfiles : ∀ path ∈ r.analysis.files, view path ≠ .directory) :
    EndsIn s (Ends s view c (CommandLine.ofArguments args) r) (run c args) := by
  unfold run
  dsimp only
  rw [hrequest]
  cases hfault : (CommandLine.ofArguments args).fault? with
  | some fault => exact .pure (.failed fun _ _ h => absurd (hfault.symm.trans h.options) (by simp))
  | none =>
    obtain ⟨found, hfound, -⟩ := Config.exists_gives_discover hview c.directory c.environment
      ((Task.check r).anchor?.getD c.directory) (CommandLine.ofArguments args).config?
    have hconfig : discovered s c (CommandLine.ofArguments args) r = found :=
      congrArg Prod.fst hfound
    refine .bind hfound ?_
    cases found with
    | error e => exact .pure (.failed fun _ _ h => absurd (hconfig.symm.trans h.config) (by simp))
    | ok loaded => exact .warn (ends_runCheck hview hfiles hfault hconfig) _

/-- **The exit code of a check can be trusted.** For every command line that asks for one, it is 2
if and only if the options, the configuration and the ledger were accepted, every file could be
read, and some symbol of some file differs from the ledger or is gone; it is 0 if and only if all
these were accepted and read and no symbol does; and it is 1 in every other case. None of the files
to check is a directory, for which there is no telling what reading it gives. -/
theorem code_check (hview : Shows s view) (c : Circumstances) (args : List Bytes) (r : CheckRequest)
    (hrequest : (CommandLine.ofArguments args).request = .perform (.check r))
    (hfiles : ∀ path ∈ r.analysis.files, view path ≠ .directory) :
    let code := ((run c args : StateM σ Report).run s).1.status.code
    let ready := Ready s view c (CommandLine.ofArguments args) r
    let differs := fun loaded text =>
      SomeDrift view (.of c.environment (settings c loaded) r.analysis)
        (Ledger.parse text).ledger r.analysis.files
    (code = 2 ↔ ∃ loaded text, ready loaded text ∧ differs loaded text) ∧
      (code = 0 ↔ ∃ loaded text, ready loaded text ∧ ¬ differs loaded text) ∧
      (code = 1 ↔ ¬ ∃ loaded text, ready loaded text) := by
  obtain ⟨report, hrun, hends⟩ := ends_run (c := c) hview args hrequest hfiles
  rw [hrun]
  dsimp only
  generalize report.status = st at hends
  cases hends with
  | failed h => simp [Status.code, h]
  | @drift loaded text h hdrift =>
    refine ⟨iff_of_true rfl ⟨loaded, text, h, hdrift⟩, iff_of_false (by decide) ?_,
      iff_of_false (by decide) fun hnot => hnot ⟨loaded, text, h⟩⟩
    rintro ⟨loaded', text', h', hsync⟩
    obtain ⟨rfl, rfl⟩ := h.unique h'.toOpened
    exact hsync hdrift
  | @ok loaded text h hsync =>
    refine ⟨iff_of_false (by decide) ?_, iff_of_true rfl ⟨loaded, text, h, hsync⟩,
      iff_of_false (by decide) fun hnot => hnot ⟨loaded, text, h⟩⟩
    rintro ⟨loaded', text', h', hdrift⟩
    obtain ⟨rfl, rfl⟩ := h.unique h'.toOpened
    exact hsync hdrift

end Command

end

namespace Command

/-! ### A symbol that is gone -/

namespace CheckSample

/-- A source without symbols, and a ledger that knows one of it. -/
def tree : FileTree :=
  let text := bytes "a.ts#f\t" ++ List.replicate 64 Byte.zero
  (({} : FileTree).withFile (bytes "/ledger") text).withFile (bytes "/a.ts") []

/-- The arguments of the sample run. -/
def args : List Bytes := [bytes "check", bytes "--ledger", bytes "ledger", bytes "a.ts"]

/-- The request that they make. -/
def request : CheckRequest where
  analysis := { files := [bytes "a.ts"] }
  ledger? := some (bytes "ledger")

/-- The circumstances of the sample run: no variables, and the empty path for directory. -/
def here : Circumstances where
  directory := []

end CheckSample

open CheckSample

/-- The entry of the ledger is found to be gone. -/
theorem code_check_gone :
    Shows tree tree.look ∧ (CommandLine.ofArguments args).request = .perform (.check request) ∧
      (∀ path ∈ request.analysis.files, tree.look path ≠ .directory) ∧
      ∃ loaded text,
        Ready tree tree.look here (CommandLine.ofArguments args) request loaded text ∧
          SomeDrift tree.look (.of here.environment (settings here loaded) request.analysis)
            (Ledger.parse text).ledger request.analysis.files := by
  have hrequest : (CommandLine.ofArguments args).request = .perform (.check request) := by
    decide +kernel
  have hcode : ((run here args : StateM FileTree Report).run tree).1.status.code = 2 := by
    decide +kernel
  have hfiles : ∀ path ∈ request.analysis.files, tree.look path ≠ .directory := by decide +kernel
  exact ⟨tree.shows, hrequest, hfiles,
    (code_check tree.shows here args request hrequest hfiles).1.mp hcode⟩

end Command

end SignatureLedger
