import SignatureLedger.Config.Layers
import SignatureLedger.Proofs.Ledger.RoundTrip

/-!
# Configurations that are given up half way

The reader of a configuration stops at the first line that makes no sense, and what it has read by
then stays. A file that fails to load is remarked on, but its layer keeps the values of the lines
before the fault: it counts as the file that ends there (`parse_eq_of_error`), and it is as good as
no file only where every value that was read is covered by the other layer (`load_of_rejected`).
-/

namespace SignatureLedger

namespace ByteMap

variable {α : Type}

/-! ## Lookups in layers -/

/-- A filter on the keys leaves the values of those keys alone. -/
theorem find?_filter (p : Bytes → Bool) (m : ByteMap α) (k : Bytes) :
    (m.filter fun key _ => p key).find? k = if p k then m.find? k else none := by
  -- among the entries with the key, the property is that of the key
  have hkey : ∀ e : Bytes × α, decide (p e.1 = true ∧ (e.1 == k) = true) = (p k && e.1 == k) := by
    intro e
    cases he : e.1 == k with
    | false => simp
    | true => simp [eq_of_beq he]
  rw [find?, filter, List.find?_filter, funext hkey, find?]
  cases p k <;> simp

/-- The upper layer goes before the lower one. -/
theorem find?_override (m n : ByteMap α) (k : Bytes) :
    (m.override n).find? k = (n.find? k).or (m.find? k) := by
  have hlast : ((n.entries.filter (·.1 == k)).getLast?).map (·.2) = n.find? k := by
    cases hn : n.find? k with
    | some v =>
      have hmem : (k, v) ∈ n.entries := mem_entries_iff.mpr hn
      have hlast : (n.entries.filter (·.1 == k)).getLast? = some (k, v) :=
        getLast?_filter_of_nodup n.nodup_keys hmem
      rw [hlast, Option.map_some]
    | none =>
      have hnil : n.entries.filter (·.1 == k) = [] := by
        rw [List.filter_eq_nil_iff]
        intro e he hk
        have hfind := mem_entries_iff.mp (show (k, e.2) ∈ n.entries from eq_of_beq hk ▸ he)
        rw [hn] at hfind
        exact absurd hfind (by simp)
      rw [hnil]
      rfl
  rw [override, find?_foldl_insert, hlast]

/-- A key has no value exactly if the map does not contain it. -/
theorem find?_eq_none_iff {m : ByteMap α} {k : Bytes} :
    m.find? k = none ↔ m.contains k = false := by
  rw [contains, Option.isSome_eq_false_iff, Option.isNone_iff_eq_none]

/-- A lower layer does nothing exactly if the upper one has all its keys. Only a key that the upper
layer lacks can let the lower one through. -/
theorem override_eq_empty_override_iff {m n : ByteMap α} :
    m.override n = empty.override n ↔ ∀ k, m.contains k = true → n.contains k = true := by
  constructor
  · intro h k hm
    have hk : (n.find? k).or (m.find? k) = (n.find? k).or none := by
      rw [← find?_override, h, find?_override, find?_empty]
    cases hn : n.find? k with
    | some v => rw [contains, hn, Option.isSome_some]
    | none =>
      rw [hn, Option.none_or, Option.none_or] at hk
      rw [contains, hk] at hm
      exact absurd hm (by simp)
  · intro h
    refine ext_find? fun k => ?_
    rw [find?_override, find?_override, find?_empty]
    cases hn : n.find? k with
    | some v => rfl
    | none =>
      have hnot : m.find? k = none := by
        rw [find?_eq_none_iff, ← Bool.not_eq_true]
        intro hm
        exact absurd (h k hm) (by simp [find?_eq_none_iff.mp hn])
      rw [hnot]

/-- An upper layer does nothing exactly if the lower one has all its values. -/
theorem override_eq_left_iff {m n : ByteMap α} :
    m.override n = m ↔ ∀ k v, n.find? k = some v → m.find? k = some v := by
  constructor
  · intro h k v hn
    rw [← h, find?_override, hn, Option.some_or]
  · intro h
    refine ext_find? fun k => ?_
    rw [find?_override]
    cases hn : n.find? k with
    | some v => rw [Option.some_or, h k v hn]
    | none => rw [Option.none_or]

/-- An empty map overrides nothing. -/
theorem override_empty (m : ByteMap α) : m.override empty = m := rfl

end ByteMap

namespace Config

open Byte

/-! ## Texts with a line that makes no sense -/

/-- A line that is at fault leaves everything as it was, but for the fault. -/
theorem Reading.addLine_eq_of_error {r : Reading} {number : Nat} {line : Bytes} {e : FormatError}
    (hr : r.error? = none) (h : (r.addLine number line).error? = some e) :
    e.line = number ∧ r.addLine number line = { r with error? := some e } := by
  unfold Reading.addLine at h ⊢
  split at h
  · rename_i fault hread
    obtain rfl := Option.some.inj h
    exact ⟨rfl, rfl⟩
  all_goals exact absurd (hr.symm.trans h) (by simp)

/-- Lines that end in a fault are read up to the line that has it. By induction on the lines: a line
that is read without a fault is passed, and the first fault ends the reading. -/
theorem Reading.exists_of_error {r : Reading} {number : Nat} {lines : List Bytes} {e : FormatError}
    (hr : r.error? = none) (h : (r.addLines number lines).error? = some e) :
    ∃ k, e.line = number + k ∧ k < lines.length ∧
      (r.addLines number (lines.take k)).error? = none ∧
      r.addLines number lines = { r.addLines number (lines.take k) with error? := some e } := by
  induction lines generalizing r number with
  | nil =>
    rw [Reading.addLines, hr] at h
    exact absurd h (by simp)
  | cons line lines ih =>
    rw [Reading.addLines] at h ⊢
    dsimp only at h ⊢
    cases hnext : (r.addLine number line).error? with
    | some fault =>
      rw [hnext, Option.isSome_some, if_pos rfl] at h
      obtain rfl := Option.some.inj (hnext.symm.trans h)
      obtain ⟨hline, heq⟩ := Reading.addLine_eq_of_error hr hnext
      refine ⟨0, hline, Nat.zero_lt_succ _, hr, ?_⟩
      rw [Option.isSome_some, if_pos rfl, heq, List.take_zero, Reading.addLines]
    | none =>
      rw [hnext, Option.isSome_none, if_neg Bool.false_ne_true] at h
      obtain ⟨k, hline, hk, hnone, heq⟩ := ih hnext h
      have htake : r.addLines number ((line :: lines).take (k + 1)) =
          (r.addLine number line).addLines (number + 1) (lines.take k) := by
        rw [List.take_succ_cons, Reading.addLines, hnext]
        rfl
      refine ⟨k + 1, by omega, Nat.succ_lt_succ hk, htake ▸ hnone, ?_⟩
      rw [Option.isSome_none, if_neg Bool.false_ne_true, heq, htake]

/-- The lines of a text before the one with the given number. -/
def linesBefore (number : Nat) (text : Bytes) : Bytes :=
  Bytes.join [lineFeed] ((text.splitOn lineFeed).take (number - 1))

/-- **What was read before the fault stays.** A text with a fault gives what its lines before the
fault give, and these have none. -/
theorem parse_eq_of_error {text : Bytes} {e : FormatError} (h : (parse text).error? = some e) :
    (parse (linesBefore e.line text)).error? = none ∧
      parse text = { parse (linesBefore e.line text) with error? := some e } := by
  obtain ⟨k, hline, hk, hnone, heq⟩ := Reading.exists_of_error rfl h
  have hnumber : e.line - 1 = k := by omega
  have hkept : parse (linesBefore e.line text) =
      ({} : Reading).addLines 1 ((text.splitOn lineFeed).take k) := by
    rw [parse, linesBefore, hnumber]
    cases k with
    | zero => rfl
    | succ k =>
      rw [Bytes.splitOn_join]
      · rw [List.ne_nil_iff_length_pos, List.length_take]
        omega
      · intro part hpart hmem
        exact (Bytes.mem_of_mem_splitOn (List.mem_of_mem_take hpart) hmem).2 rfl
  rw [hkept]
  exact ⟨hnone, heq⟩

/-! ## Layers with a fault -/

theorem Layer.values_read_file (path text : Bytes) :
    (Layer.read ⟨path, .file text⟩).values = (parse text).values := rfl

/-- The keys that mean something are those that have a name. -/
theorem isKnownKey_iff {k : Bytes} : isKnownKey k = true ↔ ∃ key : Key, key.name = k := by
  rw [isKnownKey, List.any_eq_true]
  constructor
  · rintro ⟨key, -, hkey⟩
    exact ⟨key, eq_of_beq hkey⟩
  · rintro ⟨key, rfl⟩
    exact ⟨key, by cases key <;> simp [Key.all], beq_self_eq_true _⟩

/-- Among the known values, each known key has the value that the file gives it. -/
theorem Layer.find?_knownValues (l : Layer) (key : Key) :
    l.knownValues.find? key.name = l.values.find? key.name := by
  rw [Layer.knownValues, ByteMap.find?_filter, if_pos (isKnownKey_iff.mpr ⟨key, rfl⟩)]

/-- Only known keys are among the known values. -/
theorem Layer.exists_key_of_find? {l : Layer} {k : Bytes} {v : Value}
    (h : l.knownValues.find? k = some v) : ∃ key : Key, key.name = k := by
  rw [Layer.knownValues, ByteMap.find?_filter] at h
  split at h
  · rename_i hk
    exact isKnownKey_iff.mp hk
  · exact absurd h (by simp)

/-- A layer with all known keys of another one. -/
theorem Layer.contains_knownValues_iff {l m : Layer} :
    (∀ k, l.knownValues.contains k = true → m.knownValues.contains k = true) ↔
      ∀ key : Key, l.values.contains key.name = true → m.values.contains key.name = true := by
  constructor
  · intro h key hkey
    rw [ByteMap.contains, ← Layer.find?_knownValues]
    refine h key.name ?_
    rwa [ByteMap.contains, Layer.find?_knownValues]
  · intro h k hk
    obtain ⟨v, hv⟩ := Option.isSome_iff_exists.mp hk
    obtain ⟨key, rfl⟩ := Layer.exists_key_of_find? hv
    rw [ByteMap.contains, Layer.find?_knownValues] at hk ⊢
    exact h key hk

/-- A layer with all known values of another one. -/
theorem Layer.find?_knownValues_iff {l m : Layer} :
    (∀ k v, l.knownValues.find? k = some v → m.knownValues.find? k = some v) ↔
      ∀ (key : Key) (v : Value),
        l.values.find? key.name = some v → m.values.find? key.name = some v := by
  constructor
  · intro h key v hkey
    rw [← Layer.find?_knownValues] at hkey ⊢
    exact h key.name v hkey
  · intro h k v hk
    obtain ⟨key, rfl⟩ := Layer.exists_key_of_find? hk
    rw [Layer.find?_knownValues] at hk ⊢
    exact h key v hk

/-! ## Loading -/

/-- The values that the configurations of the user and of the project come to. -/
def loadedValues (user : Candidate) (project : ProjectConfig) : Except LoadError Values :=
  (load user project).map Loaded.values

/-- The place without a configuration. -/
def absent (path : Bytes) : Candidate := ⟨path, .absent .notFound⟩

/-- With no project file, the values are those of the user's. -/
theorem loadedValues_of_no_layer {user : Candidate} {project : ProjectConfig}
    (h : project.layer = .ok none) :
    loadedValues user project = .ok (Layer.read user).knownValues := by
  rw [loadedValues, load, h]
  rfl

/-- With a project file, its known values override the user's. -/
theorem loadedValues_of_layer {user : Candidate} {project : ProjectConfig} {upper : Layer}
    (h : project.layer = .ok (some upper)) :
    loadedValues user project =
      .ok ((Layer.read user).knownValues.override upper.knownValues) := by
  rw [loadedValues, load, h]
  rfl

/-- The file that was found is the layer of the project. -/
theorem layer_discovered (c : Candidate) :
    (ProjectConfig.discovered c).layer = .ok (some (Layer.read c)) := rfl

/-- An error of the project file is the error of the whole. -/
theorem loadedValues_of_error {user : Candidate} {project : ProjectConfig} {error : LoadError}
    (h : project.layer = .error error) : loadedValues user project = .error error := by
  rw [loadedValues, load, h]
  rfl

/-- A file with a fault has the values of its lines before the fault. -/
theorem knownValues_read_of_error (path : Bytes) {text : Bytes} {e : FormatError}
    (h : (parse text).error? = some e) :
    (Layer.read ⟨path, .file text⟩).knownValues =
      (Layer.read ⟨path, .file (linesBefore e.line text)⟩).knownValues := by
  rw [Layer.knownValues, Layer.knownValues, Layer.values_read_file, Layer.values_read_file,
    (parse_eq_of_error h).2]

/-- Of the configuration of the user, only the known values count. -/
theorem loadedValues_congr_user {user user' : Candidate} (project : ProjectConfig)
    (h : (Layer.read user).knownValues = (Layer.read user').knownValues) :
    loadedValues user project = loadedValues user' project := by
  cases hlayer : project.layer with
  | error error => rw [loadedValues_of_error hlayer, loadedValues_of_error hlayer]
  | ok upper? =>
    cases upper? with
    | none => rw [loadedValues_of_no_layer hlayer, loadedValues_of_no_layer hlayer, h]
    | some upper => rw [loadedValues_of_layer hlayer, loadedValues_of_layer hlayer, h]

/-- The file of the user does nothing exactly if the project has all keys that it has. -/
theorem loadedValues_user_eq_absent_iff (path text : Bytes) (project : ProjectConfig) :
    loadedValues ⟨path, .file text⟩ project = loadedValues (absent path) project ↔
      ∀ upper?, project.layer = .ok upper? →
        ∀ key : Key, (parse text).values.contains key.name = true →
          ∃ upper ∈ upper?, upper.values.contains key.name = true := by
  cases hlayer : project.layer with
  | error error => simp [loadedValues_of_error hlayer]
  | ok upper? =>
    cases upper? with
    | none =>
      -- no layer is like one without values
      have hnone : ∀ key : Key, (Layer.read (absent path)).values.contains key.name = false :=
        fun _ => rfl
      rw [loadedValues_of_no_layer hlayer, loadedValues_of_no_layer hlayer, Except.ok.injEq]
      refine ((ByteMap.override_eq_empty_override_iff (n := ByteMap.empty)).trans
        (Layer.contains_knownValues_iff (m := Layer.read (absent path)))).trans ?_
      simp [Layer.values_read_file, hnone]
    | some upper =>
      rw [loadedValues_of_layer hlayer, loadedValues_of_layer hlayer, Except.ok.injEq]
      refine (ByteMap.override_eq_empty_override_iff.trans
        Layer.contains_knownValues_iff).trans ?_
      simp [Layer.values_read_file]

/-- The file of the project does nothing exactly if the user has all values that it has. -/
theorem loadedValues_project_eq_absent_iff (user : Candidate) (path text : Bytes) :
    loadedValues user (.discovered ⟨path, .file text⟩) =
        loadedValues user (.discovered (absent path)) ↔
      ∀ (key : Key) (v : Value), (parse text).values.find? key.name = some v →
        (Layer.read user).values.find? key.name = some v := by
  have hempty : (Layer.read (absent path)).knownValues = ByteMap.empty := rfl
  rw [loadedValues_of_layer (layer_discovered _), loadedValues_of_layer (layer_discovered _),
    hempty, ByteMap.override_empty, Except.ok.injEq]
  exact ByteMap.override_eq_left_iff.trans Layer.find?_knownValues_iff

/-- **A broken configuration counts up to its fault.** A file of the user or of the project that
fails to load has the same part in the values that are loaded as the file that ends before the line
at fault, which is accepted. It is as good as no file exactly where its values do not show: those of
the user where the project has the same keys, those of the project where the user has the same
values. -/
theorem load_of_rejected (path : Bytes) {text : Bytes} {e : FormatError}
    (h : (parse text).error? = some e) :
    (parse (linesBefore e.line text)).error? = none ∧
      (∀ project, loadedValues ⟨path, .file text⟩ project =
        loadedValues ⟨path, .file (linesBefore e.line text)⟩ project) ∧
      (∀ user, loadedValues user (.discovered ⟨path, .file text⟩) =
        loadedValues user (.discovered ⟨path, .file (linesBefore e.line text)⟩)) ∧
      (∀ project, loadedValues ⟨path, .file text⟩ project = loadedValues (absent path) project ↔
        ∀ upper?, project.layer = .ok upper? →
          ∀ key : Key, (parse text).values.contains key.name = true →
            ∃ upper ∈ upper?, upper.values.contains key.name = true) ∧
      ∀ user, loadedValues user (.discovered ⟨path, .file text⟩) =
          loadedValues user (.discovered (absent path)) ↔
        ∀ (key : Key) (v : Value), (parse text).values.find? key.name = some v →
          (Layer.read user).values.find? key.name = some v := by
  have hknown := knownValues_read_of_error path h
  refine ⟨(parse_eq_of_error h).1, fun project => loadedValues_congr_user project hknown, ?_,
    loadedValues_user_eq_absent_iff path text,
    fun user => loadedValues_project_eq_absent_iff user path text⟩
  intro user
  rw [loadedValues_of_layer (layer_discovered _), loadedValues_of_layer (layer_discovered _),
    hknown]

/-- A setting, and then a line without an equals sign. -/
def brokenText : Bytes := bytes "[diag]\ncontext = 5\nbroken\n"

/-- The theorem at a text that is broken in its third line. -/
theorem load_of_rejected_sample :
    (parse brokenText).error? = some ⟨3, .noEquals⟩ ∧
      ∀ user, loadedValues user (.discovered ⟨projectFile, .file brokenText⟩) =
        loadedValues user (.discovered ⟨projectFile, .file (bytes "[diag]\ncontext = 5")⟩) := by
  have herror : (parse brokenText).error? = some ⟨3, .noEquals⟩ := by decide +kernel
  refine ⟨herror, ?_⟩
  have hbefore : linesBefore 3 brokenText = bytes "[diag]\ncontext = 5" := by decide +kernel
  rw [← hbefore]
  exact (load_of_rejected projectFile herror).2.2.1

/-- A file that fails to load is not as good as none: its first setting stays. -/
theorem broken_not_absent :
    (parse brokenText).error? = some ⟨3, .noEquals⟩ ∧
      loadedValues (absent []) (.discovered ⟨projectFile, .file brokenText⟩) ≠
        loadedValues (absent []) (.discovered (absent projectFile)) := by
  refine ⟨by decide +kernel, fun h => ?_⟩
  have hcontext := congrArg (Except.map (·.find? Key.context.name)) h
  revert hcontext
  decide +kernel

end Config

end SignatureLedger
