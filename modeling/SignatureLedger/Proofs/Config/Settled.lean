import SignatureLedger.Proofs.Config.Integers
import SignatureLedger.Proofs.Config.ReadBack
import Mathlib.Algebra.Group.Int.Defs

/-!
# Settings are valid and settled

Whatever a configuration and an environment hold, the settings that they come to are valid, and
settled: written as a configuration and chosen once more in the same environment, they come to
themselves (`choose_valid_settled`). A number in a variable is converted only where the conversion
cannot fail (`leadingNumber?_of_variableNumber?`).
-/

namespace SignatureLedger.Config

open Byte

/-! ## Numbers in variables -/

/-- Behind a number, digits lead to less than the next number with as many digits. -/
theorem valueFrom_lt {s : Bytes} (hs : ∀ b ∈ s, isDigit b = true) (v : Nat) :
    valueFrom v s < (v + 1) * 10 ^ s.length := by
  induction s generalizing v with
  | nil => simp
  | cons b s ih =>
    obtain ⟨hb, hs⟩ := List.forall_mem_cons.mp hs
    have hnine : digitValue b ≤ 9 := (toNat_digit hb).2
    calc valueFrom (10 * v + digitValue b) s
        < (10 * v + digitValue b + 1) * 10 ^ s.length := ih hs _
      _ ≤ (10 * (v + 1)) * 10 ^ s.length := Nat.mul_le_mul_right _ (by omega)
      _ = (v + 1) * 10 ^ (b :: s).length := by
        rw [List.length_cons, Nat.pow_succ', ← Nat.mul_assoc, Nat.mul_comm 10]

/-- A number of so many digits is below that power of ten. -/
theorem digitsValue_lt {s : Bytes} (hs : ∀ b ∈ s, isDigit b = true) :
    s.digitsValue < 10 ^ s.length :=
  (valueFrom_lt hs 0).trans_eq (by rw [Nat.zero_add, Nat.one_mul])

/-- The 64-bit number that a text starts with: digits as far as they go, behind blanks and a sign.
The conversion fails if there is no digit, and if the number is out of range. -/
def leadingNumber? (s : Bytes) : Option Int64 :=
  let t := s.dropWhile isSpace
  let digits : Bytes := (unsignedPart t).takeWhile isDigit
  let n : Int := if t.head? = some minus then -digits.digitsValue else digits.digitsValue
  if digits = [] ∨ n < -2 ^ 63 ∨ 2 ^ 63 ≤ n then none else some (Int64.ofInt n)

/-- A text of digits is converted as a whole. It has no blanks and no sign at its front, and its
number is in range. -/
theorem leadingNumber?_of_isDigit {s : Bytes} (hne : s ≠ []) (hs : ∀ b ∈ s, isDigit b = true)
    (h : s.digitsValue < 2 ^ 63) : leadingNumber? s = some (Int64.ofNat s.digitsValue) := by
  obtain ⟨b, t, rfl⟩ := List.exists_cons_of_ne_nil hne
  have hb : 0x30 ≤ b.toNat ∧ b.toNat ≤ 0x39 := by
    simpa [isDigit, UInt8.le_iff_toNat_le] using hs b List.mem_cons_self
  have hsign : b ≠ minus ∧ b ≠ plus := by
    constructor <;> rintro rfl <;> exact absurd hb (by decide)
  have hblank : ¬ isSpace b = true := by
    simp only [isSpace, Bool.or_eq_true, beq_iff_eq, Bool.and_eq_true, decide_eq_true_eq,
      ← UInt8.toNat_inj, UInt8.le_iff_toNat_le, UInt8.reduceToNat]
    omega
  have hdigits : (b :: t).takeWhile isDigit = b :: t := List.takeWhile_eq_self_iff.mpr hs
  rw [leadingNumber?, List.dropWhile_cons_of_neg hblank, unsignedPart,
    if_neg (not_or.mpr hsign), hdigits, List.head?_cons]
  have hminus : ¬ some b = some minus := by simpa using hsign.1
  have hrange : ¬ (b :: t = [] ∨ (Bytes.digitsValue (b :: t) : Int) < -2 ^ 63 ∨
      2 ^ 63 ≤ (Bytes.digitsValue (b :: t) : Int)) := by
    rintro (hnil | hlow | hhigh)
    · exact absurd hnil (by simp)
    · omega
    · omega
  rw [if_neg hminus, if_neg hrange]
  rfl

/-- **A number in a variable is converted without failure.** What passes the test of its length and
of its bytes is in range. -/
theorem leadingNumber?_of_variableNumber? {s : Bytes} {n : Int64} (hne : s ≠ [])
    (h : variableNumber? s = some n) :
    leadingNumber? s = some n ∧ n.toInt = s.digitsValue := by
  rw [variableNumber?] at h
  split at h
  · rename_i hs
    obtain rfl := Option.some.inj h
    have hdigits : ∀ b ∈ s, isDigit b = true := List.all_eq_true.mp hs.2
    have hlt : s.digitsValue < 2 ^ 63 :=
      calc s.digitsValue < 10 ^ s.length := digitsValue_lt hdigits
        _ ≤ 10 ^ 18 := Nat.pow_le_pow_right (by decide) hs.1
        _ < 2 ^ 63 := by decide
    exact ⟨leadingNumber?_of_isDigit hne hdigits hlt, Int64.toInt_ofNat_of_lt hlt⟩
  · exact absurd h (by simp)

/-- A variable that has a value has one that is not empty. -/
theorem Environment.ne_nil_of_value? {env : Environment} {name : String} {v : Bytes}
    (h : env.value? name = some v) : v ≠ [] := by
  have hv := (Option.filter_eq_some_iff.mp h).2
  rintro rfl
  exact absurd hv (by decide)

/-! ## Settled settings -/

/-- A number that is allowed is kept. -/
theorem atLeast_of_le {smallest default n : Int64} (h : smallest ≤ n) :
    atLeast smallest default n = n := by
  rw [atLeast, if_neg (Int64.not_lt.mpr h)]

/-- Names stand for themselves. -/
theorem nameAmong?_of_mem {names : List Bytes} (hlower : ∀ name ∈ names, name.toLower = name)
    {name : Bytes} (h : name ∈ names) : nameAmong? names name = some name := by
  rw [nameAmong?, hlower name h]
  cases hfind : names.find? (· == name) with
  | none => exact absurd (beq_self_eq_true name) (List.find?_eq_none.mp hfind name h)
  | some found =>
    have heq := @List.find?_some _ (· == name) found names hfind
    rw [beq_iff_eq.mp heq]

/-- The names of the policies are written in small letters. -/
theorem toLower_policyNames : ∀ name ∈ policyNames, name.toLower = name := by decide +kernel

/-- The names of the languages are written in small letters. -/
theorem toLower_languageNames : ∀ name ∈ languageNames, name.toLower = name := by decide +kernel

namespace Settings

/-- Settings with known names that keep to their bounds and agree with the environment. -/
structure Settled (env : Environment) (s : Settings) : Prop where
  policy : s.policy ∈ policyNames
  language : s.language ∈ languageNames
  jobs : 0 ≤ s.jobs
  context : 0 ≤ s.context
  maxErrors : 1 ≤ s.maxErrors
  language_eq : ∀ v, env.value? "SIGIL_DIAG_LANG" = some v → s.language = languageName v
  context_eq : ∀ n, chooseContext env = .ok (some n) → s.context = n
  ledger_eq : ∀ v, env.value? "SIGIL_LEDGER" = some v → s.ledger = v

variable {env : Environment} {s : Settings}

/-- The number of context lines in the environment is that of its variable. -/
theorem exists_of_chooseContext {n : Int64} (h : chooseContext env = .ok (some n)) :
    ∃ v, env.value? "SIGIL_DIAG_CONTEXT" = some v ∧ variableNumber? v = some n := by
  rw [chooseContext] at h
  cases hv : env.value? "SIGIL_DIAG_CONTEXT" with
  | none =>
    rw [hv] at h
    exact absurd h (by simp)
  | some v =>
    rw [hv] at h
    dsimp only at h
    cases hn : variableNumber? v with
    | none =>
      rw [hn] at h
      exact absurd h (by simp)
    | some m =>
      rw [hn] at h
      exact ⟨v, rfl, hn ▸ Option.some.inj (Except.ok.inj h) ▸ rfl⟩

/-- It is no negative number, so that the bound leaves it as it is. -/
theorem zero_le_of_chooseContext {n : Int64} (h : chooseContext env = .ok (some n)) : 0 ≤ n := by
  obtain ⟨v, hv, hn⟩ := exists_of_chooseContext h
  have htoInt := (leadingNumber?_of_variableNumber? (Environment.ne_nil_of_value? hv) hn).2
  exact Int64.le_iff_toInt_le.mpr (htoInt ▸ Int.natCast_nonneg _)

/-- **What is chosen is settled.** -/
theorem settled_choose (env : Environment) (values : Values) : Settled env (choose env values) where
  policy := policy_choose_mem env values
  language := languageName_mem _
  jobs := le_atLeast (by decide) _
  context := le_atLeast (by decide) _
  maxErrors := le_atLeast (by decide) _
  language_eq v hv := by
    rw [choose, hv]
    rfl
  context_eq n hn := by
    rw [choose, hn]
    exact atLeast_of_le (zero_le_of_chooseContext hn)
  ledger_eq v hv := by
    rw [choose, hv]
    rfl

/-- The values are those of the settings, key by key. -/
structure Carries (values : Values) (s : Settings) : Prop where
  policy : textAt? values .policy = some s.policy
  jobs : numberAt? values .jobs = some s.jobs
  language : textAt? values .language = some s.language
  context : numberAt? values .context = some s.context
  maxErrors : numberAt? values .maxErrors = some s.maxErrors
  ledger : textAt? values .ledger = some s.ledger

/-- The settings written as values carry the settings. -/
theorem carries_toValues (s : Settings) : Carries s.toValues s := ⟨rfl, rfl, rfl, rfl, rfl, rfl⟩

/-- The policy of settled settings is read as it is. -/
theorem Carries.choosePolicy_eq {values : Values} (h : Carries values s)
    (hpolicy : s.policy ∈ policyNames) : choosePolicy values = .ok s.policy := by
  rw [choosePolicy, h.policy]
  dsimp only [Option.getD_some]
  rw [nameAmong?_of_mem toLower_policyNames hpolicy]

/-- So is the language. -/
theorem languageName_of_mem {name : Bytes} (h : name ∈ languageNames) :
    languageName name = name := by
  rw [languageName, nameAmong?_of_mem toLower_languageNames h, Option.getD_some]

/-- **Settled settings come to themselves.** Each field is chosen as it was before, since the
environment, where it has a say, says the same. -/
theorem Settled.choose_eq {values : Values} (h : Settled env s) (hv : Carries values s) :
    choose env values = s := by
  have hpolicy : (choose env values).policy = s.policy := by
    rw [choose, hv.choosePolicy_eq h.policy]
    rfl
  have hjobs : (choose env values).jobs = s.jobs := by
    rw [choose, hv.jobs]
    exact atLeast_of_le h.jobs
  have hlanguage : (choose env values).language = s.language := by
    rw [choose, hv.language]
    cases hlang : env.value? "SIGIL_DIAG_LANG" with
    | none => exact languageName_of_mem h.language
    | some v => exact (h.language_eq v hlang).symm
  have hcontext : (choose env values).context = s.context := by
    rw [choose, hv.context]
    cases hn : chooseContext env with
    | error e => exact atLeast_of_le h.context
    | ok n? =>
      cases n? with
      | none => exact atLeast_of_le h.context
      | some n =>
        rw [h.context_eq n hn]
        exact atLeast_of_le (zero_le_of_chooseContext hn)
  have hmax : (choose env values).maxErrors = s.maxErrors := by
    rw [choose, hv.maxErrors]
    exact atLeast_of_le h.maxErrors
  have hledger : (choose env values).ledger = s.ledger := by
    rw [choose, hv.ledger]
    cases hpath : env.value? "SIGIL_LEDGER" with
    | none => rfl
    | some v => exact (h.ledger_eq v hpath).symm
  calc choose env values
      = ⟨(choose env values).policy, (choose env values).jobs, (choose env values).language,
          (choose env values).context, (choose env values).maxErrors,
          (choose env values).ledger⟩ := rfl
    _ = s := by rw [hpolicy, hjobs, hlanguage, hcontext, hmax, hledger]

/-! ## Remarks -/

/-- Of settings that are written as a configuration only the environment can be remarked on. -/
theorem warnings_toValues (env : Environment) (s : Settings) (hpolicy : s.policy ∈ policyNames)
    (values : Values) :
    warnings env s.toValues = (warnings env values).filter (· = .contextVariable) := by
  have htypes : Key.all.filter (hasWrongType s.toValues) = [] := rfl
  have hnone : ∀ keys : List Key,
      (keys.map SettingWarning.wrongType).filter (· = .contextVariable) = [] := by
    intro keys
    simp
  rw [warnings, warnings, htypes, (carries_toValues s).choosePolicy_eq hpolicy,
    List.filter_append, List.filter_append, hnone]
  cases choosePolicy values <;> cases chooseContext env <;> rfl

/-! ## Every configuration in every environment -/

/-- Values as settings have them: one for every key, of its type, and in its range. -/
structure AreValid (values : Values) : Prop where
  policy : ∃ name ∈ ["export-only", "all-top-level"],
    textAt? values .policy = some (bytes name)
  jobs : ∃ n, numberAt? values .jobs = some n ∧ 0 ≤ n.toInt
  language : ∃ name ∈ ["en", "ko", "auto"], textAt? values .language = some (bytes name)
  context : ∃ n, numberAt? values .context = some n ∧ 0 ≤ n.toInt
  maxErrors : ∃ n, numberAt? values .maxErrors = some n ∧ 1 ≤ n.toInt
  ledger : ∃ path, textAt? values .ledger = some path

/-- Values that carry settled settings are valid. -/
theorem Settled.areValid {values : Values} (h : Settled env s) (hv : Carries values s) :
    AreValid values where
  policy := by
    obtain ⟨name, hmem, hname⟩ :=
      (by decide : ∀ name ∈ policyNames, ∃ n ∈ ["export-only", "all-top-level"], name = bytes n)
        s.policy h.policy
    exact ⟨name, hmem, hname ▸ hv.policy⟩
  jobs := ⟨s.jobs, hv.jobs, Int64.le_iff_toInt_le.mp h.jobs⟩
  language := by
    obtain ⟨name, hmem, hname⟩ :=
      (by decide : ∀ name ∈ languageNames, ∃ n ∈ ["en", "ko", "auto"], name = bytes n)
        s.language h.language
    exact ⟨name, hmem, hname ▸ hv.language⟩
  context := ⟨s.context, hv.context, Int64.le_iff_toInt_le.mp h.context⟩
  maxErrors := ⟨s.maxErrors, hv.maxErrors, Int64.le_iff_toInt_le.mp h.maxErrors⟩
  ledger := ⟨s.ledger, hv.ledger⟩

/-- **Settings are valid and settled.** Whatever values a configuration has and whatever the
environment is, the settings that they come to have a known policy, a known language, and numbers
in their ranges. The variable for the context lines is converted only if it has at most 18 bytes,
all of them digits, and then the conversion does not fail; any other value of it is remarked on.
Written as a configuration, the settings come to themselves in the same environment, and no type
and no policy is remarked on. -/
theorem choose_valid_settled (env : Environment) (values : Values) :
    let s := choose env values
    AreValid s.toValues ∧
    (∀ v, env.value? "SIGIL_DIAG_CONTEXT" = some v →
      if v.length ≤ 18 ∧ v.all isDigit = true then leadingNumber? v = some s.context
      else .contextVariable ∈ warnings env values) ∧
    choose env s.toValues = s ∧
    warnings env s.toValues = (warnings env values).filter (· = .contextVariable) := by
  have hsettled := settled_choose env values
  have hcarries := carries_toValues (choose env values)
  refine ⟨hsettled.areValid hcarries, fun v hv => ?_, hsettled.choose_eq hcarries,
    warnings_toValues env _ hsettled.policy values⟩
  split
  · rename_i htest
    have hn : variableNumber? v = some (Int64.ofNat v.digitsValue) := if_pos htest
    have hcontext : chooseContext env = .ok (some (Int64.ofNat v.digitsValue)) := by
      rw [chooseContext, hv]
      dsimp only
      rw [hn]
    rw [hsettled.context_eq _ hcontext]
    exact (leadingNumber?_of_variableNumber? (Environment.ne_nil_of_value? hv) hn).1
  · rename_i htest
    have hcontext : chooseContext env = .error () := by
      rw [chooseContext, hv]
      dsimp only
      rw [variableNumber?, if_neg htest]
    rw [warnings, hcontext]
    simp

namespace SettledSample

/-- The largest number that is taken from a variable, and a language in capitals. -/
def shellVars : Environment := ByteMap.ofList [
  (bytes "SIGIL_DIAG_CONTEXT", bytes "999999999999999999"),
  (bytes "SIGIL_DIAG_LANG", bytes "KO")]

/-- Wrong types, an unknown policy, and numbers out of range. -/
def values : Values := ByteMap.ofList [
  (Key.policy.name, .text (bytes "Everything")), (Key.jobs.name, .number (-3)),
  (Key.language.name, .number 5), (Key.maxErrors.name, .number 0)]

end SettledSample

open SettledSample

/-- A long number in a variable is chosen as it is, and choosing once more changes nothing. -/
theorem choose_valid_settled_sample :
    shellVars.value? "SIGIL_DIAG_CONTEXT" = some (bytes "999999999999999999") ∧
    leadingNumber? (bytes "999999999999999999") = some (choose shellVars values).context ∧
    choose shellVars (choose shellVars values).toValues =
      ⟨bytes "export-only", 0, bytes "ko", 999999999999999999, 64, []⟩ ∧
    (warnings shellVars values).length = 2 ∧
    warnings shellVars (choose shellVars values).toValues = [] := by
  have hvariable :
      shellVars.value? "SIGIL_DIAG_CONTEXT" = some (bytes "999999999999999999") := by
    decide +kernel
  obtain ⟨-, hnumber, hchoose, hwarnings⟩ := choose_valid_settled shellVars values
  have hnumber := hnumber _ hvariable
  rw [if_pos (by decide +kernel)] at hnumber
  exact ⟨hvariable, hnumber, hchoose.trans (by decide +kernel), by decide +kernel,
    hwarnings.trans (by decide +kernel)⟩

end Settings

end SignatureLedger.Config
