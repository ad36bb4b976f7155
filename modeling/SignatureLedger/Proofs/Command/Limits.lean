import SignatureLedger.Command.Report
import SignatureLedger.Proofs.Config.Settled

/-!
# Limits on their way to the analysis

The settings have 64-bit numbers without an upper bound, and a plan has 32-bit words. On the way
from one to the other the numbers are cut, so a limit reaches the analysis as it is shown exactly if
it fits 32 bits (`limits_iff`).
-/

namespace SignatureLedger.Command

open Config (Environment Values Settings)

/-- What is left of a 64-bit number that is cut to 32 bits. -/
theorem toNat_cut (n : Int64) : (n.toUInt64.toUInt32.toNat : Int) = n.toInt % 2 ^ 32 := by
  have hint : n.toInt = if 2 * n.toBitVec.toNat < 2 ^ 64 then (n.toBitVec.toNat : Int)
      else (n.toBitVec.toNat : Int) - (2 ^ 64 : Nat) := by
    rw [← Int64.toInt_toBitVec, BitVec.toInt_eq_toNat_cond]
  have hnat : n.toUInt64.toNat = n.toBitVec.toNat := rfl
  rw [UInt64.toNat_toUInt32, hnat, hint]
  split <;> omega

/-- A number that is not negative survives the cut exactly if it fits. -/
theorem toNat_cut_eq_iff {n : Int64} (h : 0 ≤ n.toInt) :
    (n.toUInt64.toUInt32.toNat : Int) = n.toInt ↔ n.toInt < 2 ^ 32 := by
  rw [toNat_cut]
  constructor
  · intro heq
    rw [← heq]
    exact Int.emod_lt_of_pos _ (by decide)
  · exact Int.emod_eq_of_lt h

/-- **A limit reaches the analysis exactly if it fits 32 bits.** For every configuration and every
environment, and without an option for the context lines, what the analysis has as its limit of
errors and as its number of context lines is what is left of the setting when it is cut to 32 bits.
It is the setting itself, as it is shown, if and only if that is less than `2 ^ 32`. -/
theorem limits_iff (env : Environment) (values : Values) (r : AnalysisRequest)
    (h : r.context? = none) :
    let s := Settings.choose env values
    let plan := Plan.of env s r
    ((plan.options.maxErrors.toNat : Int) = s.maxErrors.toInt % 2 ^ 32 ∧
      ((plan.options.maxErrors.toNat : Int) = s.maxErrors.toInt ↔ s.maxErrors.toInt < 2 ^ 32)) ∧
    ((plan.context.toNat : Int) = s.context.toInt % 2 ^ 32 ∧
      ((plan.context.toNat : Int) = s.context.toInt ↔ s.context.toInt < 2 ^ 32)) := by
  intro s plan
  obtain ⟨hcontext, hmax, -⟩ := Settings.zero_le_choose env values
  have hplan : plan.context = s.context.toUInt64.toUInt32 := by
    show r.context?.getD _ = _
    rw [h]
    rfl
  rw [hplan]
  exact ⟨⟨toNat_cut _, toNat_cut_eq_iff hmax⟩, toNat_cut _, toNat_cut_eq_iff hcontext⟩

namespace LimitsSample

/-- The largest limit of errors that fits, and a number of context lines that does not. -/
def values : Values := ByteMap.ofList [
  (Config.Key.maxErrors.name, .number 0xFFFFFFFF), (Config.Key.context.name, .number 0x100000002)]

/-- The request of the samples. -/
def request : AnalysisRequest where
  files := [bytes "a.ts"]

end LimitsSample

open LimitsSample

/-- At the greatest limits that fit, settings and plan agree. -/
theorem limits_iff_sample :
    request.context? = none ∧
      (Plan.of ByteMap.empty (Settings.choose ByteMap.empty values) request).options.maxErrors =
        0xFFFFFFFF ∧
      (Plan.of ByteMap.empty (Settings.choose ByteMap.empty values) request).context = 2 := by
  obtain ⟨⟨-, hmax⟩, hcontext, -⟩ := limits_iff ByteMap.empty values request rfl
  refine ⟨rfl, UInt32.toNat_inj.mp ?_, UInt32.toNat_inj.mp ?_⟩
  · exact Int.ofNat.inj ((hmax.mpr (by decide +kernel)).trans (by decide +kernel))
  · exact Int.ofNat.inj (hcontext.trans (by decide +kernel))

/-- A limit of `2 ^ 32` errors is shown as it is, and the analysis has zero in its place; with the
same number of context lines from the environment it is the same. -/
theorem not_limits_wrapped :
    let tooMany : Values := ByteMap.ofList [(Config.Key.maxErrors.name, .number 0x100000000)]
    let env : Environment := ByteMap.ofList [(bytes "SIGIL_DIAG_CONTEXT", bytes "4294967296")]
    let s := Settings.choose env tooMany
    let plan := Plan.of env s request
    (s.maxErrors.toInt = 2 ^ 32 ∧ (plan.options.maxErrors.toNat : Int) ≠ s.maxErrors.toInt) ∧
      (s.context.toInt = 2 ^ 32 ∧ (plan.context.toNat : Int) ≠ s.context.toInt) := by
  decide +kernel

end SignatureLedger.Command
