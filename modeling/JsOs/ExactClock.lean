import JsOs.ClockModel
import Mathlib.Tactic.Ring

/-!
# The clock is exact

The product of the elapsed ticks with a million does not fit in 64 bits, so whole seconds and the
rest are scaled apart. The sum is the quotient rounded down nevertheless.
-/

namespace JsOs.ExactClock

open MachineWords ClockModel

section Scaling

variable {e f c : ℕ}

/-- To scale whole periods and the rest apart loses nothing. -/
theorem scale_split (hf : 0 < f) : e / f * c + e % f * c / f = e * c / f := by
  have hsplit : e * c = f * (e / f * c) + e % f * c :=
    calc e * c = (f * (e / f) + e % f) * c := by rw [Nat.div_add_mod]
      _ = f * (e / f * c) + e % f * c := by ring
  rw [hsplit, Nat.mul_add_div hf]

theorem scale_rest_lt (hf : 0 < f) (hc : 0 < c) : e % f * c < f * c :=
  Nat.mul_lt_mul_of_pos_right (Nat.mod_lt e hf) hc

/-- No number grows if the new rate is not above the old one. -/
theorem scale_le (hc : c ≤ f) : e * c / f ≤ e :=
  Nat.div_le_of_le_mul (by rw [Nat.mul_comm f]; exact Nat.mul_le_mul_left e hc)

end Scaling

theorem platformRdtsc_eq (counter : BitVec 64) : platformRdtsc counter = counter.toNat := by
  unfold platformRdtsc
  dsimp only
  rw [← Nat.shiftLeft_add_eq_or_of_lt (Nat.mod_lt _ (by decide)), Nat.shiftLeft_eq,
    Nat.mul_comm, Nat.div_add_mod]

/-- Every operation of `platform_uptime_us` gives the number that it gives without bounds. -/
structure NoOverflow (st : ClockState) (counter : BitVec 64) : Prop where
  frequency_pos : 0 < st.tscFrequency
  boot_le : st.bootTsc ≤ counter.toNat
  seconds_lt : (counter.toNat - st.bootTsc) / st.tscFrequency * 1000000 < 2 ^ 64
  remainder_lt : (counter.toNat - st.bootTsc) % st.tscFrequency * 1000000 < 2 ^ 64
  sum_lt : (counter.toNat - st.bootTsc) / st.tscFrequency * 1000000 +
    (counter.toNat - st.bootTsc) % st.tscFrequency * 1000000 / st.tscFrequency < 2 ^ 64

section Uptime

variable {st : ClockState} {counter later : BitVec 64}

theorem platformUptimeUs_eq (h : NoOverflow st counter) : platformUptimeUs st counter =
    (counter.toNat - st.bootTsc) * 1000000 / st.tscFrequency := by
  unfold platformUptimeUs
  dsimp only
  rw [platformRdtsc_eq, sub64_eq h.boot_le counter.isLt, mul64_eq h.seconds_lt,
    mul64_eq h.remainder_lt, add64_eq h.sum_lt, scale_split h.frequency_pos]

/-- The bounds on the frequency are the bounds of the two products. -/
theorem noOverflow_of_frequency (hlow : 1000000 ≤ st.tscFrequency)
    (hhigh : st.tscFrequency * 1000000 ≤ 2 ^ 64) (h : st.bootTsc ≤ counter.toNat) :
    NoOverflow st counter := by
  have hpos : 0 < st.tscFrequency := Nat.lt_of_lt_of_le (by decide) hlow
  have hsum : (counter.toNat - st.bootTsc) / st.tscFrequency * 1000000 +
      (counter.toNat - st.bootTsc) % st.tscFrequency * 1000000 / st.tscFrequency < 2 ^ 64 := by
    rw [scale_split hpos]
    exact (scale_le hlow).trans_lt ((Nat.sub_le _ _).trans_lt counter.isLt)
  exact
    { frequency_pos := hpos
      boot_le := h
      seconds_lt := (Nat.le_add_right _ _).trans_lt hsum
      remainder_lt := (scale_rest_lt hpos (by decide)).trans_le hhigh
      sum_lt := hsum }

theorem platformUptimeUs_mono (h : NoOverflow st counter) (h' : NoOverflow st later)
    (hle : counter.toNat ≤ later.toNat) :
    platformUptimeUs st counter ≤ platformUptimeUs st later := by
  rw [platformUptimeUs_eq h, platformUptimeUs_eq h']
  exact Nat.div_le_div_right (Nat.mul_le_mul_right _ (Nat.sub_le_sub_right hle _))

end Uptime

/-- As long as the counter has not wrapped, the clock shows the elapsed microseconds rounded down,
no operation overflows, and the clock never goes back. -/
theorem uptime_exact (cpuid : Cpuid) (guardCounter boot : BitVec 64) (epoch : ℕ)
    (hlow : 1000000 ≤ detectTscFrequency cpuid)
    (hhigh : detectTscFrequency cpuid * 1000000 ≤ 2 ^ 64) (counter : BitVec 64)
    (h : boot.toNat ≤ counter.toNat) :
    platformUptimeUs (platformInit cpuid guardCounter boot epoch) counter =
        (counter.toNat - boot.toNat) * 1000000 / detectTscFrequency cpuid ∧
      NoOverflow (platformInit cpuid guardCounter boot epoch) counter ∧
      ∀ later : BitVec 64, counter.toNat ≤ later.toNat →
        platformUptimeUs (platformInit cpuid guardCounter boot epoch) counter ≤
          platformUptimeUs (platformInit cpuid guardCounter boot epoch) later := by
  have hfrequency : (platformInit cpuid guardCounter boot epoch).tscFrequency =
      detectTscFrequency cpuid := if_neg (by omega)
  have hboot : (platformInit cpuid guardCounter boot epoch).bootTsc = boot.toNat :=
    platformRdtsc_eq boot
  have hno (counter : BitVec 64) (h : boot.toNat ≤ counter.toNat) :
      NoOverflow (platformInit cpuid guardCounter boot epoch) counter := by
    apply noOverflow_of_frequency
    · rwa [hfrequency]
    · rwa [hfrequency]
    · rwa [hboot]
  refine ⟨?_, hno counter h, fun later hlater => ?_⟩
  · rw [platformUptimeUs_eq (hno counter h), hfrequency, hboot]
  · exact platformUptimeUs_mono (hno counter h) (hno later (h.trans hlater)) hlater

/-- A processor that knows its base frequency only. -/
def baseFrequency (megahertz : BitVec 32) : Cpuid := fun leaf _ =>
  if leaf = 0 then ⟨0x16, 0, 0, 0⟩
  else if leaf = 0x16 then ⟨megahertz, 0, 0, 0⟩
  else ⟨0, 0, 0, 0⟩

/-- Three ticks after a second at 2500 MHz. -/
theorem uptime_exact_second :
    platformUptimeUs (platformInit (baseFrequency 2500) 5 7 0) 2500000010 =
        ((2500000010 : BitVec 64).toNat - (7 : BitVec 64).toNat) * 1000000 /
          detectTscFrequency (baseFrequency 2500) ∧
      NoOverflow (platformInit (baseFrequency 2500) 5 7 0) 2500000010 ∧
      ∀ later : BitVec 64, (2500000010 : BitVec 64).toNat ≤ later.toNat →
        platformUptimeUs (platformInit (baseFrequency 2500) 5 7 0) 2500000010 ≤
          platformUptimeUs (platformInit (baseFrequency 2500) 5 7 0) later :=
  uptime_exact (baseFrequency 2500) 5 7 0 (by decide) (by decide) 2500000010 (by decide)

end JsOs.ExactClock
