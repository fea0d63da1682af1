import JsOs.MachineWords

/-!
# The clock

The time stamp counter, its frequency as `CPUID` reports it, and the time since the boot. What
`platform_init` does to the floating-point unit and to the thread pointer has nothing to do with
the clock and is left out.
-/

namespace JsOs.ClockModel

open MachineWords

structure CpuidResult where
  eax : BitVec 32
  ebx : BitVec 32
  ecx : BitVec 32
  edx : BitVec 32
  deriving DecidableEq, Repr

/-- What the instruction gives for a leaf and a subleaf. -/
abbrev Cpuid := ℕ → ℕ → CpuidResult

structure ClockState where
  bootTsc : ℕ
  tscFrequency : ℕ
  bootEpoch : ℕ
  /-- The word behind the bootstrap thread pointer. -/
  stackGuard : ℕ
  deriving DecidableEq, Repr

/-- The instruction gives the counter in two halves. -/
def platformRdtsc (counter : BitVec 64) : ℕ :=
  let low := counter.toNat % 2 ^ 32
  let high := counter.toNat / 2 ^ 32
  high <<< 32 ||| low

def detectTscFrequency (platformCpuid : Cpuid) : ℕ :=
  let maximum := (platformCpuid 0 0).eax.toNat
  let ratio := platformCpuid 0x15 0
  let frequency := platformCpuid 0x16 0
  if maximum ≥ 0x15 ∧ ratio.eax ≠ 0 ∧ ratio.ebx ≠ 0 ∧ ratio.ecx ≠ 0 then
    mul64 ratio.ecx.toNat ratio.ebx.toNat / ratio.eax.toNat
  else if maximum ≥ 0x16 ∧ frequency.eax ≠ 0 then mul64 frequency.eax.toNat 1000000
  else 1000000000

/-- The counter is read for the stack guard, and again at the end. -/
def platformInit (platformCpuid : Cpuid) (guardCounter counter : BitVec 64)
    (bootEpochSeconds : ℕ) : ClockState :=
  let tscFrequency := detectTscFrequency platformCpuid
  { bootTsc := platformRdtsc counter
    tscFrequency := if tscFrequency = 0 then 1000000000 else tscFrequency
    bootEpoch := bootEpochSeconds
    stackGuard := platformRdtsc guardCounter ^^^ 0x9e3779b97f4a7c15 }

def platformUptimeUs (st : ClockState) (counter : BitVec 64) : ℕ :=
  let elapsed := sub64 (platformRdtsc counter) st.bootTsc
  let seconds := elapsed / st.tscFrequency
  let remainder := elapsed % st.tscFrequency
  add64 (mul64 seconds 1000000) (mul64 remainder 1000000 / st.tscFrequency)

end JsOs.ClockModel
