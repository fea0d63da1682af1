import JsOs.ExactClock

/-!
# Sleeping and the time of day

`platform_sleep_ms` reads the counter until a deadline has come, and what it finds there is a
parameter. The deadline is a number of whole microseconds, so a rounded start makes the sleep
shorter, but by less than one of them.
-/

namespace JsOs.TimeKeeping

open MachineWords ClockModel ExactClock

section Functions

variable (st : ClockState)

def platformUnixUs (counter : BitVec 64) : ℕ :=
  add64 (mul64 st.bootEpoch 1000000) (platformUptimeUs st counter)

/-- The loop of `platform_sleep_ms`, with the counter as each round reads it; the result is what is
read later. -/
def waitUntil (deadline : ℕ) : List (BitVec 64) → Option (List (BitVec 64))
  | [] => none
  | counter :: later =>
    if platformUptimeUs st counter < deadline then waitUntil deadline later else some later

def platformSleepMs (milliseconds : ℕ) : List (BitVec 64) → Option (List (BitVec 64))
  | [] => none
  | counter :: later =>
    waitUntil st (add64 (platformUptimeUs st counter) (mul64 milliseconds 1000)) later

structure Timeval where
  tvSec : ℤ
  tvUsec : ℤ
  deriving DecidableEq, Repr

/-- No pointer for the result is `none`. -/
def gettimeofday (counter : BitVec 64) (timeValue : Option Timeval) : ℤ × Option Timeval :=
  match timeValue with
  | none => (-1, none)
  | some _ =>
    let microseconds := platformUnixUs st counter
    (0, some ⟨toInt64 (microseconds / 1000000), toInt64 (microseconds % 1000000)⟩)

end Functions

section Waiting

variable {st : ClockState} {deadline : ℕ} {later rest : List (BitVec 64)}

/-- A wait ends with the first reading that is not before the deadline. -/
theorem waitUntil_eq_some_iff : waitUntil st deadline later = some rest ↔
    ∃ early c, later = early ++ c :: rest ∧ deadline ≤ platformUptimeUs st c ∧
      ∀ e ∈ early, platformUptimeUs st e < deadline := by
  induction later with
  | nil => simp [waitUntil]
  | cons counter later ih =>
    unfold waitUntil
    by_cases h : platformUptimeUs st counter < deadline
    · rw [if_pos h, ih]
      constructor
      · rintro ⟨early, c, rfl, hc, hearly⟩
        refine ⟨counter :: early, c, rfl, hc, fun e he => ?_⟩
        rcases List.mem_cons.mp he with rfl | he
        · exact h
        · exact hearly e he
      · rintro ⟨early, c, heq, hc, hearly⟩
        cases early with
        | nil =>
          obtain ⟨rfl, rfl⟩ := List.cons.inj heq
          exact absurd h (Nat.not_lt.mpr hc)
        | cons e early =>
          obtain ⟨rfl, rfl⟩ := List.cons.inj heq
          exact ⟨early, c, rfl, hc, fun e he => hearly e (List.mem_cons_of_mem _ he)⟩
    · rw [if_neg h]
      constructor
      · rintro heq
        cases heq
        exact ⟨[], counter, rfl, Nat.not_lt.mp h, fun e he => absurd he List.not_mem_nil⟩
      · rintro ⟨early, c, heq, hc, hearly⟩
        cases early with
        | nil => rw [(List.cons.inj heq).2]
        | cons e early =>
          obtain ⟨rfl, rfl⟩ := List.cons.inj heq
          exact absurd (hearly _ List.mem_cons_self) h

theorem waitUntil_isSome (h : ∃ c ∈ later, deadline ≤ platformUptimeUs st c) :
    ∃ rest, waitUntil st deadline later = some rest := by
  induction later with
  | nil =>
    obtain ⟨c, hc, -⟩ := h
    exact absurd hc List.not_mem_nil
  | cons counter later ih =>
    unfold waitUntil
    by_cases hearly : platformUptimeUs st counter < deadline
    · rw [if_pos hearly]
      obtain ⟨c, hc, hdeadline⟩ := h
      rcases List.mem_cons.mp hc with rfl | hc
      · exact absurd hearly (Nat.not_lt.mpr hdeadline)
      · exact ih ⟨c, hc, hdeadline⟩
    · exact ⟨later, if_neg hearly⟩

end Waiting

section Rounding

variable {a b f n : ℕ}

/-- Between two times that are rounded down there is not less than between the times, up to one
unit. -/
theorem lt_of_div_lt (hf : 0 < f) (h : a / f < b / f + n) : a < b + n * f := by
  have hle : (b / f + n) * f ≤ b + n * f := by
    rw [Nat.add_mul]
    exact Nat.add_le_add_right (Nat.div_mul_le_self b f) _
  exact ((Nat.div_lt_iff_lt_mul hf).mp h).trans_le hle

theorem lt_of_le_div (hf : 0 < f) (h : b / f + n ≤ a / f) : b + n * f < a + f := by
  have hle : (b / f + n) * f ≤ a := (Nat.le_div_iff_mul_le hf).mp h
  have hlt : b < (b / f + 1) * f := Nat.lt_mul_of_div_lt (Nat.lt_succ_self _) hf
  rw [Nat.add_mul] at hle hlt
  omega

theorem le_div_of_le (hf : 0 < f) (h : b + n * f ≤ a) : b / f + n ≤ a / f := by
  rw [← Nat.add_mul_div_right b n hf]
  exact Nat.div_le_div_right h

end Rounding

section Clock

variable {st : ClockState} {start : BitVec 64} {later : List (BitVec 64)} {milliseconds : ℕ}
  (hlow : 1000000 ≤ st.tscFrequency) (hhigh : st.tscFrequency * 1000000 ≤ 2 ^ 64)
  (hboot : st.bootTsc ≤ start.toNat)
include hlow hhigh hboot

/-- With a counter that does not go back and a deadline that a 64-bit number can hold, a sleep ends
at a reading more than the milliseconds less one microsecond after the start, and all readings
before that one are less than the milliseconds after it; it does end if any reading is so late. -/
theorem sleep_exact (hlater : ∀ c ∈ later, start.toNat ≤ c.toNat)
    (hdeadline : platformUptimeUs st start + milliseconds * 1000 < 2 ^ 64) :
    (∀ rest, platformSleepMs st milliseconds (start :: later) = some rest →
      ∃ early c, later = early ++ c :: rest ∧
        milliseconds * 1000 * st.tscFrequency <
          (c.toNat - start.toNat) * 1000000 + st.tscFrequency ∧
        ∀ e ∈ early, (e.toNat - start.toNat) * 1000000 <
          milliseconds * 1000 * st.tscFrequency) ∧
    ((∃ c ∈ later, milliseconds * 1000 * st.tscFrequency ≤ (c.toNat - start.toNat) * 1000000) →
      ∃ rest, platformSleepMs st milliseconds (start :: later) = some rest) := by
  have hf : 0 < st.tscFrequency := Nat.lt_of_lt_of_le (by decide) hlow
  have huptime (c : BitVec 64) (h : start.toNat ≤ c.toNat) : platformUptimeUs st c =
      (c.toNat - st.bootTsc) * 1000000 / st.tscFrequency :=
    platformUptimeUs_eq (noOverflow_of_frequency hlow hhigh (hboot.trans h))
  have hstart := huptime start le_rfl
  have hsplit (c : BitVec 64) (h : start.toNat ≤ c.toNat) : (c.toNat - st.bootTsc) * 1000000 =
      (start.toNat - st.bootTsc) * 1000000 + (c.toNat - start.toNat) * 1000000 := by omega
  have hsleep : platformSleepMs st milliseconds (start :: later) =
      waitUntil st (platformUptimeUs st start + milliseconds * 1000) later := by
    rw [platformSleepMs, mul64_eq (by omega), add64_eq hdeadline]
  constructor
  · intro rest hrest
    rw [hsleep, waitUntil_eq_some_iff] at hrest
    obtain ⟨early, c, rfl, hc, hearly⟩ := hrest
    refine ⟨early, c, rfl, ?_, fun e he => ?_⟩
    · have hle := hlater c (List.mem_append_right _ List.mem_cons_self)
      rw [hstart, huptime c hle] at hc
      have hlt := lt_of_le_div hf hc
      rw [hsplit c hle, Nat.add_assoc] at hlt
      exact Nat.lt_of_add_lt_add_left hlt
    · have hle := hlater e (List.mem_append_left _ he)
      have hlt := hearly e he
      rw [hstart, huptime e hle] at hlt
      have hlt' := lt_of_div_lt hf hlt
      rw [hsplit e hle] at hlt'
      exact Nat.lt_of_add_lt_add_left hlt'
  · rintro ⟨c, hc, hlate⟩
    rw [hsleep]
    have hle := hlater c hc
    refine waitUntil_isSome ⟨c, hc, ?_⟩
    rw [hstart, huptime c hle]
    apply le_div_of_le hf
    rw [hsplit c hle]
    exact Nat.add_le_add_left hlate _

end Clock

/-- Two thousand and five hundred ticks in a microsecond. -/
def quickClock : ClockState := ⟨7, 2500000000, 1700000000, 0⟩

/-- A reading just before the end of a millisecond that begins at 10, and two after it. -/
def quickReadings : List (BitVec 64) := [2500000, 2500011, 2500020]

theorem sleep_exact_quickClock :
    (∀ rest, platformSleepMs quickClock 1 (10 :: quickReadings) = some rest →
      ∃ early c, quickReadings = early ++ c :: rest ∧
        1 * 1000 * quickClock.tscFrequency <
          (c.toNat - (10 : BitVec 64).toNat) * 1000000 + quickClock.tscFrequency ∧
        ∀ e ∈ early, (e.toNat - (10 : BitVec 64).toNat) * 1000000 <
          1 * 1000 * quickClock.tscFrequency) ∧
    ((∃ c ∈ quickReadings,
        1 * 1000 * quickClock.tscFrequency ≤ (c.toNat - (10 : BitVec 64).toNat) * 1000000) →
      ∃ rest, platformSleepMs quickClock 1 (10 :: quickReadings) = some rest) :=
  sleep_exact (by decide) (by decide) (by decide) (by simp [quickReadings]) (by decide)

section TimeOfDay

variable {st : ClockState} {start counter : BitVec 64}

/-- The two fields are those of one number of microseconds, and later readings give no earlier
time. -/
theorem gettimeofday_exact (hlow : 1000000 ≤ st.tscFrequency)
    (hhigh : st.tscFrequency * 1000000 ≤ 2 ^ 64) (hboot : st.bootTsc ≤ start.toNat)
    (hcounter : start.toNat ≤ counter.toNat)
    (hfits : st.bootEpoch * 1000000 + platformUptimeUs st counter < 2 ^ 64) (old : Timeval) :
    ∃ first second : Timeval, gettimeofday st start (some old) = (0, some first) ∧
      gettimeofday st counter (some old) = (0, some second) ∧
      0 ≤ second.tvUsec ∧ second.tvUsec < 1000000 ∧
      second.tvSec * 1000000 + second.tvUsec = (st.bootEpoch * 1000000 +
        (counter.toNat - st.bootTsc) * 1000000 / st.tscFrequency : ℕ) ∧
      (first.tvSec < second.tvSec ∨
        first.tvSec = second.tvSec ∧ first.tvUsec ≤ second.tvUsec) := by
  have hno := noOverflow_of_frequency hlow hhigh (hboot.trans hcounter)
  have hmono := platformUptimeUs_mono (noOverflow_of_frequency hlow hhigh hboot) hno hcounter
  have hunix (c : BitVec 64) (h : platformUptimeUs st c ≤ platformUptimeUs st counter) :
      platformUnixUs st c = st.bootEpoch * 1000000 + platformUptimeUs st c := by
    have hsum := (Nat.add_le_add_left h (st.bootEpoch * 1000000)).trans_lt hfits
    rw [platformUnixUs, mul64_eq ((Nat.le_add_right _ _).trans_lt hsum), add64_eq hsum]
  unfold gettimeofday
  dsimp only
  rw [hunix start hmono, hunix counter le_rfl, toInt64_eq (by omega), toInt64_eq (by omega),
    toInt64_eq (by omega), toInt64_eq (by omega), ← platformUptimeUs_eq hno]
  refine ⟨_, _, rfl, rfl, ?_⟩
  dsimp only
  omega

end TimeOfDay

end JsOs.TimeKeeping
