import Rynex.Sched.Calls

/-! The conversions between times and timer ticks. Words of a timespec are 64-bit, and sums and
products wrap unless the source says otherwise. `sys_clock_gettime` counts 10 ms for a tick, as the
timer is programmed; three of the four conversions of a timeout count 20 ms. -/

namespace Rynex.Sched

def saturatingAdd (a b : Nat) : Nat := min (a + b) (2 ^ 64 - 1)

def saturatingMul (a b : Nat) : Nat := min (a * b) (2 ^ 64 - 1)

def negative (w : Nat) : Bool := 2 ^ 63 ≤ w

/-- The length of a tick in nanoseconds, as `sys_clock_gettime` has it. -/
def tickNs : Nat := 10000000

def clockNs (ticks : Nat) : Nat := ticks * tickNs % 2 ^ 64

/-- The seconds and nanoseconds that `sys_clock_gettime` stores. -/
def clockGettime (ticks : Nat) : Nat × Nat :=
  (clockNs ticks / 1000000000, clockNs ticks % 1000000000)

/-- The ticks of `sys_nanosleep`, which reads the first word of the timespec only. -/
def nanosleepTicks (sec _nsec : Nat) : Nat := (sec + 9999999) % 2 ^ 64 / 10000000

def totalNs (sec nsec : Nat) : Nat :=
  if negative sec || negative nsec then 0
  else saturatingAdd (saturatingMul sec 1000000000) nsec

/-- The ticks of `sys_clock_nanosleep`, and of the timeout of `futex_wait`. -/
def timespecTicks (sec nsec : Nat) : Nat := (totalNs sec nsec + 19999999) % 2 ^ 64 / 20000000

def futexDeadline (now sec nsec : Nat) : Nat := saturatingAdd now (timespecTicks sec nsec)

/-- The ticks of `sys_poll`, which does not wait at all for 0 milliseconds. -/
def pollTicks (timeout : Nat) : Nat := if timeout = 0 then 0 else max ((timeout + 19) / 20) 1

inductive Timeout where
  | nanosleep (sec nsec : Nat)
  | clockNanosleep (sec nsec : Nat)
  | futexWait (sec nsec : Nat)
  | poll (ms : Nat)

namespace Timeout

/-- The words are those of a time that is not negative. -/
def NonNegative : Timeout → Prop
  | nanosleep sec nsec | clockNanosleep sec nsec | futexWait sec nsec =>
    sec < 2 ^ 63 ∧ nsec < 2 ^ 63
  | poll ms => ms < 2 ^ 31

def ticks : Timeout → Nat
  | nanosleep sec nsec => nanosleepTicks sec nsec
  | clockNanosleep sec nsec | futexWait sec nsec => timespecTicks sec nsec
  | poll ms => pollTicks ms

def wakeupTick (now : Nat) : Timeout → Nat
  | nanosleep sec nsec => (now + nanosleepTicks sec nsec) % 2 ^ 64
  | clockNanosleep sec nsec => (now + timespecTicks sec nsec) % 2 ^ 64
  | futexWait sec nsec => futexDeadline now sec nsec
  | poll ms => (now + pollTicks ms) % 2 ^ 64

/-- The time asked for in nanoseconds, at most the largest that a word holds. -/
def requested : Timeout → Nat
  | nanosleep sec nsec | clockNanosleep sec nsec | futexWait sec nsec =>
    saturatingAdd (saturatingMul sec 1000000000) nsec
  | poll ms => ms * 1000000

/-- The times that the kernel waits long enough for. -/
def Short : Timeout → Prop
  | nanosleep sec nsec => sec = 0 ∧ nsec = 0
  | clockNanosleep sec nsec | futexWait sec nsec => sec * 1000000000 + nsec ≤ 10000000
  | poll ms => ms ≤ 10

instance : DecidablePred NonNegative
  | nanosleep _ _ | clockNanosleep _ _ | futexWait _ _ => inferInstanceAs (Decidable (_ ∧ _))
  | poll _ => inferInstanceAs (Decidable (_ < _))

instance : DecidablePred Short
  | nanosleep _ _ => inferInstanceAs (Decidable (_ ∧ _))
  | clockNanosleep _ _ | futexWait _ _ | poll _ => inferInstanceAs (Decidable (_ ≤ _))

end Timeout

theorem nanosleepTicks_covers_iff {sec nsec : Nat} (hsec : sec < 2 ^ 63) :
    saturatingAdd (saturatingMul sec 1000000000) nsec ≤ nanosleepTicks sec nsec * tickNs ↔
      sec = 0 ∧ nsec = 0 := by
  simp only [saturatingAdd, saturatingMul, nanosleepTicks, tickNs]
  omega

theorem timespecTicks_covers_iff {sec nsec : Nat} (hsec : sec < 2 ^ 63) (hnsec : nsec < 2 ^ 63) :
    saturatingAdd (saturatingMul sec 1000000000) nsec ≤ timespecTicks sec nsec * tickNs ↔
      sec * 1000000000 + nsec ≤ 10000000 := by
  have hneg : (negative sec || negative nsec) = false := by
    simp only [negative, Bool.or_eq_false_iff, decide_eq_false_iff_not]
    omega
  simp only [timespecTicks, totalNs, hneg, Bool.false_eq_true, if_false, saturatingAdd,
    saturatingMul, tickNs]
  omega

theorem pollTicks_covers_iff {ms : Nat} :
    ms * 1000000 ≤ pollTicks ms * tickNs ↔ ms ≤ 10 := by
  simp only [pollTicks, tickNs]
  split <;> omega

theorem Timeout.wakeupTick_eq {w : Timeout} {now : Nat} (h : now + w.ticks < 2 ^ 64) :
    w.wakeupTick now = now + w.ticks := by
  cases w with
  | nanosleep | clockNanosleep | poll => exact Nat.mod_eq_of_lt h
  | futexWait sec nsec => exact min_eq_left (Nat.le_sub_one_of_lt h)

theorem Timeout.elapsed {w : Timeout} {now t : Nat} (hnow : now + w.ticks < 2 ^ 64)
    (hwake : w.wakeupTick now ≤ t) (ht : t * tickNs < 2 ^ 64) :
    w.ticks * tickNs ≤ clockNs t - clockNs now := by
  rw [w.wakeupTick_eq hnow] at hwake
  have hmul : (now + w.ticks) * tickNs ≤ t * tickNs := Nat.mul_le_mul_right _ hwake
  rw [Nat.add_mul] at hmul
  rw [clockNs, clockNs, Nat.mod_eq_of_lt ht, Nat.mod_eq_of_lt (by omega)]
  omega

/-- The ticks that a call waits cover the time asked for, by the clock that programs read, exactly
for the short times; after a short wait the clock shows that it was long enough. -/
theorem Timeout.covers_iff_short (w : Timeout) (h : w.NonNegative) :
    (w.requested ≤ w.ticks * tickNs ↔ w.Short) ∧
      (w.Short → ∀ now t, now + w.ticks < 2 ^ 64 → w.wakeupTick now ≤ t → t * tickNs < 2 ^ 64 →
        w.requested ≤ clockNs t - clockNs now) := by
  have hcovers : w.requested ≤ w.ticks * tickNs ↔ w.Short := by
    cases w with
    | nanosleep sec nsec => exact nanosleepTicks_covers_iff h.1
    | clockNanosleep sec nsec => exact timespecTicks_covers_iff h.1 h.2
    | futexWait sec nsec => exact timespecTicks_covers_iff h.1 h.2
    | poll ms => exact pollTicks_covers_iff
  exact ⟨hcovers, fun hshort _ _ hnow hwake ht =>
    (hcovers.mpr hshort).trans (Timeout.elapsed hnow hwake ht)⟩

theorem Timeout.covers_iff_short_poll : (Timeout.poll 10).NonNegative ∧
    (Timeout.poll 10).requested ≤ (Timeout.poll 10).ticks * tickNs :=
  ⟨by decide, (Timeout.covers_iff_short (.poll 10) (by decide)).1.mpr (by decide)⟩

/-- A sleep of one second ends after one tick, and the clock then shows 10 ms. -/
theorem Timeout.sleeps_end_early : (Timeout.nanosleep 1 0).NonNegative ∧
    ¬ (Timeout.nanosleep 1 0).requested ≤ (Timeout.nanosleep 1 0).ticks * tickNs ∧
    clockGettime (Timeout.nanosleep 1 0).ticks = (0, 10000000) ∧
    (Timeout.clockNanosleep 1 0).requested = 1000000000 ∧
    clockGettime (Timeout.clockNanosleep 1 0).ticks = (0, 500000000) ∧
    (Timeout.poll 1000).requested = 1000000000 ∧
    clockGettime (Timeout.poll 1000).ticks = (0, 500000000) := by
  decide

end Rynex.Sched
