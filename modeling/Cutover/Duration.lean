/-!
# Durations

Durations are kept to the nanosecond. Timers run in milliseconds, and durations are written in
milliseconds of 64 bits.
-/

namespace Cutover

structure Duration where
  nanos : Nat
  deriving DecidableEq, Repr, Inhabited

namespace Duration

def ofMillis (ms : Nat) : Duration := ⟨ms * 1000000⟩

def ofSecondsNanos (seconds nanos : Nat) : Duration := ⟨seconds * 1000000000 + nanos⟩

def isZero (d : Duration) : Bool := d.nanos == 0

def millis (d : Duration) : Nat := d.nanos / 1000000

/-- The number that a duration is written as: its whole milliseconds, cut to 64 bits. -/
def written (d : Duration) : Nat := d.millis % UInt64.size

/-- How many milliseconds a timer for the duration runs: a part of one counts as one. -/
def ticks (d : Duration) : Nat := (d.nanos + 999999) / 1000000

@[simp] theorem millis_ofMillis (ms : Nat) : (ofMillis ms).millis = ms := by
  simp [millis, ofMillis]

@[simp] theorem ticks_ofMillis (ms : Nat) : (ofMillis ms).ticks = ms := by
  simp only [ticks, ofMillis]; omega

theorem written_ofMillis {ms : Nat} (h : ms < UInt64.size) : (ofMillis ms).written = ms := by
  rw [written, millis_ofMillis]
  exact Nat.mod_eq_of_lt h

theorem isZero_ofMillis (ms : Nat) : (ofMillis ms).isZero = (ms == 0) := by
  rw [Bool.eq_iff_iff]
  simp only [isZero, ofMillis, beq_iff_eq]
  omega

end Duration

end Cutover
