/-!
# Clocks

A clock is read in milliseconds. `SteppingClock` is the deterministic one: every reading is
one step after the reading before it, counted modulo `2 ^ 64`.
-/

namespace ConfigLedger

/-- A clock that moves by one step at every reading. -/
structure SteppingClock where
  /-- The next reading. -/
  next : UInt64
  step : UInt64

namespace SteppingClock

/-- A reading, and the clock after it. -/
def read (c : SteppingClock) : UInt64 × SteppingClock :=
  (c.next, { c with next := c.next + c.step })

/-- The next `count` readings. -/
def readings (c : SteppingClock) : Nat → List UInt64
  | 0 => []
  | count + 1 => c.read.1 :: c.read.2.readings count

end SteppingClock

end ConfigLedger
