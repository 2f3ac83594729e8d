import PagedKernel.Halt

/-!
# The timer

The timer counts down once for every instruction that is attempted and fires at zero, after which it
starts over with its quantum. Traps do not touch the count, so a program that traps often does not
get more than its share. The kernel acknowledges each interrupt.

Key definitions: `Timer`, `Timer.ofRate`, `Timer.tick`.
-/

namespace PagedKernel

/-- The instructions the machine attempts in a second. -/
def instructionsPerSecond : Nat := 100000

structure Timer where
  /-- The instructions between two interrupts. -/
  quantum : Nat
  /-- The instructions left before the next one. -/
  count : Nat
  /-- The interrupts acknowledged so far. -/
  acked : Nat
deriving DecidableEq, Inhabited

namespace Timer

/-- A timer that fires `rate` times a second. -/
def ofRate (rate : Nat) : Except Halt Timer :=
  if 0 < rate ∧ rate ≤ instructionsPerSecond then
    let quantum := instructionsPerSecond / rate
    .ok ⟨quantum, quantum, 0⟩
  else .error .assertion

/-- Count down by one. True if the timer fires. -/
def tick (t : Timer) : Bool × Timer :=
  if t.count = 0 then (true, { t with count := t.quantum })
  else (false, { t with count := t.count - 1 })

/-- Count down `k` times. Counting the ticks from one, those that fired. -/
def ticks (t : Timer) (k : Nat) : List Nat × Timer :=
  let step := fun (s : List Nat × Timer) (i : Nat) =>
    let (fired, t) := s.2.tick
    (if fired then (i + 1) :: s.1 else s.1, t)
  let (fired, t) := (List.range k).foldl step ([], t)
  (fired.reverse, t)

def ack (t : Timer) : Timer :=
  { t with acked := t.acked + 1 }

end Timer

end PagedKernel
