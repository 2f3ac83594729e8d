import PagedKernel.Process.Basic

/-!
# Whose turn it is

The scheduler goes around the slots from the one after the current process, which comes last itself,
and picks the first process that can run.

Key definitions: `ProcessTable.nextRunnable`.
-/

namespace PagedKernel

/-- The first process that can run among the `k` slots up to the one that is `procCount` after
`current`. The numbers before the wrap have to fit a word. -/
def ProcessTable.nextAmong (procs : ProcessTable) (current : Nat) : Nat → Except Halt (Option Pid)
  | 0 => .ok none
  | k + 1 =>
    let turn := current + (procCount - k)
    if UInt64.size ≤ turn then .error .overflow
    else if procs.state (turn % procCount) = .runnable then .ok (some (turn % procCount))
    else procs.nextAmong current k

/-- The process to run after `current`, if any can run. -/
def ProcessTable.nextRunnable (procs : ProcessTable) (current : Nat) : Except Halt (Option Pid) :=
  procs.nextAmong current procCount

end PagedKernel
