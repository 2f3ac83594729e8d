import PagedKernel.Kernel.Run
import PagedKernel.Programs

/-!
# A session

A session boots the kernel with the bundled programs, runs it until a number of timer interrupts has
passed or nothing can run, and reports why it stopped.

Key definitions: `runSession`.
-/

namespace PagedKernel

/-- The clock has passed the limit. -/
def passed (limit : Option Nat) (k : Kernel) : Bool :=
  match limit with
  | some most => most < k.ticks
  | none => false

/-- Run the kernel until the limit is passed, and report the end. -/
def Kernel.runSession (limit : Option Nat) : KernelM Ending := do
  let (stop, ()) ← runUntil (fun s k => (passed limit k, s)) ()
  let ticks := (← get).ticks
  report (match stop with
    | .idle => .finished ticks
    | .condition => .stopped ticks)
  return stop

/-- Boot the kernel with `command` and run it until `limit` timer interrupts have passed. The
results are why it stopped, or the cause of a halt, and the log. -/
def runSession (loader : Loader) (command : Option String) (limit : Option Nat) :
    Except Halt Ending × Log :=
  match Kernel.boot loader command with
  | .error (cause, log) => (.error cause, log)
  | .ok kernel =>
    match Kernel.runSession limit kernel with
    | .ok stop kernel => (.ok stop, kernel.log)
    | .error cause kernel => (.error cause, kernel.log)

end PagedKernel
