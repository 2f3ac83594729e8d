import PagedKernel.AddressSpace.Listing
import PagedKernel.Process.Basic

/-!
# Audits of the memory

Two audits halt the kernel when they find the memory in disorder. `checkTable` compares the page
table of a process with the kernel's: below the user region both have to map the same, but for the
console, which a process has to be able to write. `checkCounts` compares the count of every page
with the references that the page tables hold.

Key definitions: `checkTable`, `countReferences`, `checkCounts`.
-/

namespace PagedKernel

variable {n : Nat}

/-- Compare the mappings of a process with those of the kernel, both in the order of their
addresses. -/
def compareMappings : List Mapping → List Mapping → Except Halt Unit
  | [], [] => .ok ()
  | (va, e) :: ours, (kernelVa, kernelEntry) :: theirs =>
    if va = kernelVa then
      if e = kernelEntry then compareMappings ours theirs else .error (.tableDiffers va)
    else .error (.unexpectedMapping va)
  | (va, _) :: _, [] => .error (.unexpectedMapping va)
  | [], (kernelVa, _) :: _ => .error (.missingMapping kernelVa)

def withoutConsole (mappings : List Mapping) : List Mapping :=
  mappings.filter fun p => p.1.toNat ≠ consoleAddr

def Flags.userWritable (f : Flags) : Bool :=
  f.present && f.writable && f.user

/-- Audit the page table `t` of a process against the kernel's. -/
def checkTable (m : Memory n) (kernel t : PageTable) : Except Halt Unit := do
  let ours ← t.mappings m 0 procStart
  let theirs ← kernel.mappings m 0 procStart
  compareMappings (withoutConsole ours) (withoutConsole theirs)
  if (← t.walk m ⟨0⟩).isSome then throw .nullMapped
  let console ← t.walk m ⟨UInt64.ofNat consoleAddr⟩
  let flags := (console.map Entry.flags).getD .empty
  if !flags.userWritable then throw (.consoleNotWritable flags)

/-- Count each page number of a list, on top of the counts so far. -/
def countPages : List Nat → Vector Nat n → Except Halt (Vector Nat n)
  | [], counts => .ok counts
  | pn :: rest, counts =>
    if h : pn < n then countPages rest (counts.set pn (counts[pn] + 1) h) else .error .badIndex

/-- Count every reference that a page table holds: first those to its tables, and then those to the
pages it maps. -/
def countTable (m : Memory n) (t : PageTable) (counts : Vector Nat n) :
    Except Halt (Vector Nat n) := do
  let counts ← countPages (← t.tableNumbers m) counts
  countPages (← t.mappedNumbers m fun _ => true) counts

/-- Count the references that page tables hold to each page. -/
def countReferences (m : Memory n) : List PageTable → Vector Nat n → Except Halt (Vector Nat n)
  | [], counts => .ok counts
  | t :: rest, counts => do countReferences m rest (← countTable m t counts)

/-- Audit the counts of all pages against the references that the page tables of the kernel and of
the processes hold. -/
def checkCounts (f : Frames n) (kernel : PageTable) (procs : ProcessTable) : Except Halt Unit := do
  let tables := kernel :: procs.liveTables.map (·.2)
  let held ← countReferences f.memory tables (Vector.replicate n 0)
  match (List.range n).find? fun pn => f.count pn ≠ held.toArray.getD pn 0 with
  | some pn => throw (.countDiffers pn (f.count pn) (held.toArray.getD pn 0))
  | none => return ()

end PagedKernel
