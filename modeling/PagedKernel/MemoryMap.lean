import PagedKernel.AddressSpace.Listing
import PagedKernel.Process.Basic

/-!
# Maps of the memory

A map has one glyph for each page, sixty-four in a row. The physical map shows whose each page is:
`R` reserved for the machine, `K` the kernel's, `.` free, a hexadecimal digit for the process with
that number, `S` shared by several, and `?` for a page in use that no page table refers to. The map
of a process shows `.` where nothing is mapped, `K` where only the kernel may go, and else the glyph
of the page.

The viewer draws the physical map and the map of one process, and moves on to the next process twice
a second.

Key definitions: `Owner`, `owners`, `physicalMap`, `virtualMap`, `Viewer`, `Viewer.update`.
-/

namespace PagedKernel

variable {n : Nat}

/-- Who refers to a page. -/
inductive Owner
  | nobody
  | kernel
  | process (pid : Pid)
  | several
deriving DecidableEq, Inhabited

/-- The owner of a page once one more refers to it. -/
def Owner.join (a b : Owner) : Owner :=
  match a with
  | .nobody => b
  | a => if a = b then a else .several

/-- Make `owner` refer to each of the pages. -/
def markPages (owner : Owner) : List Nat → Vector Owner n → Except Halt (Vector Owner n)
  | [], owners => .ok owners
  | pn :: rest, owners =>
    if h : pn < n then markPages owner rest (owners.set pn (owners[pn].join owner) h)
    else .error .badIndex

/-- A mapping by the leaf `e` makes its page one of the owner's. Of the mappings of a process, only
those that a user may access do: it shares the others with the kernel. -/
def Owner.counts (owner : Owner) (e : Entry) : Bool :=
  owner = .kernel || e.user

/-- Make `owner` refer to the tables of a page table, and then to the pages it maps. -/
def markTable (m : Memory n) (owner : Owner) (t : PageTable) (owners : Vector Owner n) :
    Except Halt (Vector Owner n) := do
  let owners ← markPages owner (← t.tableNumbers m) owners
  markPages owner (← t.mappedNumbers m owner.counts) owners

/-- Make each owner refer to the pages of its page table. -/
def markTables (m : Memory n) :
    List (Owner × PageTable) → Vector Owner n → Except Halt (Vector Owner n)
  | [], owners => .ok owners
  | (owner, t) :: rest, owners => do markTables m rest (← markTable m owner t owners)

def owners (m : Memory n) (kernel : PageTable) (procs : ProcessTable) :
    Except Halt (Vector Owner n) :=
  markTables m ((.kernel, kernel) :: procs.liveTables.map fun p => (.process p.1, p.2))
    (Vector.replicate n .nobody)

/-- The glyph of an owner whose page is in use. -/
def Owner.glyph : Owner → Char
  | nobody => '?'
  | kernel => 'K'
  | process pid => if pid < 16 then Nat.digitChar pid else 'S'
  | several => 'S'

/-- The glyph of page number `pn`, which has to exist if it may be handed out. -/
def pageGlyph (f : Frames n) (owners : Vector Owner n) (pn : Nat) : Char :=
  if f.allocatablePage pn then
    if f.count pn = 0 then '.' else (owners.toArray.getD pn .nobody).glyph
  else
    let addr := pn * pageSize
    if addr < kernelStart || ioHoleStart ≤ addr then 'R' else 'K'

/-- The glyphs in a row. -/
def pagesPerRow : Nat := 64

/-- Rows of glyphs, the first of them for page number `pn`. -/
def rowsFrom (pn : Nat) (glyphs : List Char) : List String :=
  if glyphs.isEmpty then []
  else
    (hexPadded 6 (pn * pageSize) ++ " " ++ String.ofList (glyphs.take pagesPerRow))
      :: rowsFrom (pn + pagesPerRow) (glyphs.drop pagesPerRow)
termination_by glyphs.length
decreasing_by
  have : glyphs ≠ [] := by simpa using ‹¬ glyphs.isEmpty = true›
  have := List.length_pos_iff.mpr this
  simp only [List.length_drop, pagesPerRow]
  omega

def physicalMap (f : Frames n) (kernel : PageTable) (procs : ProcessTable) :
    Except Halt (List String) := do
  let owners ← owners f.memory kernel procs
  return rowsFrom 0 ((List.range n).map (pageGlyph f owners))

/-- The glyph of a page of an address space, by the leaf that maps it. -/
def leafGlyph (f : Frames n) (owners : Vector Owner n) : Option Entry → Char
  | none => '.'
  | some e => if e.user then pageGlyph f owners e.addr.pageNumber else 'K'

/-- The rows of the map of process `pid`. There are none if it has no address space. -/
def virtualMap (f : Frames n) (kernel : PageTable) (procs : ProcessTable) (pid : Pid) :
    Except Halt (List String) := do
  let owners ← owners f.memory kernel procs
  match (← procs.get pid).table with
  | none => return []
  | some t =>
    let glyphs ← (List.range (virtualSize / pageSize)).mapM fun pn => do
      return leafGlyph f owners (← t.walk f.memory ⟨UInt64.ofNat (pn * pageSize)⟩)
    return rowsFrom 0 glyphs

/-- The state of the viewer. -/
structure Viewer where
  /-- The ticks at the last time it moved on; zero before the first. -/
  lastTicks : Nat := 0
  /-- The process it shows. -/
  showing : Pid := 0
deriving DecidableEq, Inhabited

namespace Viewer

/-- The ticks after which the viewer moves on. -/
def period : Nat := timerRate / 2

/-- The first slot from `showing` on that a process with an address space lives in, among the next
`k`; the one after them if there is none. -/
def settle (procs : ProcessTable) : Nat → Pid → Pid
  | 0, showing => showing
  | k + 1, showing =>
    if procs.state showing ≠ .free && (procs.table? showing).isSome then showing
    else settle procs k ((showing + 1) % procCount)

/-- Draw the physical map and the map of the process shown, or of the next one that lives. -/
def draw (v : Viewer) (kernel : PageTable) : UserlandM n Viewer := do
  let s ← get
  let v := { v with showing := settle s.procs procCount v.showing }
  Userland.report .physicalMap
  (← physicalMap s.frames kernel s.procs).forM fun row => Userland.report (.row row)
  if (s.procs.table? v.showing).isSome then
    Userland.report (.virtualMap v.showing)
    (← virtualMap s.frames kernel s.procs v.showing).forM fun row => Userland.report (.row row)
  return v

/-- Look at the clock, and move on and draw if it is time. The clock does not run backwards. -/
def update (v : Viewer) (ticks : Nat) (kernel : PageTable) : UserlandM n Viewer := do
  if v.lastTicks ≠ 0 && ticks < v.lastTicks then throw .overflow
  if v.lastTicks = 0 || period ≤ ticks - v.lastTicks then
    draw { lastTicks := ticks, showing := (v.showing + 1) % procCount } kernel
  else return v

end Viewer

end PagedKernel
