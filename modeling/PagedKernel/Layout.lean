import PagedKernel.Address

/-!
# The layout of memory

```text
physical, and the kernel's own view               a process
0x000000  the null page                           the null page, not mapped
0x001000  the kernel: image, data and stack       the kernel, not for the user
0x0a0000  the input and output hole
0x0b8000    the console                             the console, for the user
0x100000  pages that the allocator hands out      program and heap
0x200000  the end of the memory                     ...
0x300000                                          the end, below it the stack page
```
-/

namespace PagedKernel

def physicalSize : Nat := 0x200000

def physicalPages : Nat := physicalSize / pageSize

/-- The size of the address space of a process. -/
def virtualSize : Nat := 0x300000

/-- Where the image of the kernel starts. -/
def kernelStart : Nat := 0x40000

/-- Where the input and output hole starts. -/
def ioHoleStart : Nat := 0xa0000

/-- The page of the console, which every process can write. -/
def consoleAddr : Nat := 0xb8000

/-- The first address of the user region. -/
def procStart : Nat := 0x100000

/-- The first physical address that the allocator hands out. -/
def allocatableStart : Nat := 0x100000

/-- The slots of the process table. Slot 0 belongs to no process. -/
def procCount : Nat := 16

/-- Timer interrupts in a second. -/
def timerRate : Nat := 100

/-- The byte that fills a page just handed out. -/
def allocFill : UInt8 := 0xcc

/-- The spins without anything to run between two drawings of the memory. -/
def redrawSpins : Nat := 4096

/-- The page of the stack, the last one of the address space. -/
def stackPage : Nat := virtualSize - pageSize

/-- The programs that are loaded when none is asked for. -/
def defaultPrograms : List String :=
  ["allocator", "allocator2", "allocator3", "allocator4"]

end PagedKernel
