/-!
# Failures

An operation that its caller can recover from ends in one of these values. Each type has a name for
every case, which is what logs and answers show.
-/

namespace PagedKernel

/-- Why a mapping could not be changed. -/
inductive MapError
  /-- The address is not the first of a page. -/
  | unaligned
  /-- Nothing is mapped at the address. -/
  | notExist
  /-- The address is mapped already. -/
  | duplicated
  /-- No page is left for a table. -/
  | outOfMemory
  /-- The null page is never mapped. -/
  | invalidAddress
deriving DecidableEq

def MapError.name : MapError → String
  | unaligned => "Unaligned"
  | notExist => "NotExist"
  | duplicated => "Duplicated"
  | outOfMemory => "OutOfMemory"
  | invalidAddress => "InvalidAddress"

/-- Why a process could not be duplicated. -/
inductive ForkError
  /-- Every slot of the process table is in use. -/
  | noFreeSlot
  /-- No page is left for a copy or for a table. -/
  | outOfMemory
deriving DecidableEq

def ForkError.name : ForkError → String
  | noFreeSlot => "NoFreeSlot"
  | outOfMemory => "OutOfMemory"

/-- Why a process did not get a page. -/
inductive PageAllocError
  /-- The address is not the first of a page. -/
  | unaligned
  /-- The address is neither in the user region nor the console. -/
  | outOfRange
  /-- No page is left. -/
  | outOfMemory
deriving DecidableEq

def PageAllocError.name : PageAllocError → String
  | unaligned => "Unaligned"
  | outOfRange => "OutOfRange"
  | outOfMemory => "OutOfMemory"

/-- What a failed mapping means to the process that asked for the page. -/
def PageAllocError.ofMapError : MapError → PageAllocError
  | .unaligned => .unaligned
  | .invalidAddress => .outOfRange
  | _ => .outOfMemory

end PagedKernel
