/-!
# A spin lock

A spin lock is a flag beside a value. A context takes the lock by exchanging the flag for `true` and
looking at what was there; if that was `false` it has a guard, and if it was `true` it watches the
flag until it is `false` and tries again. The value is reached through a guard. A guard is given
back by setting the flag to `false`, also when the context fails while it holds the guard. Each of
these is one indivisible step on the flag, and so is each reading and each writing of the value.

A `Task` is what a context has yet to do with the lock, `Context.step` is its next step, and
`Contest.run` lets any number of contexts take their steps in any order. The guards that a context
holds are in the type of its task: what needs a guard cannot be done without one, and nobody ends
with one.

Key definitions: `SpinLock`, `SpinLock.tryLock`, `SpinLock.unlock`, `Task`, `Context.step`,
`Contest.run`.
-/

namespace PagedKernel

/-- A value that is reached only while the flag is set by the one who reaches it. -/
structure SpinLock (α : Type) where
  locked : Bool
  value : α
deriving DecidableEq

namespace SpinLock

variable {α : Type}

def new (value : α) : SpinLock α :=
  ⟨false, value⟩

/-- Set the flag. The result is what it was. -/
def swap (l : SpinLock α) : Bool × SpinLock α :=
  (l.locked, { l with locked := true })

/-- Take the lock, if nobody holds it. -/
def tryLock (l : SpinLock α) : Option (SpinLock α) :=
  match l.swap with
  | (true, _) => none
  | (false, l) => some l

def unlock (l : SpinLock α) : SpinLock α :=
  { l with locked := false }

/-- Change the value. Only the holder does. -/
def set (l : SpinLock α) (value : α) : SpinLock α :=
  { l with value }

end SpinLock

/-- What a context has yet to do that holds `held` guards of a lock. -/
inductive Task (α : Type) : (held : Nat) → Type
  /-- It has nothing left to do. -/
  | done : Task α 0
  /-- It is about to exchange the flag, and goes on with the guard once it has one. -/
  | lock {held : Nat} (next : Task α (held + 1)) : Task α held
  /-- It was refused the lock, and watches the flag before it tries again. -/
  | watch {held : Nat} (next : Task α (held + 1)) : Task α held
  /-- It is about to exchange the flag once, and goes on whether it gets the guard or not. -/
  | tryLock {held : Nat} (taken : Task α (held + 1)) (refused : Task α held) : Task α held
  /-- It reads the value through a guard. -/
  | read {held : Nat} (next : α → Task α (held + 1)) : Task α (held + 1)
  /-- It writes the value through a guard. -/
  | write {held : Nat} (value : α) (next : Task α (held + 1)) : Task α (held + 1)
  /-- It gives a guard back. -/
  | drop {held : Nat} (next : Task α held) : Task α (held + 1)
  /-- It has failed, and gives its guards back one after another. -/
  | fail {held : Nat} : Task α held

/-- Take the lock, add `amount` to the value and give the lock back. -/
def Task.add {α : Type} [Add α] (amount : α) : Task α 0 :=
  .lock (.read fun value => .write (value + amount) (.drop .done))

/-- A context that shares a lock with others. -/
structure Context (α : Type) where
  /-- The guards that it holds. -/
  held : Nat
  task : Task α held

namespace Context

variable {α : Type}

def finished : Context α → Bool
  | ⟨_, .done⟩ => true
  | _ => false

/-- One step of a context, and what it makes of the lock. -/
def step (l : SpinLock α) : Context α → Context α × SpinLock α
  | ⟨_, .done⟩ => (⟨0, .done⟩, l)
  | ⟨held, .lock next⟩ =>
    match l.swap with
    | (true, l) => (⟨held, .watch next⟩, l)
    | (false, l) => (⟨held + 1, next⟩, l)
  | ⟨held, .watch next⟩ => (⟨held, if l.locked then .watch next else .lock next⟩, l)
  | ⟨held, .tryLock taken refused⟩ =>
    match l.swap with
    | (true, l) => (⟨held, refused⟩, l)
    | (false, l) => (⟨held + 1, taken⟩, l)
  | ⟨held + 1, .read next⟩ => (⟨held + 1, next l.value⟩, l)
  | ⟨held + 1, .write value next⟩ => (⟨held + 1, next⟩, l.set value)
  | ⟨held + 1, .drop next⟩ => (⟨held, next⟩, l.unlock)
  | ⟨held + 1, .fail⟩ => (⟨held, .fail⟩, l.unlock)
  | ⟨0, .fail⟩ => (⟨0, .done⟩, l)

end Context

/-- Contexts that share a lock. -/
structure Contest (α : Type) where
  lock : SpinLock α
  contexts : List (Context α)

namespace Contest

variable {α : Type}

/-- Nobody holds the lock, and every context has its whole task to do. -/
def start (value : α) (tasks : List (Task α 0)) : Contest α :=
  ⟨.new value, tasks.map fun task => ⟨0, task⟩⟩

def step (c : Contest α) (i : Nat) : Contest α :=
  match c.contexts[i]? with
  | none => c
  | some context =>
    let (context, lock) := context.step c.lock
    { lock, contexts := c.contexts.set i context }

/-- The contexts take steps in the order of `schedule`. -/
def run (c : Contest α) (schedule : List Nat) : Contest α :=
  schedule.foldl step c

/-- Nobody has anything left to do. -/
def finished (c : Contest α) : Bool :=
  c.contexts.all Context.finished

end Contest

/-- The lock after `k` contexts have each added one, all of them having met the lock while it was
held. Nobody else holds it in the end. -/
def SpinLock.contend (l : SpinLock UInt64) (k : Nat) : SpinLock UInt64 :=
  let arrived := Contest.run ⟨l.swap.2, List.replicate k ⟨0, .add 1⟩⟩ (List.range k)
  let freed := { arrived with lock := arrived.lock.unlock }
  (freed.run ((List.range k).flatMap fun i => List.replicate 5 i)).lock

end PagedKernel
