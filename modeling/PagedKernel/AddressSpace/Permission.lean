import PagedKernel.Machine.Entry

/-!
# Permissions

A permission says what a mapping allows. `Permission.toFlags` is the flags of the leaf that grants
it, and `Permission.ofFlags` what a leaf with some flags grants. Whatever is mapped can be read.

Key definitions: `Permission`, `Permission.toFlags`, `Permission.ofFlags`, `Permission.contains`.
-/

namespace PagedKernel

/-- What a mapping allows. -/
structure Permission where
  read : Bool
  write : Bool
  execute : Bool
  user : Bool
deriving DecidableEq, Inhabited

namespace Permission

def none : Permission := ⟨false, false, false, false⟩

def userData : Permission := ⟨true, true, false, true⟩

def userText : Permission := ⟨true, false, true, true⟩

def kernel : Permission := ⟨true, true, true, false⟩

/-- The permission with the bits of `w`: read, write, execute and user, from the lowest. -/
def ofWord (w : UInt64) : Permission :=
  ⟨wordBit w 0, wordBit w 1, wordBit w 2, wordBit w 3⟩

def toNat (p : Permission) : Nat :=
  p.read.toNat + 2 * p.write.toNat + 4 * p.execute.toNat + 8 * p.user.toNat

def union (p q : Permission) : Permission :=
  ⟨p.read || q.read, p.write || q.write, p.execute || q.execute, p.user || q.user⟩

/-- All that `q` allows, `p` allows. -/
def contains (p q : Permission) : Bool :=
  (p.read || !q.read) && (p.write || !q.write) && (p.execute || !q.execute) && (p.user || !q.user)

/-- The flags of the leaf that grants the permission. -/
def toFlags (p : Permission) : Flags :=
  { Flags.empty with
    present := true, writable := p.write, user := p.user, noExecute := !p.execute }

/-- What a leaf with these flags grants. A leaf that is not present grants nothing. -/
def ofFlags (f : Flags) : Permission :=
  if f.present then ⟨true, f.writable, !f.noExecute, f.user⟩ else none

/-- The names of what is allowed, between bars. -/
def text (p : Permission) : String :=
  let named : List (Bool × String) :=
    [(p.read, "READ"), (p.write, "WRITE"), (p.execute, "EXECUTABLE"), (p.user, "USER")]
  match named.filterMap fun x => if x.1 then some x.2 else Option.none with
  | [] => "(empty)"
  | names => String.intercalate " | " names

/-- The flags of a permission grant it again, and reading. -/
theorem ofFlags_toFlags (p : Permission) : ofFlags p.toFlags = { p with read := true } := by
  simp [ofFlags, toFlags]

end Permission

end PagedKernel
