/-!
# Programs

A program is a list of segments and the address of its first instruction. A segment covers `size`
bytes from `va` on, of which the first are `data` and the others zero; data beyond the size is not
used.
-/

namespace PagedKernel

/-- A segment of a program. -/
structure Segment where
  va : UInt64
  size : UInt64
  data : List UInt8
  /-- The segment is data, which can be written; if not, it is text, which can be executed. -/
  writable : Bool

/-- A program. -/
structure Program where
  name : String
  /-- The address of the first instruction. -/
  entry : UInt64
  /-- The segments, in the order in which they are loaded. -/
  segments : List Segment

/-- Where programs come from: the program of a name, if there is one. It is assumed that a loader
answers, and gives the same answer whenever it is asked for the same name. -/
abbrev Loader := String → Option Program

end PagedKernel
