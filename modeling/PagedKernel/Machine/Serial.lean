/-!
# The serial device

The serial device takes text and keeps its lines. A line is complete once its newline is written;
the device keeps the last `serialLines` complete lines and the incomplete one. `Serial.drain` takes
the complete lines out and leaves the incomplete one, which later text goes on with.

Key definitions: `Serial`, `Serial.write`, `Serial.drain`.
-/

namespace PagedKernel

/-- The complete lines that the serial device keeps. -/
def serialLines : Nat := 1024

structure Serial where
  /-- The complete lines, the oldest first. -/
  lines : Array String := #[]
  /-- The text since the last newline. -/
  rest : String := ""
deriving Inhabited

namespace Serial

/-- Complete the incomplete line. The oldest line goes if there is no room. -/
def endLine (s : Serial) : Serial :=
  let kept := if s.lines.size = serialLines then s.lines.eraseIdxIfInBounds 0 else s.lines
  { lines := kept.push s.rest, rest := "" }

/-- Write what is left of a text: complete a line with what is before the first newline, and go on
behind it. -/
def writeRest (s : Serial) (text : List Char) : Serial :=
  match _h : text.idxOf? '\n' with
  | none => { s with rest := s.rest ++ String.ofList text }
  | some pos =>
    let line := { s with rest := s.rest ++ String.ofList (text.take pos) }
    line.endLine.writeRest (text.drop (pos + 1))
termination_by text.length
decreasing_by
  obtain ⟨hpos, -⟩ := List.idxOf?_eq_some_iff.mp _h
  rw [List.length_drop]
  omega

def write (s : Serial) (text : String) : Serial :=
  s.writeRest text.toList

/-- Take every complete line out. -/
def drain (s : Serial) : List String × Serial :=
  (s.lines.toList, { s with lines := #[] })

end Serial

end PagedKernel
