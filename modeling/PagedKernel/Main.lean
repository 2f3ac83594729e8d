import PagedKernel.CommandLine

/-!
# The program

The command writes the lines of the log to the error output. A help or version text goes to the
standard output.
-/

open PagedKernel

def main (args : List String) : IO UInt32 := do
  let outcome := execute bundled args
  outcome.log.forM fun line => IO.eprintln line
  if outcome.status = 0 then IO.print outcome.text else IO.eprint outcome.text
  return outcome.status.toUInt32
