import LazyHeap.CommandLine

/-! The particle simulation as a program. -/

def main (args : List String) : IO UInt32 := do
  let result := LazyHeap.CommandLine.run args
  IO.print result.out
  unless result.err.isEmpty do IO.eprintln result.err
  return result.code.toUInt32
