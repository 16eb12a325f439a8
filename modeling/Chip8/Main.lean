import Chip8.Headless

/-! # Command line

    The headless program. The screen goes to standard output, and what went wrong to standard
    error. -/

namespace Chip8

/-- A file as bytes, unless it cannot be read. -/
def readFile (path : String) : IO (Option (Array UInt8)) := do
  try
    let bytes ← IO.FS.readBinFile path
    return some bytes.data
  catch _ => return none

/-- A key from the entropy of the system. -/
def entropy : IO ChaCha.Key := do
  let bytes ← IO.getRandomBytes 32
  return Vector.ofFn fun i =>
    (List.range 4).foldl (fun w k => w <<< 8 ||| (bytes.data[4 * i.val + k]?.getD 0).toUInt32) 0

end Chip8

def main (args : List String) : IO UInt32 := do
  let report :=
    Chip8.Headless.report (← Chip8.Headless.launch Chip8.readFile (← Chip8.entropy) args)
  IO.print report.output
  IO.eprint report.complaint
  return report.status
