-- The program. It reads the files that the command line names, follows the
-- command line, and shows the text or the reason why there is none.
import HeapRetention.CommandLine.Run

open HeapRetention

/-- The contents of the files that can be read. -/
def readFiles (paths : List String) : IO (List (String × ByteArray)) := do
  let mut contents := []
  for path in paths do
    try
      let bytes ← IO.FS.readBinFile path
      contents := (path, bytes) :: contents
    catch _ => pure ()
  return contents

def main (arguments : List String) : IO UInt32 := do
  let environment ← IO.getEnv "HEAPDOM_CONFIG"
  let contents ← readFiles (CommandLine.paths environment arguments)
  match CommandLine.run (fun path => contents.lookup path) environment arguments with
  | .ok text =>
    IO.print text
    return 0
  | .error failure =>
    match failure.message? with
    | some message => IO.eprintln message
    | none => IO.eprintln "heapdom: this run cannot be followed to its end"
    return failure.exitCode
