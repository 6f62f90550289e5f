import Covenant.Command.Run

namespace Covenant

-- The files of the system. A file is what can be read.
def systemFiles : Files IO where
  isFile p := do
    match ← (IO.FS.readBinFile (String.ofList p)).toBaseIO with
    | .ok _ => return true
    | .error _ => return false
  read p := do
    match ← (IO.FS.readFile (String.ofList p)).toBaseIO with
    | .ok text => return .ok text
    | .error e => return .error (toString e)

end Covenant

def main (arguments : List String) : IO UInt32 := do
  let output ← Covenant.Command.run "local" Covenant.systemFiles arguments
  (← IO.getStdout).putStr output.stdout
  (← IO.getStderr).putStr output.stderr
  return UInt32.ofNat output.exit
