import SsaLowering.Command.Run

/-!
# The command line

Runs the command on the files of the machine.
-/

namespace SsaLowering.Command

/-- The cause of a failed access to a file, by the number that the machine gives it. -/
def fileErrorOfCode (code : UInt32) (details : String) : FileError :=
  if code = 2 then .notFound
  else if code = 20 then .notDirectory
  else if code = 21 then .isDirectory
  else .other s!"{details} (os error {code})"

def fileErrorOf : IO.Error → FileError
  | .noFileOrDirectory _ code details => fileErrorOfCode code details
  | .inappropriateType _ code details => fileErrorOfCode code details
  | .permissionDenied _ code details => fileErrorOfCode code details
  | error => .other (toString error)

def machine : Host IO where
  read path := do
    try
      let handle ← IO.FS.Handle.mk path .read
      return .ok (← handle.readBinToEnd).toList
    catch error => return .error (fileErrorOf error)
  write path content := do
    try
      IO.FS.writeBinFile path ⟨content.toArray⟩
      return .ok ()
    catch error => return .error (fileErrorOf error)
  isPresent path := do
    try
      discard (IO.FS.Handle.mk path .read)
      return true
    catch error => return fileErrorOf error ∉ [.notFound, .notDirectory]
  now := IO.monoNanosNow

end SsaLowering.Command

def main (words : List String) : IO UInt32 := do
  let outcome ← SsaLowering.Command.run .fnv SsaLowering.Command.machine words
  (← IO.getStdout).write ⟨outcome.output.toArray⟩
  (← IO.getStderr).putStr outcome.errors
  return UInt32.ofNat outcome.exit
