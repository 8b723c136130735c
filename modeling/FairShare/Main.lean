import FairShare.CommandLine

/-!
# The program

Runs the command line on the files, the standard input and the environment of the machine.
-/

namespace FairShare.CommandLine

def FileFault.ofIO : IO.Error → FileFault
  | .noFileOrDirectory .. => .missing
  | .inappropriateType .. => .isDirectory
  | e => .other (toString e)

def attempt (read : IO ByteArray) : IO (Except FileFault ByteArray) := do
  try return .ok (← read)
  catch e => return .error (.ofIO e)

partial def readAll (stream : IO.FS.Stream) (seen : ByteArray) : IO ByteArray := do
  let chunk ← stream.read 65536
  if chunk.isEmpty then return seen else readAll stream (seen ++ chunk)

def machine : IO (Environment IO) := do
  return {
    configVariable := ← IO.getEnv "SPREAD_MATCHER_CONFIG"
    file := fun path => attempt (IO.FS.readBinFile path)
    input := attempt do readAll (← IO.getStdin) .empty }

end FairShare.CommandLine

def main (args : List String) : IO UInt32 := do
  let response ← FairShare.CommandLine.respond (← FairShare.CommandLine.machine) args
  IO.print response.stdout
  IO.eprint response.stderr
  return UInt32.ofNat response.exitCode
