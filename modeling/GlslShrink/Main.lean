import GlslShrink.CommandLine

/-!
The program: reads the files that the command line names, and writes what the compilation reports.
-/

set_option autoImplicit false

open GlslShrink

/-- The reason for a failed file access as the operating system gives it. -/
def problemOf : IO.Error → CommandLine.FileProblem
  | .noFileOrDirectory _ _ _ => .missing
  | .permissionDenied _ _ _ => .system "Permission denied" 13
  | .inappropriateType _ code details => .system details code.toNat
  | error => .system (toString error) 0

def readSource (path : String) : IO (Except CommandLine.FileProblem String) := do
  try
    return CommandLine.textOf (← IO.FS.readBinFile path)
  catch error =>
    return .error (problemOf error)

def main (arguments : List String) : IO UInt32 := do
  let report ← CommandLine.run readSource arguments
  IO.print report.out
  IO.eprint report.err
  return UInt32.ofNat report.status
