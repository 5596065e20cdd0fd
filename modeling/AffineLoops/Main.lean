import AffineLoops.CommandLine.Script
/-!
# The program

Carries out the script of the command that the arguments ask for.
-/

namespace AffineLoops.CommandLine

/-- The wording of a failure of the file system. -/
def reasonOf (e : IO.Error) : String :=
  match e with
  | .noFileOrDirectory .. => "No such file or directory (os error 2)"
  | .permissionDenied .. => "Permission denied (os error 13)"
  | .alreadyExists .. => "File exists (os error 17)"
  | .inappropriateType .. => "Is a directory (os error 21)"
  | other => toString other

/-- Carries out one action. -/
def perform : Action → IO Unit
  | .makeDirs path => IO.FS.createDirAll path
  | .write path text => IO.FS.writeFile path text
  | .print text => IO.print text

/-- Carries out actions until one fails, and gives the failure. -/
def performAll (final : Option Report) : List Action → IO (Option Report)
  | [] => pure final
  | a :: rest => do
    match ← (perform a).toBaseIO with
    | .ok () => performAll final rest
    | .error e => pure (some (a.failure (reasonOf e)))

end AffineLoops.CommandLine

open AffineLoops.CommandLine in
/-- Runs the command that the arguments ask for. -/
def main (args : List String) : IO UInt32 := do
  match scriptOf args with
  | .error (text, code) =>
    IO.print text
    return UInt32.ofNat code
  | .ok s =>
    match ← performAll s.failure s.actions with
    | none => return 0
    | some r =>
      IO.eprint r.render
      return 1
