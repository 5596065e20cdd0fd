import AffineLoops.Case.Program
import AffineLoops.Case.Summary
import AffineLoops.CommandLine.Command
import AffineLoops.Json.Encode
/-!
# What a command does

A command is turned into a script: directories and files that are created and text that is
printed, in order, and a failure in which it may end. The script does not depend on the files that
exist; whoever carries it out stops at the first action that fails.

## Main definitions

- `Report` — a failure with its causes, as it is shown
- `Action`, `Script` — single effects, and a sequence of them with its outcome
- `Command.script` — the script of a command
-/

namespace AffineLoops.CommandLine

/-- A failure as it is shown: what failed, and why, from the nearest cause on. -/
structure Report where
  top : String
  causes : List String := []
deriving DecidableEq

/-- The text of a failure. Several causes are numbered. -/
def Report.render (r : Report) : String :=
  let causeLines :=
    match r.causes with
    | [] => []
    | [cause] => ["", "Caused by:", "    " ++ cause]
    | causes => "" :: "Caused by:" ::
      causes.zipIdx.map fun (cause, k) => "    " ++ toString k ++ ": " ++ cause
  "\n".intercalate (("Error: " ++ r.top) :: causeLines) ++ "\n"

/-- The failure that an error of the library is. -/
def Report.ofError (e : Error) : Report :=
  match e with
  | .fault f => ⟨f.message, []⟩
  | _ => ⟨e.message, [e.cause]⟩

/-- One effect of a command. -/
inductive Action where
  /-- Creates a directory and those it lies in, unless they exist. -/
  | makeDirs (path : String)
  /-- Writes a file, replacing one that exists. -/
  | write (path text : String)
  /-- Writes to the standard output. -/
  | print (text : String)
deriving DecidableEq

/-- A character of a path between quotes. -/
def quotePathChar (c : Char) : String :=
  if c = '"' then "\\\""
  else if c = '\\' then "\\\\"
  else if c = '\n' then "\\n"
  else if c = '\r' then "\\r"
  else if c = '\t' then "\\t"
  else if c.toNat = 0 then "\\0"
  else String.singleton c

/-- A path between quotes. -/
def quotePath (path : String) : String :=
  "\"" ++ String.join (path.toList.map quotePathChar) ++ "\""

/-- The failure of an action, for the given reason. -/
def Action.failure (a : Action) (reason : String) : Report :=
  match a with
  | .makeDirs path => ⟨"Failed to create directory: " ++ quotePath path, [reason]⟩
  | .write path _ => ⟨"Failed to write output file: " ++ quotePath path, [reason]⟩
  | .print _ => ⟨reason, []⟩

/-- The effects of a command in order, and the failure in which it ends. -/
structure Script where
  actions : List Action := []
  /-- The failure after all effects, if there is one. -/
  failure : Option Report := none

namespace Script

/-- Nothing but a failure. -/
def fail (r : Report) : Script :=
  { failure := some r }

/-- A line on the standard output. -/
def line (text : String) : Action :=
  .print (text ++ "\n")

/-- Continues with a result, or ends in the failure that its error is. -/
def withResult {ε α : Type} (result : Except ε α) (report : ε → Report) (next : α → Script) :
    Script :=
  match result with
  | .ok a => next a
  | .error e => fail (report e)

/-- Effects before a script. -/
def after (actions : List Action) (s : Script) : Script :=
  { s with actions := actions ++ s.actions }

end Script

/-- The failure of a step that is described by its purpose. -/
def Report.inContext (purpose reason : String) : Report :=
  ⟨purpose, [reason]⟩

namespace Command

open Script

/-- A file inside a directory. -/
def joinPath (dir name : String) : String :=
  if dir.endsWith "/" then dir ++ name else dir ++ "/" ++ name

/-- Shows the Hermite normal form of a matrix. -/
def hermiteScript (entries : List Int) : Script :=
  withResult (IntMatrix.ofRowMajor entries) (fun e => .inContext "Invalid matrix" e.message)
    fun m =>
      withResult (HermiteForm.ofMatrix m) (fun e => .ofError (.matrix e)) fun form =>
        { actions := [line ("M = " ++ IntMatrix.render m),
            line ("A = " ++ IntMatrix.render form.triangular),
            line ("U = " ++ IntMatrix.render form.unimodular)] }

/-- The pairs of a list of even length. -/
def pairs? : List Int → Option (List (Int × Int))
  | [] => some []
  | a :: b :: rest => (pairs? rest).map ((a, b) :: ·)
  | [_] => none

/-- The check of coverage at the end of a derivation. -/
def coverageScript (nest : Nest) : Script :=
  withResult nest.verifyCoverage
    (fun e => ⟨"Derived nest does not cover the domain", [e.message, e.cause]⟩)
    fun () =>
      { actions := [line ("coverage:  ok (" ++ toString nest.domain.size ++ " points)")] }

/-- Shows the nest of a matrix over a domain. -/
def deriveScript (matrix bounds : List Int) (verify : Bool) : Script :=
  withResult (IntMatrix.ofRowMajor matrix) (fun e => .inContext "Invalid matrix" e.message)
    fun m =>
  withResult (Transform.ofMatrix m) (fun e => .inContext "Invalid transform" e.message) fun t =>
  match pairs? bounds with
  | none =>
    fail ⟨"--domain needs lower,upper pairs, got " ++ toString bounds.length ++ " values", []⟩
  | some pairs =>
    withResult (Domain.ofBounds (pairs.map Prod.fst) (pairs.map Prod.snd))
      (fun e => .inContext "Invalid domain" e.message) fun domain =>
    withResult (Nest.derive domain t) .ofError fun nest =>
      after [line ("domain:    " ++ domain.render),
          line ("transform: " ++ t.render ++ " (" ++ t.classify.render ++ ")"),
          .print nest.render]
        (if verify then coverageScript nest else {})

/-- The text of a case in one of the two forms. -/
def renderCase (target : Target) (c : Case) : Except Error String :=
  match target with
  | .summary => .ok c.summary
  | .program => CProgram.render {} c

/-- Writes one program per case into a directory. -/
def programFiles (dir : String) : List Case → Script
  | [] => {}
  | c :: rest =>
    withResult (renderCase .program c) .ofError fun text =>
      after [.write (joinPath dir (c.name ++ ".c")) text] (programFiles dir rest)

/-- Writes a text to a file, or to the standard output. -/
def outputAction (output : Option String) (text : String) : Action :=
  match output with
  | some path => .write path text
  | none => line text

/-- Writes the catalog. -/
def catalogScript (target : Target) (output : Option String) (size : Int) : Script :=
  withResult ({ size := size } : CatalogConfig).cases .ofError fun cases =>
    match target, output with
    | .program, some dir => after [.makeDirs dir] (programFiles dir cases)
    | _, _ =>
      withResult (cases.mapM (renderCase target)) .ofError fun texts =>
        { actions := [outputAction output ("\n".intercalate texts)] }

/-- The file that keeps a mismatch. -/
def dumpAction (dir : String) (r : MismatchReport) : Action :=
  let seed := (r.seed.map UInt64.toNat).getD 0
  .write (joinPath dir (r.name ++ "-" ++ toString seed ++ ".json")) r.toJson.pretty

/-- The files that keep the mismatches of a sweep, if they are asked for. -/
def dumpActions (dumpDir : Option String) (report : SweepReport) : List Action :=
  match dumpDir with
  | some dir => .makeDirs dir :: report.mismatches.map (dumpAction dir)
  | none => []

/-- Sweeps over the catalog. -/
def sweepScript (plan : ExecutionPlan) (size : Int) (dumpDir : Option String) : Script :=
  withResult ({ size := size } : CatalogConfig).cases .ofError fun cases =>
  withResult (AffineLoops.sweep cases plan) .ofError fun report =>
    let counts := toString cases.length ++ " cases, " ++ toString report.passed ++
      " runs passed, " ++ toString report.failed ++ " failed"
    after (dumpActions dumpDir report ++ [line counts])
      (withResult report.result (fun e => ⟨e.message, []⟩) fun _ => {})

/-- What a command does. -/
def script : Command → Script
  | hermite entries => hermiteScript entries
  | derive matrix domain verify => deriveScript matrix domain verify
  | catalog target output size => catalogScript target output size
  | sweep seeds seed size skipEquivalence dumpDir =>
    sweepScript { seeds := seeds, baseSeed := seed, checkEquivalence := !skipEquivalence } size
      dumpDir

end Command

/-- The name and the version of the program. -/
def version : String := "0.1.0"

/-- The text shown when the version is asked for. -/
def versionText : String := "polyremap " ++ version ++ "\n"

/-- The text shown when help is asked for. -/
def helpText : String :=
  "Usage: polyremap [OPTIONS] <COMMAND>\n\n" ++
  "Commands:\n" ++
  "  hnf      Print the Hermite Normal Form A = M * U of a square matrix\n" ++
  "  derive   Derive the transformed loop nest for a domain and matrix\n" ++
  "  catalog  Build the case catalog\n" ++
  "  sweep    Run the equivalence oracle over every case and several seeds\n\n" ++
  "Options:\n" ++
  "  -v, --verbose...  Verbose output\n" ++
  "  -q, --quiet       Quiet mode\n"

/-- How the program ends when it is run with some arguments, before anything is carried out: a
script, or a text and an exit code. -/
def scriptOf (args : List String) : Except (String × Nat) Script :=
  match Command.ofArguments args with
  | .ok command => .ok command.script
  | .error .help => .error (helpText, 0)
  | .error .version => .error (versionText, 0)
  | .error .rejected => .error ("", 2)

end AffineLoops.CommandLine
