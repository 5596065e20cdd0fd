import AffineLoops.CommandLine.Options
/-!
# Commands

The commands of the program and how they are read from its arguments. Options that concern the
amount of logging are accepted before and after the name of the command.

## Main definitions

- `Command` — the four commands with their parameters
- `Command.ofArguments` — reading a command
-/

namespace AffineLoops.CommandLine

/-- In which form the catalog is written. -/
inductive Target where
  /-- A description of each case. -/
  | summary
  /-- A program for each case. -/
  | program
deriving DecidableEq

/-- A command with its parameters. -/
inductive Command where
  /-- The Hermite normal form of a matrix given in row-major order. -/
  | hermite (entries : List Int)
  /-- The nest for a matrix in row-major order and a domain as pairs of bounds. -/
  | derive (matrix domain : List Int) (verify : Bool)
  /-- The catalog for an array of the given side. -/
  | catalog (target : Target) (output : Option String) (size : Int)
  /-- A sweep over the catalog. -/
  | sweep (seeds : Nat) (seed : UInt64) (size : Int) (skipEquivalence : Bool)
      (dumpDir : Option String)
deriving DecidableEq

/-- The value of a nonempty list of decimal digits. -/
def digits? (cs : List Char) : Option Nat :=
  if cs.isEmpty || !cs.all Char.isDigit then none
  else some (cs.foldl (fun n c => 10 * n + (c.toNat - '0'.toNat)) 0)

/-- The integer that a text stands for: digits, possibly after a sign. -/
def signed? (s : String) : Option Int :=
  let number : Option Int :=
    match s.toList with
    | '-' :: cs => (digits? cs).map fun n => -(n : Int)
    | '+' :: cs => (digits? cs).map fun n => (n : Int)
    | cs => (digits? cs).map fun n => (n : Int)
  number.filter fun n => Int64.minValue.toInt ≤ n ∧ n ≤ Int64.maxValue.toInt

/-- The natural number that a text stands for: digits, possibly after a plus sign. -/
def unsigned? (s : String) : Option Nat :=
  let number :=
    match s.toList with
    | '+' :: cs => digits? cs
    | cs => digits? cs
  number.filter fun n => n < UInt64.size

/-- The integers of a text, separated by commas. -/
def integers? (s : String) : Option (List Int) :=
  (s.splitOn ",").mapM signed?

namespace Command

/-- The options that every command has. -/
def globalOptions : List OptionSpec :=
  [{ long := "verbose", short := some 'v', repeatable := true },
    { long := "quiet", short := some 'q' }]

/-- An option whose value is an integer. -/
def sizeOption : OptionSpec :=
  { long := "size", takesValue := true, accepts := fun s => (signed? s).isSome }

/-- An option whose value is a list of integers, and that may be repeated to continue the list. -/
def listOption (name : String) : OptionSpec :=
  { long := name, takesValue := true, repeatable := true, negativeNumbers := true,
    accepts := fun s => (integers? s).isSome }

/-- An option whose value is a natural number. -/
def countOption (name : String) : OptionSpec :=
  { long := name, takesValue := true, accepts := fun s => (unsigned? s).isSome }

/-- An option whose value is a path. -/
def pathOption (name : String) (short : Option Char) : OptionSpec :=
  { long := name, short := short, takesValue := true, accepts := fun s => !s.isEmpty }

/-- The option that picks the form of the catalog. -/
def emitOption : OptionSpec :=
  { long := "emit", takesValue := true, accepts := fun s => s == "summary" || s == "c" }

/-- The interface of each command, by its name. -/
def interfaces : List (String × Interface) :=
  [("hnf", { options := globalOptions, words := some fun s => (integers? s).isSome }),
    ("derive", { options := globalOptions ++
      [listOption "matrix", listOption "domain", { long := "verify" }] }),
    ("catalog", { options := globalOptions ++
      [emitOption, pathOption "output" (some 'o'), sizeOption] }),
    ("sweep", { options := globalOptions ++
      [countOption "seeds", countOption "seed", sizeOption, { long := "skip-equivalence" },
        pathOption "dump-dir" none] })]

/-- All integers of several texts, in order. -/
def joined (texts : List String) : List Int :=
  texts.flatMap fun s => (integers? s).getD []

/-- The integer that an option gives, with a default. -/
def sideOf (m : Matches) : Int :=
  ((m.value? "size").bind signed?).getD 100

/-- The natural number that an option gives, with a default. -/
def countOf (m : Matches) (name : String) (default : Nat) : Nat :=
  ((m.value? name).bind unsigned?).getD default

/-- The command with the given name, from what was given to it. The lists that it needs must not be
empty. -/
def ofMatches (name : String) (m : Matches) : Except Stop Command :=
  match name with
  | "hnf" => if m.words.isEmpty then .error .rejected else .ok (.hermite (joined m.words))
  | "derive" =>
    if m.has "matrix" && m.has "domain" then
      .ok (.derive (joined (m.values "matrix")) (joined (m.values "domain")) (m.has "verify"))
    else .error .rejected
  | "catalog" =>
    let target := if m.value? "emit" = some "c" then Target.program else Target.summary
    .ok (.catalog target (m.value? "output") (sideOf m))
  | "sweep" =>
    .ok (.sweep (countOf m "seeds" 10) (UInt64.ofNat (countOf m "seed" 0)) (sideOf m)
      (m.has "skip-equivalence") (m.value? "dump-dir"))
  | _ => .error .rejected

/-- Whether the names after the word `help` lead to something that has a help text. -/
def helpTopic (names : List String) : Stop :=
  match names with
  | [] => .help
  | [name] => if name = "help" || (interfaces.lookup name).isSome then .help else .rejected
  | _ => .rejected

/-- Reads a command whose name comes after options of the program itself. -/
def ofArgumentsWith (m : Matches) : List String → Except Stop Command
  | [] => .error .rejected
  | arg :: rest =>
    if arg = "--" then .error .rejected
    else if isDashed arg then do
      match ← scanDashed { options := globalOptions, hasVersion := true } m arg with
      | (m, none) => ofArgumentsWith m rest
      | (_, some _) => throw .rejected
    else if arg = "help" then .error (helpTopic rest)
    else
      match interfaces.lookup arg with
      | some i => do ofMatches arg (← scan i {} rest)
      | none => .error .rejected

/-- Reads a command from the arguments of the program. -/
def ofArguments (args : List String) : Except Stop Command :=
  ofArgumentsWith {} args

end Command

end AffineLoops.CommandLine
