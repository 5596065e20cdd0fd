/-!
# Scanning arguments

A list of arguments is read against an interface: the options with their long and short names, and
whether words that are no options are taken. Scanning goes from left to right and stops at the
first argument that does not fit, or that asks for the help or version text.

## Main definitions

- `OptionSpec`, `Interface` — what is accepted
- `Matches` — what was given
- `scan` — reading a list of arguments

## Design notes

The value of an option may be attached, as in `--size=5`, `-oout` or `-o=out`, or be the next
argument. A next argument that starts with a dash is no value, unless the option takes negative
numbers and it is one. After the argument `--` everything is a word.
-/

namespace AffineLoops.CommandLine

/-- Why the scanning of arguments stops early. -/
inductive Stop where
  | help
  | version
  /-- An argument does not fit the interface. -/
  | rejected
deriving DecidableEq

/-- An option of an interface. -/
structure OptionSpec where
  /-- The name after two dashes. -/
  long : String
  /-- The letter after one dash. -/
  short : Option Char := none
  takesValue : Bool := false
  repeatable : Bool := false
  /-- Whether its value may be a negative number. -/
  negativeNumbers : Bool := false
  accepts : String → Bool := fun _ => true

/-- What a list of arguments may hold. -/
structure Interface where
  options : List OptionSpec
  /-- Which words are admitted, if any are; negative numbers count as words then. -/
  words : Option (String → Bool) := none
  hasVersion : Bool := false

/-- What was given. -/
structure Matches where
  /-- The names of the options with their values, in order; an option without a value has the empty
  one. -/
  options : List (String × String) := []
  words : List String := []

namespace Matches

/-- The option was given. -/
def has (m : Matches) (name : String) : Bool :=
  m.options.any fun entry => entry.1 == name

/-- The values of an option, in order. -/
def values (m : Matches) (name : String) : List String :=
  (m.options.filter fun entry => entry.1 == name).map Prod.snd

/-- The value of an option that is given at most once. -/
def value? (m : Matches) (name : String) : Option String :=
  (m.values name).head?

end Matches

/-- Digits with at most one point, not in front, and at most one exponent, neither in front nor
last. -/
def isNumeral (s : List Char) : Bool :=
  let rec go (first seenPoint : Bool) (exponent : Bool) : List Char → Bool
    | [] => true
    | c :: rest =>
      if c.isDigit then go false seenPoint exponent rest
      else if c = '.' && !seenPoint && !exponent && !first then go false true exponent rest
      else if c = 'e' && !exponent && !first && !rest.isEmpty then go false seenPoint true rest
      else false
  go true false false s

/-- A dash before a numeral. -/
def isNegativeNumber (arg : String) : Bool :=
  match arg.toList with
  | '-' :: rest => isNumeral rest
  | _ => false

/-- An argument that starts with a dash and is more than one. -/
def isDashed (arg : String) : Bool :=
  match arg.toList with
  | '-' :: _ :: _ => true
  | _ => false

/-- Whether the next argument can be the value of the option. -/
def OptionSpec.takesNext (o : OptionSpec) (next : String) : Bool :=
  !isDashed next || (o.negativeNumbers && isNegativeNumber next)

/-- Adds an option with its value, which must be admitted, and not be given twice unless that is
allowed. -/
def Matches.addOption (m : Matches) (o : OptionSpec) (value : String) : Except Stop Matches :=
  if (m.has o.long && !o.repeatable) || !o.accepts value then .error .rejected
  else .ok { m with options := m.options ++ [(o.long, value)] }

/-- Adds a word, which must be admitted. -/
def Matches.addWord (m : Matches) (i : Interface) (word : String) : Except Stop Matches :=
  match i.words with
  | some accepts =>
    if accepts word then .ok { m with words := m.words ++ [word] } else .error .rejected
  | none => .error .rejected

/-- What the letters after a single dash amount to: options without values, and at the end possibly
one that still needs its value. -/
def scanLetters (i : Interface) (m : Matches) :
    List Char → Except Stop (Matches × Option OptionSpec)
  | [] => .ok (m, none)
  | c :: rest =>
    match i.options.find? (fun o => o.short == some c) with
    | some o =>
      if !o.takesValue then do scanLetters i (← m.addOption o "") rest
      else
        match rest with
        | [] => .ok (m, some o)
        | '=' :: value => do return (← m.addOption o (String.ofList value), none)
        | value => do return (← m.addOption o (String.ofList value), none)
    | none =>
      if c = 'h' then .error .help
      else if c = 'V' && i.hasVersion then .error .version
      else .error .rejected

/-- What an argument with two dashes amounts to: the option, and its value if it is attached. -/
def scanLong (i : Interface) (m : Matches) (body : List Char) :
    Except Stop (Matches × Option OptionSpec) :=
  let name := String.ofList (body.takeWhile (· ≠ '='))
  let attached := (body.dropWhile (· ≠ '=')).tail?
  match i.options.find? (fun o => o.long == name) with
  | some o =>
    match o.takesValue, attached with
    | true, some value => do return (← m.addOption o (String.ofList value), none)
    | true, none => .ok (m, some o)
    | false, none => do return (← m.addOption o "", none)
    | false, some _ => .error .rejected
  | none =>
    if attached.isSome then .error .rejected
    else if name = "help" then .error .help
    else if name = "version" && i.hasVersion then .error .version
    else .error .rejected

/-- What a dashed argument amounts to. -/
def scanDashed (i : Interface) (m : Matches) (arg : String) :
    Except Stop (Matches × Option OptionSpec) :=
  match arg.toList with
  | '-' :: '-' :: body => scanLong i m body
  | '-' :: letters => scanLetters i m letters
  | _ => .error .rejected

/-- Reads arguments from left to right. -/
def scan (i : Interface) : Matches → List String → Except Stop Matches
  | m, [] => .ok m
  | m, [arg] =>
    if arg = "--" then .ok m
    else if isDashed arg && !(i.words.isSome && isNegativeNumber arg) then do
      match ← scanDashed i m arg with
      | (m, none) => return m
      | (_, some _) => throw .rejected
    else m.addWord i arg
  | m, arg :: next :: rest =>
    if arg = "--" then (next :: rest).foldlM (fun m word => m.addWord i word) m
    else if isDashed arg && !(i.words.isSome && isNegativeNumber arg) then do
      match ← scanDashed i m arg with
      | (m, none) => scan i m (next :: rest)
      | (m, some o) =>
        if o.takesNext next then scan i (← m.addOption o next) rest else throw .rejected
    else do scan i (← m.addWord i arg) (next :: rest)

end AffineLoops.CommandLine
