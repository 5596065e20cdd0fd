import AffineLoops.CommandLine.Script
/-!
# Scripts on a file tree

The meaning of a script: what it leaves behind in a directory, and what it prints. A file tree is a
list of named files and directories below the working directory.

## Main definitions

- `FileTree` — files with their texts, and directories
- `FileTree.makeDirs`, `FileTree.write` — the effects on files
- `Outcome`, `outcomeOf` — exit code, output and files of a script
-/

namespace AffineLoops.CommandLine

/-- A path below the working directory, as its components. -/
abbrev Path := List String

/-- The entries below the working directory: a text for a file and `none` for a directory. -/
structure FileTree where
  /-- The entries in the order in which they were created. -/
  entries : List (Path × Option String) := []
deriving Inhabited

/-- Why an action on files fails. -/
inductive FileError where
  /-- A directory on the way does not exist. -/
  | noEntry
  /-- A file stands where a directory is needed. -/
  | notADirectory
  /-- A directory stands where a file is to be written. -/
  | isADirectory
  /-- A file stands where a directory is to be created. -/
  | occupied
deriving DecidableEq

/-- The wording of a failure of the file system. -/
def FileError.message : FileError → String
  | .noEntry => "No such file or directory (os error 2)"
  | .notADirectory => "Not a directory (os error 20)"
  | .isADirectory => "Is a directory (os error 21)"
  | .occupied => "File exists (os error 17)"

namespace FileTree

/-- The entry at a path; the working directory itself is a directory. -/
def get? (t : FileTree) (p : Path) : Option (Option String) :=
  if p.isEmpty then some none else t.entries.lookup p

/-- The tree with an entry, in place of one at the same path. -/
def put (t : FileTree) (p : Path) (entry : Option String) : FileTree :=
  if (t.get? p).isSome then
    { entries := t.entries.map fun e => if e.1 = p then (p, entry) else e }
  else { entries := t.entries ++ [(p, entry)] }

/-- The components of a written path; a single point stands for nothing. -/
def components (path : String) : List String :=
  (path.splitOn "/").filter fun c => !c.isEmpty && c != "."

/-- One component further: up for two points, and down otherwise. -/
def step (p : Path) (component : String) : Path :=
  if component = ".." then p.dropLast else p ++ [component]

/-- The directory that a list of components leads to. -/
def resolve (t : FileTree) (p : Path) : List String → Except FileError Path
  | [] => .ok p
  | c :: rest =>
    match t.get? (step p c) with
    | some none => resolve t (step p c) rest
    | some (some _) => .error .notADirectory
    | none => .error .noEntry

/-- Creates the directories that a list of components leads through, unless they exist. -/
def makeDirsFrom (t : FileTree) (p : Path) : List String → Except FileError FileTree
  | [] => .ok t
  | c :: rest =>
    match t.get? (step p c) with
    | some none => makeDirsFrom t (step p c) rest
    | some (some _) => .error (if rest.isEmpty then .occupied else .notADirectory)
    | none => makeDirsFrom (t.put (step p c) none) (step p c) rest

/-- Creates a directory and those it lies in, unless they exist. The null device is no directory. -/
def makeDirs (t : FileTree) (path : String) : Except FileError FileTree :=
  if path = "/dev/null" then .error .occupied
  else if path.startsWith "/" then .error .noEntry
  else makeDirsFrom t [] (components path)

/-- Writes a file into an existing directory. The null device swallows what is written. -/
def write (t : FileTree) (path text : String) : Except FileError FileTree :=
  if path = "/dev/null" then .ok t
  else if path.startsWith "/" then .error .noEntry
  else
    match (components path).getLast? with
    | none => .error .isADirectory
    | some name => do
      let dir ← resolve t [] (components path).dropLast
      let target := step dir name
      match t.get? target with
      | some none => throw .isADirectory
      | _ =>
        if path.endsWith "/" || path.endsWith "/." then throw .isADirectory
        return t.put target (some text)

end FileTree

/-- What a run of the program leaves behind. -/
structure Outcome where
  exit : Nat
  stdout : String := ""
  /-- The failure that was shown. -/
  stderr : String := ""
  /-- The entries that were created. -/
  files : FileTree := {}

/-- Carries out actions until one fails, after some output. -/
def runActions (final : Option Report) : List Action → Outcome → Outcome
  | [], o =>
    match final with
    | none => { o with exit := 0 }
    | some r => { o with exit := 1, stderr := r.render }
  | a :: rest, o =>
    let result : Except FileError Outcome :=
      match a with
      | .print text => .ok { o with stdout := o.stdout ++ text }
      | .makeDirs path => (o.files.makeDirs path).map fun t => { o with files := t }
      | .write path text => (o.files.write path text).map fun t => { o with files := t }
    match result with
    | .ok o => runActions final rest o
    | .error e => { o with exit := 1, stderr := (a.failure e.message).render }

/-- What the program leaves behind in an empty directory. -/
def outcomeOf (args : List String) : Outcome :=
  match scriptOf args with
  | .ok s => runActions s.failure s.actions { exit := 0 }
  | .error (text, code) => { exit := code, stdout := text }

end AffineLoops.CommandLine
