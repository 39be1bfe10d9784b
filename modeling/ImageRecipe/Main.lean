import ImageRecipe.CommandLine.Basic

/-! The program. It takes in the files that the command can read, does what the arguments say, and writes
back what has changed. It cannot start other programs: no file that it takes in is executable. -/

namespace ImageRecipe.Program

/-- The variables that the program looks at. -/
def variableNames : List String :=
  ["HOME", "XDG_CONFIG_HOME", "XDG_DATA_HOME", "LANG", "LC_ALL", CommandLine.Invocation.skipVariable]

def placeOf (path : String) : Location :=
  (RawPath.ofText path).names.filter fun n => n ≠ []

def pathOf (l : Location) : String := "/" ++ l.text

/-- Take in a file, or a directory with everything below it, unless it is there already. -/
partial def load (t : FileTree) (path : String) : IO FileTree := do
  let p ← IO.FS.realPath path
  let place := placeOf p.toString
  if !place.isEmpty && (t.entry? place).isSome then return t
  let t := (t.makePath [] (pathOf place.dropLast)).toOption.getD t
  match (← p.metadata).type with
  | .dir => do
    let mut t := t.put place (.directory directoryMode)
    for e in ← p.readDir do
      t ← try load t e.path.toString catch _ => pure t
    pure t
  | .file => do pure (t.put place (.file openedMode (← IO.FS.readBinFile p)))
  | _ => pure t

/-- Write back what has changed. -/
def save (before after : FileTree) : IO Unit := do
  for (l, e) in before.entries.entries.reverse do
    if (after.entry? l).isNone then
      if e.isDirectory then IO.FS.removeDir (pathOf l) else IO.FS.removeFile (pathOf l)
  for (l, e) in after.entries.entries do
    if before.entry? l ≠ some e then
      match e with
      | .directory _ => IO.FS.createDirAll (pathOf l)
      | .file _ data => IO.FS.writeBinFile (pathOf l) data
      | _ => pure ()

/-- The directories in which a command finds its files: the working directory, those of the user's settings
and data, and those of the paths among the arguments. -/
def directories (environment : List (String × String)) (arguments : List String) : List String :=
  let under := fun (name path : String) => (environment.lookup name).map fun d => Path.join d path
  let user := [under "XDG_CONFIG_HOME" "kiln", under "HOME" ".config/kiln", under "XDG_DATA_HOME" "kiln",
    under "HOME" ".local/share/kiln"]
  let values := arguments.map fun a => ((Text.cutFirst '=' a.toList).map fun p => String.ofList p.2).getD a
  "." :: user.filterMap id ++ values ++ values.map Path.directory

/-- The time of day, which the file system puts on a new file. -/
def now : IO Instant := do
  let (_, path) ← IO.FS.createTempFile
  let time := (← path.metadata).modified
  IO.FS.removeFile path
  pure (Instant.ofSeconds time.sec.toNat time.nsec.toNat)

def run (arguments : List String) : IO UInt32 := do
  let environment ← variableNames.filterMapM fun n => do pure ((← IO.getEnv n).map fun v => (n, v))
  let mut files := FileTree.empty
  for path in directories environment arguments do
    files ← try load files path catch _ => pure files
  let directory := placeOf (← IO.currentDir).toString
  let host : Host :=
    { files, directory, environment := SortedMap.ofList environment, clock := ← now }
  let (report, after) := CommandLine.run arguments host
  save files after.files
  (← IO.getStdout).putStr report.output
  (← IO.getStderr).putStr report.errors
  pure (UInt32.ofNat report.code)

end ImageRecipe.Program

def main (arguments : List String) : IO UInt32 := ImageRecipe.Program.run arguments
