import ImageRecipe.CommandLine.Arguments

/-! What the command line says about itself: its version, its commands, and how shells complete them. -/

namespace ImageRecipe.CommandLine

def programName : String := "kiln"

def versionLine : String := programName ++ " 0.1.0\n"

def CommandName.purpose : CommandName → String
  | build => "Build images from manifests, in the order given"
  | lock => "Resolve requested packages to exact pins and write the lockfile"
  | render => "Print the compiled build plan without building"
  | pull => "Pull an image reference, retrying transient failures"
  | clean => "Remove images by tag"
  | images => "List local image tags"
  | doctor => "Run diagnostic checks on the container engine and store"
  | completions => "Generate shell completions"

/-- The program's purpose, the form of its arguments and a line for each command. -/
def helpText : String :=
  "Compile declarative image instructions into reproducible container images\n\n" ++
    "Usage: " ++ programName ++ " [OPTIONS] <COMMAND>\n\nCommands:\n" ++
    String.join (CommandName.all.map fun c => "  " ++ c.name ++ ": " ++ c.purpose ++ "\n") ++
    "\nOptions:\n" ++
    "  --store <DIR>: the store directory\n" ++
    "  --config <FILE>: the configuration file\n" ++
    "  --json: print results as JSON\n" ++
    "  -v, --verbose: print more about what is done\n" ++
    "  --trace: print still more\n" ++
    "  -h, --help: print this help\n" ++
    "  -V, --version: print the version\n"

def misuseText : String :=
  "error: the arguments cannot be understood\n\nFor more information, try '--help'.\n"

/-- The names of all commands with blanks between them. -/
def commandNames : String := " ".intercalate (CommandName.all.map CommandName.name)

/-- A line by which a shell learns the names of the commands. -/
def Shell.completions : Shell → String
  | bash => "complete -W '" ++ commandNames ++ "' " ++ programName ++ "\n"
  | zsh => "compctl -k '(" ++ commandNames ++ ")' " ++ programName ++ "\n"
  | fish => "complete -c " ++ programName ++ " -f -a '" ++ commandNames ++ "'\n"
  | elvish =>
    "set edit:completion:arg-completer[" ++ programName ++ "] = \x7b|@words| put " ++ commandNames ++ " \x7d\n"
  | powershell =>
    "Register-ArgumentCompleter -Native -CommandName " ++ programName ++ " -ScriptBlock \x7b -split '" ++
      commandNames ++ "' \x7d\n"

end ImageRecipe.CommandLine
