import ImageRecipe.Distribution.Basic
import ImageRecipe.Manifest.Basic
import ImageRecipe.Text.Split

/-! The arguments of the command line: options of the program, the name of a command, and the command's own
options and operands. Options of the program may also stand behind the name of the command. -/

namespace ImageRecipe.CommandLine

inductive Shell where
  | bash
  | elvish
  | fish
  | powershell
  | zsh
  deriving DecidableEq, Repr

namespace Shell

def all : List Shell := [.bash, .elvish, .fish, .powershell, .zsh]

def name : Shell → String
  | bash => "bash"
  | elvish => "elvish"
  | fish => "fish"
  | powershell => "powershell"
  | zsh => "zsh"

def ofName? (s : String) : Option Shell := all.find? fun x => x.name == s

end Shell

inductive CommandName where
  | build
  | lock
  | render
  | pull
  | clean
  | images
  | doctor
  | completions
  deriving DecidableEq, Repr

namespace CommandName

def all : List CommandName := [.build, .lock, .render, .pull, .clean, .images, .doctor, .completions]

def name : CommandName → String
  | build => "build"
  | lock => "lock"
  | render => "render"
  | pull => "pull"
  | clean => "clean"
  | images => "images"
  | doctor => "doctor"
  | completions => "completions"

def ofName? (s : String) : Option CommandName := all.find? fun c => c.name == s

/-- The name of the command that tells of the others. -/
def help : String := "help"

/-- Whether the command takes one more operand after those that it has. Manifests are paths, which are never
empty. -/
def takes (c : CommandName) (operands : List String) (operand : String) : Bool :=
  match c with
  | build => !operand.isEmpty
  | lock | render => operands.isEmpty && !operand.isEmpty
  | pull => operands.isEmpty
  | clean => true
  | images | doctor => false
  | completions => operands.isEmpty && (Shell.ofName? operand).isSome

def takesBackend : CommandName → Bool
  | pull | clean | images => true
  | _ => false

end CommandName

/-- Why arguments name no command to run. -/
inductive Stop where
  | help
  | version
  | misuse
  deriving DecidableEq, Repr

/-- Switches, which are options without a value. -/
inductive Switch where
  | json
  | verbose
  | trace
  deriving DecidableEq, Repr

/-- Options with a value. -/
inductive Key where
  | store
  | config
  | architecture
  | backend
  deriving DecidableEq, Repr

/-- What was given so far, by the program's options or behind a command's name. -/
structure Given where
  switches : List Switch := []
  store : Option String := none
  config : Option String := none
  architectures : List Architecture := []
  backend : Option BackendKind := none
  operands : List String := []

namespace Given

/-- Take in a switch, which may be given once. -/
def switch (g : Given) (s : Switch) : Except Stop Given :=
  if g.switches.contains s then .error .misuse else .ok { g with switches := s :: g.switches }

/-- The backend of a name, in letters of either case. -/
def backendOf? (s : String) : Option BackendKind :=
  BackendKind.ofName? (String.ofList (s.toList.map Char.toLower))

/-- Take in an option with its value. Only architectures may be given more than once. -/
def setting (g : Given) (k : Key) (value : String) : Except Stop Given :=
  match k with
  | .store => if g.store.isSome then .error .misuse else .ok { g with store := some value }
  | .config =>
    if g.config.isSome || value.isEmpty then .error .misuse else .ok { g with config := some value }
  | .architecture =>
    match Architecture.parse value with
    | .ok a => .ok { g with architectures := g.architectures ++ [a] }
    | .error _ => .error .misuse
  | .backend =>
    match g.backend, backendOf? value with
    | none, some b => .ok { g with backend := some b }
    | _, _ => .error .misuse

end Given

/-- What stands where options are read: before a command's name, or behind it. -/
abbrev Place := Option CommandName

/-- The meaning of an option's name. -/
inductive OptionMeaning where
  | switch (s : Switch)
  | setting (k : Key)
  | stop (s : Stop)

namespace Place

/-- The meaning of a name behind two hyphens. -/
def long? (p : Place) (name : String) : Option OptionMeaning :=
  match name with
  | "json" => some (.switch .json)
  | "verbose" => some (.switch .verbose)
  | "trace" => some (.switch .trace)
  | "store" => some (.setting .store)
  | "config" => some (.setting .config)
  | "help" => some (.stop .help)
  | "version" => if p.isNone then some (.stop .version) else none
  | "arch" => if p = some .lock then some (.setting .architecture) else none
  | "backend" => if p.any CommandName.takesBackend then some (.setting .backend) else none
  | _ => none

/-- Take in letters behind one hyphen. -/
def letters (p : Place) : List Char → Given → Except Stop Given
  | [], g => .ok g
  | 'v' :: r, g => do letters p r (← g.switch .verbose)
  | 'h' :: _, _ => .error .help
  | 'V' :: _, _ => .error (if p.isNone then .version else .misuse)
  | _ :: _, _ => .error .misuse

/-- Take in an operand. Before a command's name there are none. -/
def operand (p : Place) (g : Given) (s : String) : Except Stop Given :=
  match p with
  | none => .error .misuse
  | some c => if c.takes g.operands s then .ok { g with operands := g.operands ++ [s] } else .error .misuse

end Place

/-- An argument by its form. -/
inductive Argument where
  /-- Two hyphens, behind which all arguments are operands. -/
  | hyphens
  | long (name : String) (value : Option String)
  | letters (cs : List Char)
  | word

def Argument.ofText (s : String) : Argument :=
  match s.toList with
  | ['-', '-'] => hyphens
  | '-' :: '-' :: cs =>
    match Text.cutFirst '=' cs with
    | some (name, value) => long (String.ofList name) (some (String.ofList value))
    | none => long (String.ofList cs) none
  | '-' :: c :: cs => letters (c :: cs)
  | _ => word

/-- Whether an argument can be the value of the option before it. -/
def isValue (s : String) : Bool :=
  match Argument.ofText s with
  | .word => true
  | _ => false

/-- Read the arguments at a place. Before a command's name the first word ends the reading; it is left with
what follows it. -/
def read (p : Place) : Given → List String → Except Stop (Given × List String)
  | g, [] => .ok (g, [])
  | g, s :: r =>
    match Argument.ofText s with
    | .hyphens => do
      let g ← r.foldlM p.operand g
      pure (g, [])
    | .word =>
      if p.isNone then .ok (g, s :: r)
      else do read p (← p.operand g s) r
    | .letters cs => do read p (← p.letters cs g) r
    | .long name value =>
      match p.long? name, value, r with
      | some (.switch x), none, r => do read p (← g.switch x) r
      | some (.stop x), none, _ => .error x
      | some (.setting k), some v, r => do read p (← g.setting k v) r
      | some (.setting k), none, v :: r => do
        if isValue v then read p (← g.setting k v) r else throw .misuse
      | _, _, _ => .error .misuse

inductive Command where
  | build (manifests : List String)
  | lock (manifest : String) (architectures : List Architecture)
  | render (manifest : String)
  | pull (reference : String) (backend : BackendKind)
  | clean (tags : List String) (backend : BackendKind)
  | images (backend : BackendKind)
  | doctor
  | completions (shell : Shell)
  deriving DecidableEq, Repr

/-- The manifest that is read if none is named. -/
def usualManifest : String := "kiln.toml"

namespace Command

/-- The command of a name with what was given behind it. -/
def ofGiven? (c : CommandName) (g : Given) : Option Command :=
  let backend := g.backend.getD .daemon
  let manifest := g.operands.head?.getD usualManifest
  match c, g.operands with
  | .build, [] => some (build [usualManifest])
  | .build, l => some (build l)
  | .lock, _ => some (lock manifest g.architectures)
  | .render, _ => some (render manifest)
  | .pull, [reference] => some (pull reference backend)
  | .clean, tag :: r => some (clean (tag :: r) backend)
  | .images, _ => some (images backend)
  | .doctor, _ => some doctor
  | .completions, [s] => (Shell.ofName? s).map completions
  | _, _ => none

/-- The backend that a command itself names, not a manifest. -/
def backend? : Command → Option BackendKind
  | pull _ b | clean _ b | images b => some b
  | _ => none

end Command

/-- A command with the options of the program. -/
structure Invocation where
  store : Option String
  config : Option String
  json : Bool
  command : Command
  deriving DecidableEq, Repr

namespace Invocation

/-- The names behind the help command, which must be one of a command at most. -/
def helpStop (names : List String) : Stop :=
  match names with
  | [] => .help
  | [name] => if name = CommandName.help || (CommandName.ofName? name).isSome then .help else .misuse
  | _ => .misuse

/-- The invocation that arguments mean. Options behind the command's name win over those before it. -/
def parse (arguments : List String) : Except Stop Invocation := do
  match ← read none {} arguments with
  | (_, []) => throw .misuse
  | (outer, name :: r) =>
    match CommandName.ofName? name with
    | none => throw (if name = CommandName.help then helpStop r else .misuse)
    | some c =>
      let (inner, _) ← read (some c) {} r
      match Command.ofGiven? c inner with
      | none => throw .misuse
      | some command =>
        pure {
          store := inner.store <|> outer.store
          config := inner.config <|> outer.config
          json := inner.switches.contains .json || outer.switches.contains .json
          command }

end Invocation

end ImageRecipe.CommandLine
