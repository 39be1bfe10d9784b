import ImageRecipe.Host.Basic
import ImageRecipe.Text.Split

/-! Calls of the container engine. A call sees three variables and nothing else of the environment, so that
the settings of the host cannot change an image. -/

namespace ImageRecipe

/-- A container engine, known by its program. -/
structure Engine where
  program : String
  deriving DecidableEq, Repr

/-- What a call of the engine came to. -/
structure EngineOutput where
  /-- The code that the engine ended with, unless it was killed. -/
  code : Option Nat
  output : String
  errors : String
  deriving DecidableEq, Repr

namespace EngineOutput

def succeeded (o : EngineOutput) : Bool := o.code == some 0

/-- The output and then the errors, which begin on a line of their own. -/
def log (o : EngineOutput) : String :=
  let ended := o.output.isEmpty || o.output.toList.getLast? == some '\n'
  o.output ++ (if ended then "" else "\n") ++ o.errors

end EngineOutput

/-- Why a call of the engine came to nothing. -/
inductive CallError where
  | notStarted (program : String) (fault : Fault)
  | cancelled
  deriving DecidableEq, Repr

namespace Engine

/-- The option by which the engine is told where to leave the id of the image that it builds. -/
def imageIdOption : String := "--iidfile="

/-- The files that a call is told to leave the image id in. -/
def imageIdTargets (arguments : List String) : List String :=
  arguments.filterMap fun a => (Text.dropStart? imageIdOption.toList a.toList).map String.ofList

/-- The variables that a call sees. -/
def environment {ε : Type} : HostM ε (List (String × String)) := do
  let language := (← Host.readVariable "LANG").getD "C.UTF-8"
  let all := (← Host.readVariable "LC_ALL").getD language
  pure [("LANG", language), ("LC_ALL", all), ("DOCKER_BUILDKIT", "1")]

/-- The directory that a call runs in: the working directory unless another one is named. -/
def callDirectory (directory : Option String) : HostM Fault Location := do
  let h ← get
  match directory with
  | none => pure h.directory
  | some path =>
    let place ← HostM.ofExcept (h.files.resolve true h.directory path)
    match h.files.entry? place with
    | some (.directory _) => pure place
    | some _ => throw .notDirectory
    | none => throw .notFound

/-- Whether a program is named by a path. Other programs are looked for among the commands of the host. -/
def isPath (program : String) : Bool := program.toList.contains '/'

/-- How many bytes at the beginning of a script tell its interpreter. -/
def scriptHeadSize : Nat := 256

/-- The interpreter of a script: the first word behind `#!` on its first line, which must end where the
beginning is still looked at. -/
def interpreter? (script : ByteArray) : Option RawPath :=
  let head := script.toList.take scriptHeadSize
  let isBlank := fun (b : UInt8) => b = 0x20 || b = 0x09
  match head with
  | 0x23 :: 0x21 :: r =>
    let word := ((r.takeWhile fun b => b ≠ 0x0a).dropWhile isBlank).takeWhile fun b => !isBlank b && b ≠ 0
    if word.isEmpty || (head.length = scriptHeadSize && (r.dropWhile isBlank).length = word.length) then none
    else some word
  | _ => none

/-- How deep scripts may be nested whose interpreters are scripts. -/
def scriptDepth : Nat := 5

/-- Fail unless the program at a path can be started from a directory. -/
def checkProgram (h : Host) (directory : Location) : Nat → String → Except Fault Unit
  | 0, _ => .error .tooManyLinks
  | depth + 1, path =>
    if h.interpreters.contains path then .ok ()
    else do
      let e ← h.files.status directory path
      match e with
      | .file _ data =>
        if !e.grants .execute then throw .permissionDenied
        match interpreter? data with
        | some interpreter => checkProgram h directory depth interpreter.text
        | none => throw .badProgram
      | _ => throw .permissionDenied

/-- Fail unless the program can be started from a directory. -/
def startFrom (e : Engine) (directory : Location) : HostM Fault Unit := do
  if !isPath e.program then throw .notFound
  HostM.ofExcept (checkProgram (← get) directory scriptDepth e.program)

/-- Fail unless the system takes the words of a call. -/
def checkWords (words : List String) : Except Fault Unit :=
  if words.any fun w => w.toList.contains '\x00' then .error .nulInCall else .ok ()

/-- The host after an image id was left at a path. -/
def leaveImageId (directory : Location) (id : ByteArray) (h : Host) (path : String) : Host :=
  match h.files.resolve true directory path with
  | .error _ => h
  | .ok place =>
    match h.files.entry? place with
    | some (.file mode _) => { h with files := h.files.put place (.file mode id) }
    | none => { h with files := h.files.put place (.file openedMode id) }
    | some _ => h

/-- Call the engine with arguments in a directory and wait until it ends. That it ends with a code other
than zero is no failure of the call. -/
def call (e : Engine) (directory : Option String) (arguments : List String) : HostM CallError EngineOutput := do
  let start : HostM Fault Location := do
    HostM.ofExcept (checkWords (e.program :: arguments ++ directory.toList))
    let place ← callDirectory directory
    e.startFrom place
    pure place
  let place ← start.failingAs (.notStarted e.program)
  if ← Host.isCancelled then throw .cancelled
  let environment ← environment
  let h ← get
  let reply := h.replies.head?.getD {}
  let h := { h with
    replies := h.replies.tail
    calls := ⟨arguments, environment, place⟩ :: h.calls }
  set (match reply.imageId with
    | some id => (imageIdTargets arguments).foldl (leaveImageId place id) h
    | none => h)
  pure ⟨reply.code, Text.ofBytesLossy reply.output, Text.ofBytesLossy reply.errors⟩

/-- Whether the engine's program is there, be it executable or not. -/
def isAvailable {ε : Type} (e : Engine) : HostM ε Bool :=
  if isPath e.program then Host.isFile e.program else pure false

end Engine

end ImageRecipe
