import ImageRecipe.Distribution.Basic
import ImageRecipe.Files.Tree
import ImageRecipe.Time.Instant
import ImageRecipe.Text.Utf8

/-! The host that images are built on: its files, its environment, its clock and the container engine that
is installed on it. What the engine answers is given beforehand, one reply for each call. -/

namespace ImageRecipe

/-- What a call of the container engine does: it writes to its two outputs, may leave an image id in the
file it was told of, and ends with a code unless it is killed. -/
structure Reply where
  output : ByteArray := ByteArray.empty
  errors : ByteArray := ByteArray.empty
  imageId : Option ByteArray := none
  code : Option Nat := some 0

/-- A call of the container engine. -/
structure Call where
  arguments : List String
  environment : List (String × String)
  directory : Location
  deriving DecidableEq, Repr

structure Host where
  architecture : Architecture := .x86
  files : FileTree := FileTree.empty
  /-- The working directory. -/
  directory : Location := []
  environment : SortedMap String String := SortedMap.empty
  /-- Paths of the programs that scripts can be run by. -/
  interpreters : List String := ["/bin/sh"]
  clock : Instant := ⟨⟨1970, 1, 1⟩, 0, 0, 0, 0⟩
  /-- What the engine will answer, call by call; after the last reply every call does nothing. -/
  replies : List Reply := []
  /-- The calls of the engine so far, the last first. -/
  calls : List Call := []
  /-- The delays in milliseconds that were slept, the last first. -/
  sleeps : List Nat := []
  /-- Whether the user asked to stop. -/
  cancelled : Bool := false

/-- Actions on the host that may fail; what they did before they failed stays done. -/
abbrev HostM (ε : Type) := ExceptT ε (StateM Host)

namespace HostM

variable {ε δ α : Type}

/-- The same action with its failures told in other words. -/
def failingAs (wrap : δ → ε) (x : HostM δ α) : HostM ε α := ExceptT.adapt wrap x

/-- A value that was computed without the host. -/
def ofExcept (x : Except ε α) : HostM ε α :=
  match x with
  | .ok a => pure a
  | .error e => throw e

/-- The outcome of an action, whether it failed or not. -/
def outcome (x : HostM ε α) : HostM δ (Except ε α) := ExceptT.mk do
  let r ← x.run
  pure (.ok r)

end HostM

namespace Host

variable {ε α : Type}

/-- Look at the files from the working directory. -/
def look (f : FileTree → Location → String → α) (path : String) : HostM ε α := do
  let h ← get
  pure (f h.files h.directory path)

/-- Look at the files, which may fail. -/
def inspect (f : FileTree → Location → String → Except Fault α) (path : String) : HostM Fault α := do
  HostM.ofExcept (← look f path)

/-- Change the files; if that fails they stay as they are. -/
def change (f : FileTree → Location → String → Except Fault FileTree) (path : String) :
    HostM Fault Unit := do
  let files ← HostM.ofExcept (← look f path)
  modify fun h => { h with files }

def readBytes (path : String) : HostM Fault ByteArray := inspect FileTree.read path

def readText (path : String) : HostM Fault String := do
  match Text.ofBytes? (← readBytes path) with
  | some s => pure s
  | none => throw .notUtf8

def pathExists (path : String) : HostM ε Bool := look FileTree.pathExists path

def isDirectory (path : String) : HostM ε Bool := look FileTree.isDirectory path

def isFile (path : String) : HostM ε Bool := look FileTree.isFile path

/-- The names in a directory; those that spell no text are passed over. -/
def list (path : String) : HostM Fault (List String) := do
  pure ((← inspect FileTree.list path).filterMap FileName.text?)

def makePath (path : String) : HostM Fault Unit := change FileTree.makePath path

/-- Put a file in its place as a whole, whatever stood there before. -/
def replaceFile (path : String) (data : ByteArray) : HostM Fault Unit :=
  change (fun t d p => t.write d p data) path

/-- Write a file as a whole, and then open its directory to make sure that the file lasts. -/
def writeBytes (path : String) (data : ByteArray) : HostM Fault Unit := do
  replaceFile path data
  inspect FileTree.openReadable (Path.directory path)

def writeText (path : String) (s : String) : HostM Fault Unit := writeBytes path (Text.bytes s)

def openFile (path : String) : HostM Fault Unit := change FileTree.openFile path

def remove (path : String) : HostM Fault Unit := change FileTree.remove path

def removeTree (path : String) : HostM Fault Unit := change FileTree.removeTree path

/-- The value of a variable of the environment. -/
def readVariable (name : String) : HostM ε (Option String) := do
  pure ((← get).environment.get? name)

def now : HostM ε Instant := do pure (← get).clock

def sleep (milliseconds : Nat) : HostM ε Unit :=
  modify fun h => { h with sleeps := milliseconds :: h.sleeps }

def ownArchitecture : HostM ε Architecture := do pure (← get).architecture

def isCancelled : HostM ε Bool := do pure (← get).cancelled

end Host

end ImageRecipe
