/-! Operating system distributions, their package managers and the processor architectures that images
are built for. -/

namespace ImageRecipe

inductive PackageManager where
  | apt
  | yum
  | apk
  deriving DecidableEq, Repr

inductive Distribution where
  | ubuntu
  | debian
  | centos
  | alpine
  deriving DecidableEq, Repr

inductive Architecture where
  | x86
  | arm
  deriving DecidableEq, Repr

inductive DistributionError where
  | unknown (name : String)
  | unknownArchitecture (name : String)
  | isolationUnsupported (distribution : Distribution)
  deriving DecidableEq, Repr

namespace Distribution

/-- Every distribution, in the order in which lockfiles list them. -/
def all : List Distribution := [.ubuntu, .debian, .centos, .alpine]

def name : Distribution → String
  | .ubuntu => "ubuntu"
  | .debian => "debian"
  | .centos => "centos"
  | .alpine => "alpine"

/-- The distribution of a name. -/
def ofName? (s : String) : Option Distribution := all.find? fun d => d.name == s

/-- The distribution of a name in letters of either case. -/
def parse (s : String) : Except DistributionError Distribution :=
  let lower := String.ofList (s.toList.map Char.toLower)
  match ofName? lower with
  | some d => .ok d
  | none => .error (.unknown lower)

def packageManager : Distribution → PackageManager
  | .ubuntu | .debian => .apt
  | .centos => .yum
  | .alpine => .apk

end Distribution

namespace Architecture

def all : List Architecture := [.x86, .arm]

def name : Architecture → String
  | .x86 => "x86_64"
  | .arm => "aarch64"

/-- The architecture of its own name. -/
def ofName? (s : String) : Option Architecture := all.find? fun a => a.name == s

/-- The architecture of its own name or of the name that APT gives it. -/
def parse (s : String) : Except DistributionError Architecture :=
  if s = "x86_64" || s = "amd64" then .ok .x86
  else if s = "aarch64" || s = "arm64" then .ok .arm
  else .error (.unknownArchitecture s)

/-- The platform that container engines know an architecture by. -/
def platform : Architecture → String
  | .x86 => "linux/amd64"
  | .arm => "linux/arm64"

/-- The architecture as a package manager spells it. -/
def packageName : PackageManager → Architecture → String
  | .apt, .x86 => "amd64"
  | .apt, .arm => "arm64"
  | _, .x86 => "x86_64"
  | _, .arm => "aarch64"

end Architecture

/-- Whether packages of a named architecture can be installed everywhere. -/
def isArchIndependent (architecture : String) : Bool :=
  architecture == "noarch" || architecture == "all"

def DistributionError.message : DistributionError → String
  | .unknown name =>
    "unknown distribution '" ++ name ++ "', expected one of: ubuntu, debian, centos, alpine"
  | .unknownArchitecture name => "unknown architecture '" ++ name ++ "', expected x86_64 or aarch64"
  | .isolationUnsupported d => d.name ++ " does not support installing from an isolated local repository"

end ImageRecipe
