import ImageRecipe.Distribution.Basic

/-! The shell commands by which packages are installed inside an image, from the repositories of the
distribution or from a local mirror alone. -/

namespace ImageRecipe

/-- Where the local package mirror is mounted during a build. -/
def packagesTarget : String := "/var/kiln-packages"

/-- The mark in the names of index files that are shipped beside packages. -/
def metaMarker : String := "__META__"

/-- A repository definition that points a package manager at the local mirror. -/
structure RepositoryDefinition where
  fileName : String
  contents : String
  /-- The path in the image whose definitions it replaces. -/
  target : String
  /-- Whether the whole directory of definitions is replaced, or one file. -/
  wholeDirectory : Bool
  deriving DecidableEq, Repr

namespace Distribution

/-- The command that installs packages by their references. -/
def installCommand (d : Distribution) (references : List String) : String :=
  let command := match d.packageManager with
    | .apt => "apt-get install -y"
    | .yum => "yum install --setopt=skip_missing_names_on_install=False -y"
    | .apk => "apk add"
  if references.isEmpty then command else command ++ " " ++ " ".intercalate references

/-- An install command between the refresh of the index and the clean-up. In isolation the index comes
from the local mirror alone and every trace of it is removed. -/
def wrapInstall (d : Distribution) (isolate : Bool) (install : String) :
    Except DistributionError (List String) :=
  match d.packageManager, isolate with
  | .apt, false => .ok [
      "rm -f /etc/apt/apt.conf.d/docker-clean",
      "echo 'Binary::apt::APT::Keep-Downloaded-Packages \"true\";' > /etc/apt/apt.conf.d/docker-dirty",
      "apt-get update",
      install]
  | .apt, true => .ok [
      "cp " ++ packagesTarget ++ "/" ++ metaMarker ++ "Packages* " ++ packagesTarget ++ "/Packages.gz",
      "apt-get update",
      install,
      "apt-get clean",
      "rm -rf /var/lib/apt/lists/* /tmp/* /var/tmp/* /etc/apt/apt.conf.d/90sslConfig"]
  | .yum, false => .ok [install]
  | .yum, true => .ok [
      "cd " ++ packagesTarget ++ "/",
      "tar -xf " ++ metaMarker ++ "repodata*",
      install,
      "yum clean all",
      "rm -rf /var/cache/yum /tmp/* /var/tmp/*"]
  | .apk, false => .ok ["apk update", install, "rm -rf /var/cache/apk/*"]
  | .apk, true => .error (.isolationUnsupported d)

/-- The definition of the local mirror under a repository name. -/
def localRepository (d : Distribution) (name : String) : Except DistributionError RepositoryDefinition :=
  match d.packageManager with
  | .apt => .ok {
      fileName := "sources.list"
      contents := "deb [trusted=yes] file://" ++ packagesTarget ++ " /\n"
      target := "/etc/apt/sources.list"
      wholeDirectory := false }
  | .yum => .ok {
      fileName := name ++ ".repo"
      contents := "[" ++ name ++ "]\nname=" ++ name ++ "\nbaseurl=file://" ++ packagesTarget ++
        "\nenabled=1\ngpgcheck=0\n"
      target := "/etc/yum.repos.d"
      wholeDirectory := true }
  | .apk => .error (.isolationUnsupported d)

end Distribution

end ImageRecipe
