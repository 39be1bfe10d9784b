import ImageRecipe.Plan.Basic

/-! The files that a container engine's build reads: the build file with its directives, and the list of
what the build may see of the work directory. -/

namespace ImageRecipe

/-- The line that stands above and below the notice in a build file. -/
def bannerRule : String := "##########################################################"

/-- The comment that opens every build file. -/
def buildFileBanner : String := "\n".intercalate [
  bannerRule,
  "#                                                        #",
  "#        Auto generated build file. Do not edit.         #",
  "#              Regenerate with: kiln render              #",
  "#                                                        #",
  bannerRule]

/-- The line that asks for a version of the build-file syntax. -/
def buildFileSyntax : String := "# syntax = docker/dockerfile:1.3"

namespace DaemonPlan

/-- The text of the build file: the banner, the syntax line and the directives one below the other. -/
def buildFile (p : DaemonPlan) : String :=
  buildFileBanner ++ "\n" ++ buildFileSyntax ++ "\n" ++ "\n".intercalate p.directives ++ "\n"

/-- The list of excluded paths: everything but the layer directories and the sources of mounts. -/
def ignoreManifest (p : DaemonPlan) : String :=
  "**\n" ++ String.join ((contextDirectory :: p.mounts.values).map fun s => "!" ++ s ++ "\n")

end DaemonPlan

end ImageRecipe
