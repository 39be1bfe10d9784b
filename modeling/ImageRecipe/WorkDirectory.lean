import ImageRecipe.Store.Basic
import ImageRecipe.Image.Result

/-! Work directories: the files that a build finds there and those that it leaves. -/

namespace ImageRecipe.WorkDirectory

variable (w : WorkDirectory)

/-- Make the directories that a build needs. Repository definitions of an earlier build are removed. -/
def prepare : StoreM Unit := do
  if !(← Host.isDirectory w.root) then throw (.missingWorkDirectory w.root)
  Store.onFiles (Host.makePath w.context)
  Store.onFiles (Host.makePath w.ephemeral)
  Store.onFiles (Host.makePath w.packages)
  if ← Host.pathExists w.repositories then Store.onFiles (Host.removeTree w.repositories)
  Store.onFiles (Host.makePath w.repositories)

/-- Write a repository definition, and give its path. -/
def writeRepository (name contents : String) : StoreM String := do
  let path := Path.join w.repositories name
  Store.onFiles (Host.writeText path contents)
  pure path

def writeBuildFile (text : String) : StoreM Unit := Store.onFiles (Host.writeText w.buildFile text)

def writeIgnoreFile (text : String) : StoreM Unit := Store.onFiles (Host.writeText w.ignoreFile text)

/-- The image id that the engine left. -/
def readImageId : StoreM String := do
  pure (Text.trim (← Store.onFiles (Host.readText w.imageIdFile)))

def writeResult (r : BuildResult) : StoreM Unit := Store.writeDocument w.resultFile r.toDocument

def readResult : StoreM BuildResult := Store.readDocument none BuildResult.ofDocument? w.resultFile

end ImageRecipe.WorkDirectory
