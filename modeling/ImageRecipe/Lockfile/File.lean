import ImageRecipe.Lockfile.Text
import ImageRecipe.Host.Basic

/-! Lockfiles on disk. -/

namespace ImageRecipe.Lockfile

/-- Write a lockfile as a whole; its directory must be there. -/
def save (l : Lockfile) (path : String) : HostM LockError Unit :=
  (Host.replaceFile path (Text.bytes l.render)).failingAs .io

def load (path : String) : HostM LockError Lockfile := do
  HostM.ofExcept (parse (← (Host.readText path).failingAs .io))

end ImageRecipe.Lockfile
