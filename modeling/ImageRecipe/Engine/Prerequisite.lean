import ImageRecipe.Engine.Call

/-! What builds through the container engine need on the host. -/

namespace ImageRecipe

/-- Something that is not there, and how to come by it. -/
structure Prerequisite where
  name : String
  purpose : String
  hint : String
  deriving DecidableEq, Repr

namespace Prerequisite

def line (p : Prerequisite) : String :=
  "  - " ++ p.name ++ ": " ++ p.purpose ++ " (install: " ++ p.hint ++ ")"

/-- The engine as a prerequisite. -/
def ofEngine (e : Engine) : Prerequisite where
  name := e.program
  purpose := "building images through the container engine"
  hint := "install Docker Engine 19 or newer, or set engine in ~/.config/kiln/config.toml"

/-- What is missing for builds through an engine. -/
def missing {ε : Type} (e : Engine) : HostM ε (List Prerequisite) := do
  pure (if ← e.isAvailable then [] else [ofEngine e])

/-- The notice about what is missing. -/
def notice (l : List Prerequisite) : String :=
  "missing prerequisites:\n" ++ String.join (l.map fun p => p.line ++ "\n") ++
    "\nThe daemon backend needs these tools; the direct backend does not."

end Prerequisite

end ImageRecipe
