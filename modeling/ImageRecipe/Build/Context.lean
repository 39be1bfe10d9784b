import ImageRecipe.Archive.Header
import ImageRecipe.Build.Workshop

/-! Build contexts: all that a build reads besides its plan. Two builds of one plan can share an image only
if their contexts have the same digest. -/

namespace ImageRecipe.BuildContext

/-- The lines for the images of base projects. -/
def baseLines (instructions : List Instruction) : String :=
  String.join (instructions.filterMap fun
    | .builtBase project _ (some imageId) => some ("base " ++ project ++ " " ++ imageId ++ "\n")
    | _ => none)

/-- The layers that are copied, sorted, each of them once. -/
def copiedLayers (instructions : List Instruction) : List Nat :=
  (SortedSet.ofList (instructions.filterMap fun
    | .copy layer _ => some layer
    | _ => none)).toList

/-- The mounts that the commands of a plan see; none if there are no commands. -/
def visibleMounts : Plan → List (String × String)
  | .daemon p => if p.directives.any fun d => d.startsWith "RUN" then p.mounts.entries else []
  | .direct _ => []

/-- What there is at a path: a directory counts as its archive, anything but a directory or a file as
missing. -/
def sourceBytes (path : String) : BuildM (List UInt8) := do
  let inspect := fun {α : Type} (f : FileTree → Location → String → Except Fault α) =>
    Workshop.onHost (fun e => .store (.io e)) (Host.inspect f path)
  let h := (← get).host
  if h.files.isDirectory h.directory path then
    inspect fun t d p => Archive.packDirectory t d p {}
  else if h.files.isFile h.directory path then
    pure (Archive.bytesOfText "file\n" ++ (← Workshop.onHost .io (Host.readBytes path)).toList)
  else pure (Archive.bytesOfText "missing\n")

/-- A heading line, and what there is at a path. -/
def headed (heading path : String) : BuildM (List UInt8) := do
  pure (Archive.bytesOfText (heading ++ "\n") ++ (← sourceBytes path))

/-- All bytes of the context of a plan: base images, copied layers and visible mounts. -/
def stream (w : WorkDirectory) (instructions : List Instruction) (p : Plan) : BuildM (List UInt8) := do
  let layers ← (copiedLayers instructions).mapM fun n => headed ("layer" ++ Text.decimal n) (w.layer n)
  let mounts ← (visibleMounts p).mapM fun m => headed ("mount " ++ m.1) (w.path m.2)
  pure (Archive.bytesOfText (baseLines instructions) ++ layers.flatten ++ mounts.flatten)

def digest (w : WorkDirectory) (instructions : List Instruction) (p : Plan) : BuildM String := do
  pure (Blake3.hex ⟨(← stream w instructions p).toArray⟩)

end ImageRecipe.BuildContext
