import ImageRecipe.Archive.Header
import ImageRecipe.Backend.Error
import ImageRecipe.Store.Images
import ImageRecipe.WorkDirectory

/-! The direct backend: layers are packed and kept in the store, and images are records of layers. -/

namespace ImageRecipe.Direct

/-- How the files of a layer are packed. -/
def layerOptions (l : Layer) : Except StoreError LayerOptions := do
  match Ownership.parse l.owner with
  | .ok owner => pure { destination := l.destination, owner, permissions := l.permissions }
  | .error spec => throw (.invalidOwnership spec)

variable (s : Store)

/-- Pack a layer and keep its archive. A layer without files is a layer all the same. -/
def putLayer (w : WorkDirectory) (l : Layer) : StoreM LayerRecord := do
  let source := Path.join w.root l.source
  if !(← Host.isDirectory source) then throw (.missingLayer l.ordinal source)
  let options ← HostM.ofExcept (layerOptions l)
  let archive ← Store.onFiles
    (Host.inspect (fun t d p => Archive.packDirectory t d p options) source)
  let data : ByteArray := ⟨archive.toArray⟩
  let digest ← s.putObject data
  pure ⟨l.ordinal, digest, data.size, l.destination⟩

/-- Keep the layers of a plan and the record of its image under a tag. -/
def putPlan (p : DirectPlan) (w : WorkDirectory) (tag : String) : StoreM String := do
  s.prepare
  let layers ← p.layers.mapM (putLayer s w)
  s.putImage ⟨p.base, layers, p.env, p.user, p.healthCheck⟩ tag

def materialize (p : Plan) (w : WorkDirectory) (tag : String) : BackendM BuildResult := do
  match p with
  | .daemon _ => throw (.planMismatch .direct p.builder)
  | .direct p =>
    let imageId ← (putPlan s p w tag).failingAs .store
    pure ⟨tag, imageId, .direct, ← Host.now⟩

/-- Remove a tag, and say so if there was none. -/
def remove (tag : String) : BackendM String := do
  let found ← (s.untag tag).failingAs .store
  pure (if found then "" else "No such image: " ++ tag)

def images : BackendM (List String) := do
  pure ((← s.listTags.failingAs .store).map TagEntry.tag)

end ImageRecipe.Direct
