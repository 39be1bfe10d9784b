import ImageRecipe.Store.Basic
import ImageRecipe.Digest.Blake3

/-! Objects: byte contents that are kept and found by their digests. Reading checks the digest. -/

namespace ImageRecipe.Store

variable (s : Store)

/-- The directory of objects whose digests begin alike: the first two bytes of the digest, or all of it
where it cannot be cut there. -/
def fan (hash : String) : String :=
  match hash.toList with
  | a :: b :: _ =>
    if a.utf8Size = 1 && b.utf8Size = 1 then String.ofList [a, b]
    else if a.utf8Size = 2 then String.ofList [a]
    else hash
  | _ => hash

/-- Where the object of a digest lies. -/
def objectPath (hash : String) : String := Path.join (Path.join s.objects (fan hash)) hash

/-- Keep a content, and give its digest. -/
def putObject (data : ByteArray) : StoreM String := do
  let hash := Blake3.hex data
  let path := s.objectPath hash
  if !(← Host.pathExists path) then
    match Path.parent? path with
    | some directory => onFiles (Host.makePath directory)
    | none => pure ()
    onFiles (Host.writeBytes path data)
  pure hash

/-- The content of a digest. -/
def getObject (hash : String) : StoreM ByteArray := do
  let path := s.objectPath hash
  if !(← Host.pathExists path) then throw (.objectNotFound hash)
  let data ← onFiles (Host.readBytes path)
  let actual := Blake3.hex data
  if actual ≠ hash then throw (.integrity hash actual)
  pure data

def objectExists {ε : Type} (hash : String) : HostM ε Bool := Host.pathExists (s.objectPath hash)

/-- Remove the content of a digest, if it is there. -/
def removeObject (hash : String) : StoreM Unit := do
  let path := s.objectPath hash
  if ← Host.pathExists path then onFiles (Host.remove path)

/-- Whether a name begins with a dot, as those of files that are not yet complete do. -/
def isHidden (name : String) : Bool := name.toList.head? == some '.'

/-- The digests of all objects, sorted. -/
def listObjects : StoreM (List String) := do
  if !(← Host.pathExists s.objects) then return []
  let fans ← onFiles (Host.list s.objects)
  let hashes ← fans.mapM fun fan => do
    let path := Path.join s.objects fan
    match ← (Host.inspect FileTree.linkStatus path).outcome with
    | .ok (.directory _) => do
      let names ← onFiles (Host.list path)
      pure (names.filter fun n => !isHidden n)
    | _ => pure []
  pure (hashes.flatten.mergeSort fun a b => decide (a ≤ b))

end ImageRecipe.Store
