import CasKit.PackFile

/-!
# The blob store

The functions of a store handle. The root, the compression mode and the verification flag
are the handle's configuration; its caches live in the world.
-/
namespace CasKit
open Effects Files Codec

structure BlobStore where
  root : Path
  compress : Bool
  compressionLevel : ℤ
  verifyOnRead : Bool

/-- Whether data starts with the Zstd frame magic. -/
def isZstdCompressed (data : Bytes) : Bool :=
  data.length ≥ 4 && data.take 4 = [0x28, 0xB5, 0x2F, 0xFD]

def ioCas {α : Type} (p : Action ErrorKind α) : Action CasError α := p.mapErr .io

def packCas {α : Type} (p : Action PackError α) : Action CasError α := p.mapErr .pack

def objectsName : Name := text "objects"
def packDirName : Name := text "pack"

namespace BlobStore

/-- Create a store rooted at the given directory. -/
def new (root : Path) : Action CasError BlobStore := do
  ioCas (createDirAll (root ++ [objectsName]))
  return ⟨root, true, defaultCompressionLevel, true⟩

def newUncompressed (root : Path) : Action CasError BlobStore := do
  let store ← new root
  return { store with compress := false }

def setVerifyOnRead (s : BlobStore) (verify : Bool) : BlobStore := { s with verifyOnRead := verify }

section Paths
variable (s : BlobStore)

def objectsDir : Path := s.root ++ [objectsName]

def packDir : Path := s.root ++ [objectsName, packDirName]

/-- The on-disk path of a loose blob: the first two hex digits are its directory. -/
def blobPath (hash : Hash) : Path :=
  s.root ++ [objectsName, hash.toHex.take 2, hash.toHex.drop 2]

end Paths

section Operations
variable (c : Crates) (s : BlobStore)

def ensureParentDir (parent : Path) : Action CasError Unit := do
  let known : Bool ← .call (.dirKnown parent) .ret
  if known then return ()
  else
    ioCas (createDirAll parent)
    .call (.dirLearn parent) .ret

/-- The common tail of the three puts: make the bucket, then write the blob in the mode of
the handle. -/
def writeBlob (blobPath : Path) (data : Bytes) : Action CasError Unit := do
  ensureParentDir blobPath.dropLast
  if s.compress then
    let compressed ← Prog.ofExcept (CasKit.compress c data s.compressionLevel)
    ioCas (writeFile blobPath compressed)
  else ioCas (writeFile blobPath data)

/-- Store a blob, returning its hash. A blob whose file exists is left alone. -/
def putBlob (data : Bytes) : Action CasError Hash := do
  let hash := hashBytes c data
  let there ← pathExists (s.blobPath hash)
  if there then return hash
  else
    writeBlob c s (s.blobPath hash) data
    return hash

/-- Store a blob, with an error if its file exists. -/
def putBlobNew (data : Bytes) : Action CasError Hash := do
  let hash := hashBytes c data
  let there ← pathExists (s.blobPath hash)
  if there then .throw (.alreadyExists hash.toHex)
  else
    writeBlob c s (s.blobPath hash) data
    return hash

/-- Store a blob under a given hash, which the data must have. -/
def putBlobWithHash (data : Bytes) (expectedHash : Hash) : Action CasError Unit := do
  let there ← pathExists (s.blobPath expectedHash)
  if there then return ()
  else
    Prog.ofExcept (verifyHash c data expectedHash)
    writeBlob c s (s.blobPath expectedHash) data

/-- Load the pack cache if it is not there, then use it. The lock is held throughout, and an
error releases it. -/
def withPackCache {β : Type} (order : HashOrder) (f : PackCache → β) : Action CasError β := do
  .call .packLock fun _ => .ret ()
  let guard : Option PackCache ← .call .packGet .ret
  match guard with
  | some cache =>
    .call .packUnlock fun _ => .ret ()
    return f cache
  | none =>
    let loaded ← Prog.attempt (PackCache.loadAll order s.packDir)
    match loaded with
    | .error e =>
      .call .packUnlock fun _ => .ret ()
      .throw (.pack e)
    | .ok cache =>
      .call (.packSet (some cache)) fun _ => .ret ()
      .call .packUnlock fun _ => .ret ()
      return f cache

def invalidatePackCache : Action CasError Unit := do
  .call .packLock fun _ => .ret ()
  .call (.packSet none) fun _ => .ret ()
  .call .packUnlock fun _ => .ret ()

/-- Retrieve a blob from pack files only. -/
def getBlobPacked (order : HashOrder) (hash : Hash) : Action CasError Bytes := do
  let found ← withPackCache s order fun cache => (cache.find hash).map Prod.fst
  match found with
  | none => .throw (.blobNotFound hash.toHex)
  | some packPath =>
    let index ← packCas (PackIndex.load (withExtension packPath idxExt))
    packCas (PackFile.readBlob c packPath index hash)

def hasBlobPacked (order : HashOrder) (hash : Hash) : Action CasError Bool := do
  let found ← Prog.attempt (withPackCache s order fun cache => (cache.find hash).isSome)
  match (found : Except CasError Bool) with
  | .ok b => return b
  | .error _ => return false

def listBlobsPacked (order : HashOrder) : Action CasError (List Hash) :=
  withPackCache s order PackCache.allHashes

/-- The bytes of a loose file, decompressed if they look like a frame, verified if the
handle verifies. -/
def decodeLoose (raw : Bytes) (hash : Hash) : Except CasError Bytes := do
  let result ← if isZstdCompressed raw then decompress c raw else .ok raw
  if s.verifyOnRead then verifyHash c result hash
  return result

/-- The part of `get_blob` that asks the packs, under the error of the whole. -/
def fetchPacked (order : HashOrder) (hash : Hash) : Action CasError Bytes := do
  let packed ← Prog.attempt (getBlobPacked c s order hash)
  match (packed : Except CasError Bytes) with
  | .ok data => return data
  | .error (.blobNotFound _) => .throw (.blobNotFound hash.toHex)
  | .error e => .throw e

def fetchLoose (hash : Hash) : Action CasError Bytes := do
  let raw ← ioCas (readFile (s.blobPath hash))
  Prog.ofExcept (decodeLoose c s raw hash)

/-- The part of `get_blob` behind the blob cache. -/
def fetchBlob (order : HashOrder) (hash : Hash) : Action CasError Bytes := do
  let there ← pathExists (s.blobPath hash)
  if there then fetchLoose c s hash else fetchPacked c s order hash

/-- Retrieve a blob: the blob cache, then the loose file, then the packs. -/
def getBlob (order : HashOrder) (hash : Hash) : Action CasError Bytes := do
  let hit : Option Bytes ← .call (.blobLookup hash) .ret
  match hit with
  | some data => return data
  | none =>
    let data ← fetchBlob c s order hash
    .call (.blobInsert hash data) fun _ => .ret ()
    return data

def hasBlob (order : HashOrder) (hash : Hash) : Action CasError Bool := do
  let there ← pathExists (s.blobPath hash)
  if there then return true
  else hasBlobPacked s order hash

def deleteBlob (hash : Hash) : Action CasError Unit :=
  (removeFile (s.blobPath hash)).mapErr fun e =>
    if e = .notFound then .blobNotFound hash.toHex else .io e

/-- The hashes named by the files of one bucket directory, after those found before. -/
def listBucket (bucket : Name) (hashes : List Hash) (subEntries : List DirEntry) : List Hash :=
  subEntries.foldl (fun hashes sub =>
    if sub.isDir then hashes
    else
      match Hash.fromHex (fromUtf8Lossy bucket ++ fromUtf8Lossy sub.name) with
      | .ok hash => hashes ++ [hash]
      | .error _ => hashes) hashes

def listStep (hashes : List Hash) (entry : DirEntry) : Action CasError (List Hash) :=
  if entry.isDir then
    if entry.name = packDirName then .ret hashes
    else do
      let subEntries ← ioCas (readDirectory (s.objectsDir ++ [entry.name]))
      return listBucket entry.name hashes subEntries
  else .ret hashes

/-- All loose blob hashes, sorted. Names that are no address are skipped. -/
def listBlobs : Action CasError (List Hash) := do
  let there ← pathExists s.objectsDir
  if !there then return []
  else
    let entries ← ioCas (readDirectory s.objectsDir)
    let hashes ← entries.foldlM (listStep s) []
    return hashes.insertionSort (· ≤ ·)

def readObject (order : HashOrder) (objects : List (Hash × Bytes)) (hash : Hash) :
    Action CasError (List (Hash × Bytes)) := do
  let data ← getBlob c s order hash
  return objects ++ [(hash, data)]

/-- A failed delete leaves the blob loose and is no error. -/
def deletePacked (_ : Unit) (hash : Hash) : Action CasError Unit := do
  let _ : Except CasError Unit ← Prog.attempt (deleteBlob s hash)
  return ()

/-- Move the loose blobs into one pack if there are more than `threshold` of them. -/
def repack (order : HashOrder) (threshold : ℕ) : Action CasError ℕ := do
  let looseHashes ← listBlobs s
  if looseHashes.length ≤ threshold then return 0
  else
    let objects ← looseHashes.foldlM (readObject c s order) []
    let _ ← packCas (PackFile.create c s.packDir objects)
    looseHashes.foldlM (deletePacked s) ()
    invalidatePackCache
    return looseHashes.length

end Operations

end BlobStore

end CasKit
