import CasKit.Runtime

/-!
# Pack files on disk

Writing a pack with its index, reading one blob out of it, listing the packs of a
directory and loading all their indices.
-/
namespace CasKit
open Effects Files Codec

def dot : UInt8 := 0x2E

/-- The part of a file name before its extension. A name that only starts with a dot has no
extension. -/
def fileStem (name : Name) : Name :=
  if name = [dot, dot] then name
  else
    match (name.reverse.dropWhile (· ≠ dot)).tail.reverse with
    | [] => name
    | stem => stem

/-- `Path::with_extension`. -/
def withExtension (p : Path) (ext : Text) : Path :=
  match p.getLast? with
  | none => p
  | some name => p.dropLast ++ [fileStem name ++ dot :: ext]

def packExt : Text := text "pack"
def idxExt : Text := text "idx"

def endsWith (name suffix : Text) : Bool := suffix.isSuffixOf name

def ioPack {α : Type} (p : Action ErrorKind α) : Action PackError α := p.mapErr .io

/-- Load and validate an index from disk. -/
def PackIndex.load (path : Path) : Action PackError PackIndex := do
  let bs ← ioPack (readFile path)
  Prog.ofExcept (PackIndex.parse bs)

namespace PackFile
variable (c : Crates)

/-- The name shared by a pack and its index: derived from the bytes of the index. -/
def packName (indexData : Bytes) : Name := text "pack-" ++ (hashBytes c indexData).toHex

def packPath (packDir : Path) (indexData : Bytes) : Path :=
  packDir ++ [packName c indexData ++ dot :: packExt]

def idxPath (packDir : Path) (indexData : Bytes) : Path :=
  packDir ++ [packName c indexData ++ dot :: idxExt]

/-- Write a new pack file and its index. -/
def create (packDir : Path) (objects : List (Hash × Bytes)) : Action PackError (Path × Path) :=
  if objects.isEmpty then .throw .emptyPack
  else do
    ioPack (createDirAll packDir)
    let packed ← Prog.ofExcept (packObjects c objects)
    let indexData := serializeIndex packed.2
    ioPack (writeFile (packPath c packDir indexData) packed.1)
    ioPack (writeFile (idxPath c packDir indexData) indexData)
    return (packPath c packDir indexData, idxPath c packDir indexData)

/-- Read a single blob out of a pack file, verifying its digest. -/
def readBlob (packPath : Path) (index : PackIndex) (hash : Hash) : Action PackError Bytes :=
  match index.find hash with
  | none => .throw (.blobNotFound hash.toHex)
  | some offset => do
    let bs ← ioPack (readFile packPath)
    Prog.ofExcept (decodeRecord c (bs.drop offset) hash)

/-- All `.pack` entries of the directory, sorted. An absent directory has none. -/
def listPacks (packDir : Path) : Action ErrorKind (List Path) := do
  let there ← pathExists packDir
  if !there then return []
  else
    let entries ← readDirectory packDir
    let packs := (entries.filter fun e => isUtf8 e.name && endsWith e.name (dot :: packExt)).map
      fun e => packDir ++ [e.name]
    return packs.insertionSort (· ≤ ·)

end PackFile

namespace PackCache

/-- One round of `load_all`: a pack without an index is skipped, a bad index is an error. -/
def loadStep (indices : List (Path × PackIndex)) (packPath : Path) :
    Action PackError (List (Path × PackIndex)) := do
  let idxPath := withExtension packPath idxExt
  let there ← pathExists idxPath
  if there then
    let index ← PackIndex.load idxPath
    return indices ++ [(packPath, index)]
  else return indices

def loadAll (order : HashOrder) (packDir : Path) : Action PackError PackCache := do
  let packFiles ← ioPack (PackFile.listPacks packDir)
  let indices ← packFiles.foldlM loadStep []
  return ⟨order.arrange indices⟩

/-- The first index, in iteration order, that has the digest. -/
def find (cache : PackCache) (hash : Hash) : Option (Path × ℕ) :=
  cache.indices.findSome? fun e => (e.2.find hash).map fun offset => (e.1, offset)

def allHashes (cache : PackCache) : List Hash :=
  ((cache.indices.flatMap fun e => e.2.hashes).insertionSort (· ≤ ·)).dedup

end PackCache

end CasKit
