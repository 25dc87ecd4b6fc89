import CasKit.Store

/-!
# Mark and sweep

`mark` validates a root set against what the store holds, `planSweep` takes inventory and
applies the coverage rule, and `sweep` executes the plan: rewrites first, then loose
garbage, then orphans, then packs. A `HashSet` is a finite set; a `BTreeSet` that is
iterated is its sorted list.
-/
namespace CasKit
open Effects Files Codec

/-- The elements of a `BTreeSet` in iteration order. -/
def toBTreeSet (l : List Hash) : List Hash := l.dedup.insertionSort (· ≤ ·)

theorem mem_toBTreeSet {l : List Hash} {h : Hash} : h ∈ toBTreeSet l ↔ h ∈ l := by
  simp [toBTreeSet]

namespace Gc

def trashDir : Name := text "trash"

structure LiveSet where
  live : Finset Hash
  missing : List Hash
  roots : ℕ
  scanned : ℕ

/-- The roots that are physically present, and those that are not. -/
def mark (s : BlobStore) (order : HashOrder) (roots : Finset Hash) : Action CasError LiveSet := do
  let loose ← s.listBlobs
  let packed ← s.listBlobsPacked order
  let present := (loose ++ packed).toFinset
  return {
    live := roots.filter (· ∈ present)
    missing := (roots.filter (· ∉ present)).sort (· ≤ ·)
    roots := roots.card
    scanned := present.card }

inductive SweepMode where
  | dryRun
  | trash
  | delete
  deriving DecidableEq

structure SweepOptions where
  mode : SweepMode
  rewritePartialPacks : Bool
  deriving DecidableEq

def SweepOptions.default : SweepOptions := ⟨.dryRun, true⟩

structure PackRewrite where
  pack : Path
  keep : List Hash
  deriving DecidableEq

structure SweepPlan where
  scanned : ℕ
  loosePresent : ℕ
  packedPresent : ℕ
  live : ℕ
  garbage : ℕ
  looseGarbage : List Hash
  looseGarbageBytes : ℕ
  packsWithGarbage : ℕ
  packedGarbageObjects : ℕ
  packsToRemove : List Path
  packsToRewrite : List PackRewrite
  orphanFiles : List Path
  unreadablePacks : List Path
  bytesReclaimable : ℕ
  deriving DecidableEq

structure SweepReport where
  plan : SweepPlan
  mode : SweepMode
  executed : Bool
  looseRemoved : ℕ
  packsRemoved : ℕ
  packsRewritten : ℕ
  bytesReclaimed : ℕ
  trash : Option Path
  deriving DecidableEq

/-- A pack on disk with its parsed index and classification. -/
structure PackState where
  packPath : Path
  hashes : List Hash
  garbage : List Hash
  bytes : ℕ
  deriving DecidableEq

/-- What the loop over the packs collects. -/
structure Scan where
  packs : List PackState
  orphanFiles : List Path
  unreadablePacks : List Path

def loosePath (s : BlobStore) (hash : Hash) : Path :=
  s.objectsDir ++ [hash.toHex.take 2] ++ [hash.toHex.drop 2]

/-- Classify one pack: without an index it is an orphan, with a bad index it is unreadable. -/
def scanPack (live : Finset Hash) (scan : Scan) (packPath : Path) : Action CasError Scan := do
  let idxPath := withExtension packPath idxExt
  let there ← pathExists idxPath
  if !there then return { scan with orphanFiles := scan.orphanFiles ++ [packPath] }
  else
    let loaded ← Prog.attempt (PackIndex.load idxPath)
    match (loaded : Except PackError PackIndex) with
    | .error _ => return { scan with unreadablePacks := scan.unreadablePacks ++ [packPath] }
    | .ok index =>
      let hashes := toBTreeSet index.hashes
      let garbage := hashes.filter (· ∉ live)
      let packLen ← ioCas (fileLength packPath)
      let idxLen ← ioCas (fileLength idxPath)
      return { scan with packs := scan.packs ++ [⟨packPath, hashes, garbage, packLen + idxLen⟩] }

/-- An index without its pack can never be read either. -/
def scanIdx (packDir : Path) (packNames : List Path) (orphanFiles : List Path)
    (entry : DirEntry) : Action CasError (List Path) := do
  let path := packDir ++ [entry.name]
  if endsWith (fromUtf8Lossy entry.name) (dot :: idxExt) then
    let pack := withExtension path packExt
    if pack ∈ packNames then return orphanFiles
    else
      let there ← pathExists pack
      if there then return orphanFiles
      else return orphanFiles ++ [path]
  else return orphanFiles

/-- The state of the loop that applies the coverage rule. -/
structure Coverage where
  covered : Finset Hash
  packsToRemove : List Path
  packsToRewrite : List PackRewrite
  removeBytes : ℕ
  packsWithGarbage : ℕ

/-- The live objects of a pack that nothing covers so far. -/
def needed (garbageSet covered : Finset Hash) (pack : PackState) : List Hash :=
  pack.hashes.filter fun h => h ∉ garbageSet ∧ h ∉ covered

def coverPack (garbageSet : Finset Hash) (st : Coverage) (pack : PackState) : Coverage :=
  if pack.garbage.isEmpty then st
  else
    let keep := needed garbageSet st.covered pack
    if keep.isEmpty then
      { st with
        packsToRemove := st.packsToRemove ++ [pack.packPath]
        removeBytes := st.removeBytes + pack.bytes
        packsWithGarbage := st.packsWithGarbage + 1 }
    else
      { st with
        covered := st.covered ∪ keep.toFinset
        packsToRewrite := st.packsToRewrite ++ [⟨pack.packPath, keep⟩]
        packsWithGarbage := st.packsWithGarbage + 1 }

/-- What is covered before any pack is decided: live loose objects and healthy packs. -/
def initialCover (looseSet : List Hash) (garbageSet : Finset Hash) (packs : List PackState) :
    Finset Hash :=
  ((looseSet.filter (· ∉ garbageSet)) ++
    (packs.filter (fun p => p.garbage.isEmpty)).flatMap PackState.hashes).toFinset

def coverage (looseSet : List Hash) (garbageSet : Finset Hash) (packs : List PackState) :
    Coverage :=
  packs.foldl (coverPack garbageSet) ⟨initialCover looseSet garbageSet packs, [], [], 0, 0⟩

/-- The second look at the pack directory: an index whose pack is not there. -/
def scanOrphans (s : BlobStore) (packs : List PackState) (orphanFiles : List Path) :
    Action CasError (List Path) := do
  let there ← pathExists s.packDir
  if there then
    let entries ← ioCas (readDirectory s.packDir)
    entries.foldlM (scanIdx s.packDir (packs.map PackState.packPath)) orphanFiles
  else return orphanFiles

def scannedSet (looseSet : List Hash) (packs : List PackState) : Finset Hash :=
  looseSet.toFinset ∪ (packs.flatMap PackState.hashes).toFinset

def garbageSet (live : Finset Hash) (looseSet : List Hash) (packs : List PackState) :
    Finset Hash :=
  (scannedSet looseSet packs).filter (· ∉ live)

def addLooseBytes (s : BlobStore) (bytes : ℕ) (hash : Hash) : Action CasError ℕ := do
  let len ← ioCas (fileLength (loosePath s hash))
  return bytes + len

/-- The plan that follows from an inventory: classification and coverage. -/
def planOf (live : Finset Hash) (looseSet : List Hash) (scan : Scan) (orphanFiles : List Path)
    (looseGarbageBytes : ℕ) : SweepPlan :=
  let scanned := scannedSet looseSet scan.packs
  let garbage := garbageSet live looseSet scan.packs
  let st := coverage looseSet garbage scan.packs
  { scanned := scanned.card
    loosePresent := looseSet.length
    packedPresent := (scan.packs.flatMap PackState.hashes).toFinset.card
    live := (scanned.filter (· ∈ live)).card
    garbage := garbage.card
    looseGarbage := looseSet.filter (· ∈ garbage)
    looseGarbageBytes := looseGarbageBytes
    packsWithGarbage := st.packsWithGarbage
    packedGarbageObjects := (scan.packs.map fun p => p.garbage.length).sum
    packsToRemove := st.packsToRemove
    packsToRewrite := st.packsToRewrite
    orphanFiles := orphanFiles
    unreadablePacks := scan.unreadablePacks
    bytesReclaimable := looseGarbageBytes + st.removeBytes }

/-- Enumerate the store, classify garbage and decide about every pack, changing nothing. -/
def planSweep (s : BlobStore) (live : Finset Hash) : Action CasError SweepPlan := do
  let loose ← s.listBlobs
  let looseSet := toBTreeSet loose
  let packPaths ← ioCas (PackFile.listPacks s.packDir)
  let scan ← packPaths.foldlM (scanPack live) ⟨[], [], []⟩
  let orphanFiles ← scanOrphans s scan.packs scan.orphanFiles
  let looseGarbage := looseSet.filter (· ∈ garbageSet live looseSet scan.packs)
  let looseGarbageBytes ← looseGarbage.foldlM (addLooseBytes s) 0
  return planOf live looseSet scan (orphanFiles.insertionSort (· ≤ ·)) looseGarbageBytes

/-- `Path::strip_prefix`. -/
def stripPrefix : Path → Path → Option Path
  | [], p => some p
  | _ :: _, [] => none
  | n :: root, m :: p => if n = m then stripPrefix root p else none

/-- The path as text, names separated by a slash. -/
def displayPath (p : Path) : Text := p.flatMap fun name => 0x2F :: name

/-- An older copy in the trash makes way; a failure to remove it is ignored. -/
def clearDestination (destination : Path) : Action CasError Unit := do
  let there ← pathExists destination
  if there then
    let _ : Except ErrorKind Unit ← Prog.attempt (removeFile destination)
    return ()
  else return ()

/-- Delete the file, or move it into the trash mirror, replacing an older copy there. -/
def removeOrTrash (s : BlobStore) (mode : SweepMode) (trashRoot path : Path) :
    Action CasError ℕ := do
  let len ← ioCas (fileLength path)
  match mode with
  | .delete =>
    ioCas (removeFile path)
    return len
  | .trash =>
    match stripPrefix s.root path with
    | none => .throw (.gcPathEscape (displayPath path))
    | some relative =>
      let destination := trashRoot ++ relative
      ioCas (createDirAll destination.dropLast)
      clearDestination destination
      ioCas (renameFile path destination)
      return len
  | .dryRun => .throw (.panicked (text "dry-run sweeps never reach deletion"))

/-- What the execution of a plan counts. -/
structure Tally where
  bytesReclaimed : ℕ
  looseRemoved : ℕ
  packsRemoved : ℕ
  packsRewritten : ℕ

variable (c : Crates) (s : BlobStore)

/-- The bytes of one kept object, read out of the pack that is being rewritten. -/
def readKept (rewrite : PackRewrite) (index : PackIndex) (objects : List (Hash × Bytes))
    (hash : Hash) : Action CasError (List (Hash × Bytes)) := do
  let data ← packCas (PackFile.readBlob c rewrite.pack index hash)
  return objects ++ [(hash, data)]

/-- Phase 1, one pack: write the replacement that holds exactly the kept objects. -/
def rewritePack (tally : Tally) (rewrite : PackRewrite) : Action CasError Tally := do
  let idxPath := withExtension rewrite.pack idxExt
  let index ← packCas (PackIndex.load idxPath)
  let objects ← rewrite.keep.foldlM (readKept c rewrite index) []
  let created ← packCas (PackFile.create c s.packDir objects)
  let oldPack ← ioCas (fileLength rewrite.pack)
  let oldIdx ← ioCas (fileLength idxPath)
  let newPack ← ioCas (fileLength created.1)
  let newIdx ← ioCas (fileLength created.2)
  return { tally with
    bytesReclaimed := tally.bytesReclaimed + (oldPack + oldIdx - (newPack + newIdx))
    packsRewritten := tally.packsRewritten + 1 }

/-- Phase 2, one loose garbage file. -/
def removeLoose (mode : SweepMode) (tally : Tally) (hash : Hash) : Action CasError Tally := do
  let len ← removeOrTrash s mode (s.root ++ [trashDir]) (loosePath s hash)
  return { tally with
    bytesReclaimed := tally.bytesReclaimed + len
    looseRemoved := tally.looseRemoved + 1 }

/-- Phase 3, one orphaned file of the pack directory. -/
def removeOrphan (mode : SweepMode) (tally : Tally) (path : Path) : Action CasError Tally := do
  let len ← removeOrTrash s mode (s.root ++ [trashDir]) path
  return { tally with bytesReclaimed := tally.bytesReclaimed + len }

def removeIfThere (mode : SweepMode) (tally : Tally) (path : Path) : Action CasError Tally := do
  let there ← pathExists path
  if there then removeOrphan s mode tally path else return tally

/-- Phase 4, one pack: the index goes first. -/
def removePack (mode : SweepMode) (tally : Tally) (packPath : Path) : Action CasError Tally := do
  let tally ← [withExtension packPath idxExt, packPath].foldlM (removeIfThere s mode) tally
  return { tally with packsRemoved := tally.packsRemoved + 1 }

/-- The packs that phase 4 removes. -/
def removals (plan : SweepPlan) (options : SweepOptions) : List Path :=
  plan.packsToRemove ++
    if options.rewritePartialPacks then plan.packsToRewrite.map PackRewrite.pack else []

/-- The four phases of an executing sweep. -/
def execute (plan : SweepPlan) (options : SweepOptions) : Action CasError Tally := do
  let tally ← (if options.rewritePartialPacks then plan.packsToRewrite else []).foldlM
    (rewritePack c s) ⟨0, 0, 0, 0⟩
  let tally ← plan.looseGarbage.foldlM (removeLoose s options.mode) tally
  let tally ← plan.orphanFiles.foldlM (removeOrphan s options.mode) tally
  let tally ← (removals plan options).foldlM (removePack s options.mode) tally
  BlobStore.invalidatePackCache
  return tally

/-- Remove everything that is not in `live`, as the options say. -/
def sweep (live : Finset Hash) (options : SweepOptions) : Action CasError SweepReport := do
  let plan ← planSweep s live
  if options.mode = .dryRun then
    return ⟨plan, options.mode, false, 0, 0, 0, 0, none⟩
  else
    let tally ← execute c s plan options
    return {
      plan := plan
      mode := options.mode
      executed := true
      looseRemoved := tally.looseRemoved
      packsRemoved := tally.packsRemoved
      packsRewritten := tally.packsRewritten
      bytesReclaimed := tally.bytesReclaimed
      trash := if options.mode = .trash then some (s.root ++ [trashDir]) else none }

end Gc

end CasKit
