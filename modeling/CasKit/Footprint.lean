import CasKit.Inventory

/-!
# Footprints

Which requests the functions of a store make. What a function cannot touch follows from the
requests that it never makes.
-/
namespace CasKit
open Effects Files Codec

/-- The requests of a look behind the blob cache: at the disk, and at the pack cache, which may be
filled. -/
def Request.Consults : Request → Prop
  | .exists _ | .read _ | .readDir _ | .fileLen _ => True
  | .packLock | .packUnlock | .packGet | .packSet _ => True
  | _ => False

/-- The requests of a function that writes new files. -/
def Request.Stores : Request → Prop
  | .exists _ | .createDirAll _ | .write _ _ | .dirKnown _ | .dirLearn _ => True
  | _ => False

/-- The requests that leave the file system alone. -/
def Request.Looks : Request → Prop
  | .createDirAll _ | .write _ _ | .removeFile _ | .rename _ _ => False
  | _ => True

/-- The requests to the file system. -/
def Request.OnFiles : Request → Prop
  | .exists _ | .read _ | .readDir _ | .fileLen _ => True
  | .createDirAll _ | .write _ _ | .removeFile _ | .rename _ _ => True
  | _ => False

/-- The requests that leave the blob cache alone. -/
def Request.SparesBlobs : Request → Prop
  | .blobLookup _ | .blobInsert _ _ => False
  | _ => True

/-- The requests that leave the pack cache alone. -/
def Request.SparesPacks : Request → Prop
  | .packSet _ => False
  | _ => True

section Kinds
variable {o : Request}

theorem Request.Reads.consults (ho : o.Reads) : o.Consults := by
  cases o <;> trivial

theorem Request.Reads.onFiles (ho : o.Reads) : o.OnFiles := by
  cases o <;> trivial

theorem Request.Reads.looks (ho : o.Reads) : o.Looks := by
  cases o <;> trivial

theorem Request.Reads.sparesBlobs (ho : o.Reads) : o.SparesBlobs := by
  cases o <;> trivial

theorem Request.Reads.sparesPacks (ho : o.Reads) : o.SparesPacks := by
  cases o <;> trivial

theorem Request.Consults.looks (ho : o.Consults) : o.Looks := by
  cases o <;> trivial

theorem Request.Consults.sparesBlobs (ho : o.Consults) : o.SparesBlobs := by
  cases o <;> trivial

theorem Request.Stores.sparesBlobs (ho : o.Stores) : o.SparesBlobs := by
  cases o <;> trivial

theorem Request.Stores.sparesPacks (ho : o.Stores) : o.SparesPacks := by
  cases o <;> trivial

theorem Request.OnFiles.sparesBlobs (ho : o.OnFiles) : o.SparesBlobs := by
  cases o <;> trivial

theorem Request.OnFiles.sparesPacks (ho : o.OnFiles) : o.SparesPacks := by
  cases o <;> trivial

theorem answer_looks (ho : o.Looks) (w : World) : (answer o w).2.disk = w.disk := by
  cases o <;> first | rfl | exact ho.elim

theorem World.caches_update (w : World) (r : Except ErrorKind Tree) :
    (w.update r).2.caches = w.caches := by
  cases r <;> rfl

theorem answer_sparesBlobs (ho : o.SparesBlobs) (w : World) :
    (answer o w).2.caches.blobCache = w.caches.blobCache := by
  cases o with
  | blobLookup h => exact ho.elim
  | blobInsert h data => exact ho.elim
  | createDirAll p => exact congrArg Caches.blobCache (w.caches_update _)
  | write p b => exact congrArg Caches.blobCache (w.caches_update _)
  | removeFile p => exact congrArg Caches.blobCache (w.caches_update _)
  | rename p q => exact congrArg Caches.blobCache (w.caches_update _)
  | _ => rfl

theorem answer_sparesPacks (ho : o.SparesPacks) (w : World) :
    (answer o w).2.caches.packCache = w.caches.packCache := by
  cases o with
  | packSet cache => exact ho.elim
  | createDirAll p => exact congrArg Caches.packCache (w.caches_update _)
  | write p b => exact congrArg Caches.packCache (w.caches_update _)
  | removeFile p => exact congrArg Caches.packCache (w.caches_update _)
  | rename p q => exact congrArg Caches.packCache (w.caches_update _)
  | _ => rfl

end Kinds

namespace BlobStore
variable {c : Crates} {s : BlobStore} {h : Hash} {data : Bytes}

/-! ## Looking -/

section Consults

theorem withPackCache_consults {β : Type} (order : HashOrder) (f : PackCache → β) :
    (s.withPackCache order f).Uses Request.Consults := by
  refine ⟨trivial, fun _ => ⟨trivial, fun guard => ?_⟩⟩
  cases (guard : Option PackCache) with
  | some cache => exact ⟨trivial, fun _ => trivial⟩
  | none =>
    have hload := (loadAll_reads order s.packDir).mono fun _ h => h.consults
    refine hload.attempt.bind fun loaded => ?_
    cases loaded with
    | error e => exact ⟨trivial, fun _ => trivial⟩
    | ok cache => exact ⟨trivial, fun _ => ⟨trivial, fun _ => trivial⟩⟩

theorem getBlobPacked_consults (order : HashOrder) (h : Hash) :
    (s.getBlobPacked c order h).Uses Request.Consults := by
  refine (withPackCache_consults order _).bind fun found => ?_
  cases found with
  | none => trivial
  | some p =>
    have hindex := (packCas_reads (load_reads (withExtension p idxExt))).mono fun _ h => h.consults
    refine hindex.bind fun i => ?_
    exact (packCas_reads (readBlob_reads p i h)).mono fun _ h => h.consults

theorem fetchBlob_consults (order : HashOrder) (h : Hash) :
    (s.fetchBlob c order h).Uses Request.Consults := by
  refine ⟨trivial, fun there => ?_⟩
  cases (there : Bool) with
  | true => exact (s.fetchLoose_reads h).mono fun _ h => h.consults
  | false =>
    refine (getBlobPacked_consults order h).attempt.bind fun packed => ?_
    cases packed with
    | ok d => trivial
    | error e => cases e <;> trivial

theorem hasBlob_consults (order : HashOrder) (h : Hash) :
    (s.hasBlob order h).Uses Request.Consults := by
  refine ⟨trivial, fun there => ?_⟩
  cases (there : Bool) with
  | true => trivial
  | false =>
    refine (withPackCache_consults order _).attempt.bind fun found => ?_
    cases found <;> trivial

theorem getBlob_looks (order : HashOrder) (h : Hash) :
    (s.getBlob c order h).Uses Request.Looks := by
  refine ⟨trivial, fun hit => ?_⟩
  cases (hit : Option Bytes) with
  | some data => trivial
  | none =>
    have hfetch := (fetchBlob_consults (c := c) (s := s) order h).mono fun _ h => h.looks
    show (s.fetchBlob c order h >>= fun data => (.call (.blobInsert h data) fun _ => .ret data :
      Action CasError Bytes)).Uses Request.Looks
    exact hfetch.bind fun _ => ⟨trivial, fun _ => trivial⟩

theorem readObject_looks (order : HashOrder) (objects : List (Hash × Bytes)) (h : Hash) :
    (s.readObject c order objects h).Uses Request.Looks :=
  (getBlob_looks order h).bind fun _ => trivial

/-- Reading blobs changes nothing on disk. -/
theorem readAll_disk {w : World} (order : HashOrder) (hashes : List Hash)
    (objects : List (Hash × Bytes)) :
    (run (hashes.foldlM (s.readObject c order) objects) w).2.disk = w.disk :=
  (Prog.Uses.foldlM (readObject_looks order) hashes objects).exec_eq World.disk
    (fun _ u ho => answer_looks ho u) w

end Consults

/-! ## Writing -/

section Stores

theorem createDirAll_stores (p : Path) : (createDirAll p).Uses Request.Stores :=
  ⟨trivial, fun r => Prog.Uses.ofExcept r⟩

theorem writeFile_stores (p : Path) (b : Bytes) : (writeFile p b).Uses Request.Stores :=
  ⟨trivial, fun r => Prog.Uses.ofExcept r⟩

theorem ensureParentDir_stores (p : Path) : (ensureParentDir p).Uses Request.Stores := by
  refine ⟨trivial, fun known => ?_⟩
  cases (known : Bool) with
  | true => trivial
  | false => exact (createDirAll_stores p).mapErr.bind fun _ => ⟨trivial, fun _ => trivial⟩

theorem writeBlob_stores (p : Path) (data : Bytes) :
    (s.writeBlob c p data).Uses Request.Stores := by
  refine (ensureParentDir_stores _).bind fun _ => ?_
  cases s.compress with
  | true => exact (Prog.Uses.ofExcept _).bind fun _ => (writeFile_stores p _).mapErr
  | false => exact (writeFile_stores p data).mapErr

theorem putBlob_stores (data : Bytes) : (s.putBlob c data).Uses Request.Stores := by
  refine ⟨trivial, fun there => ?_⟩
  cases (there : Bool) with
  | true => trivial
  | false => exact (writeBlob_stores _ data).bind fun _ => trivial

theorem putBlobNew_stores (data : Bytes) : (s.putBlobNew c data).Uses Request.Stores := by
  refine ⟨trivial, fun there => ?_⟩
  cases (there : Bool) with
  | true => trivial
  | false => exact (writeBlob_stores _ data).bind fun _ => trivial

theorem putBlobWithHash_stores (data : Bytes) (h : Hash) :
    (s.putBlobWithHash c data h).Uses Request.Stores := by
  refine ⟨trivial, fun there => ?_⟩
  cases (there : Bool) with
  | true => trivial
  | false => exact (Prog.Uses.ofExcept _).bind fun _ => writeBlob_stores _ data

theorem create_stores (dir : Path) (objects : List (Hash × Bytes)) :
    (PackFile.create c dir objects).Uses Request.Stores := by
  unfold PackFile.create
  split_ifs with hempty
  · trivial
  · refine (createDirAll_stores dir).mapErr.bind fun _ => ?_
    refine (Prog.Uses.ofExcept _).bind fun packed => ?_
    refine (writeFile_stores _ _).mapErr.bind fun _ => ?_
    exact (writeFile_stores _ _).mapErr.bind fun _ => trivial

end Stores

/-! ## Removing -/

theorem deletePacked_uses {q : Request → Prop} (hq : ∀ p, q (.removeFile p)) (u : Unit) (h : Hash) :
    (s.deletePacked u h).Uses q := by
  have hremove : (removeFile (s.blobPath h)).Uses q := ⟨hq _, fun r => Prog.Uses.ofExcept r⟩
  exact hremove.mapErr.attempt.bind fun _ => trivial

end BlobStore

namespace Gc
variable {c : Crates} {s : BlobStore} {mode : SweepMode}

theorem createDirAll_onFiles (p : Path) : (createDirAll p).Uses Request.OnFiles :=
  ⟨trivial, fun r => Prog.Uses.ofExcept r⟩

theorem removeFile_onFiles (p : Path) : (removeFile p).Uses Request.OnFiles :=
  ⟨trivial, fun r => Prog.Uses.ofExcept r⟩

theorem fileLength_onFiles (p : Path) : (ioCas (fileLength p)).Uses Request.OnFiles :=
  (ioCas_reads (fileLength_reads p)).mono fun _ h => h.onFiles

theorem removeOrTrash_onFiles (trashRoot p : Path) :
    (removeOrTrash s mode trashRoot p).Uses Request.OnFiles := by
  refine (fileLength_onFiles p).bind fun len => ?_
  cases mode with
  | delete => exact (removeFile_onFiles p).mapErr.bind fun _ => trivial
  | dryRun => trivial
  | trash =>
    cases stripPrefix s.root p with
    | none => trivial
    | some relative =>
      have hclear : (clearDestination (trashRoot ++ relative)).Uses Request.OnFiles := by
        refine ⟨trivial, fun there => ?_⟩
        cases (there : Bool) with
        | false => trivial
        | true => exact (removeFile_onFiles _).attempt.bind fun _ => trivial
      have hrename : (renameFile p (trashRoot ++ relative)).Uses Request.OnFiles :=
        ⟨trivial, fun r => Prog.Uses.ofExcept r⟩
      refine (createDirAll_onFiles _).mapErr.bind fun _ => hclear.bind fun _ => ?_
      exact hrename.mapErr.bind fun _ => trivial

theorem removeOrphan_onFiles (tally : Tally) (p : Path) :
    (removeOrphan s mode tally p).Uses Request.OnFiles :=
  (removeOrTrash_onFiles _ p).bind fun _ => trivial

theorem removePack_onFiles (tally : Tally) (p : Path) :
    (removePack s mode tally p).Uses Request.OnFiles := by
  have hround : ∀ (tally : Tally) (q : Path),
      (removeIfThere s mode tally q).Uses Request.OnFiles := by
    intro tally q
    refine ⟨trivial, fun there => ?_⟩
    cases (there : Bool) with
    | false => trivial
    | true => exact removeOrphan_onFiles tally q
  exact (Prog.Uses.foldlM hround _ tally).bind fun _ => trivial

theorem rewritePack_onFiles (tally : Tally) (r : PackRewrite) :
    (rewritePack c s tally r).Uses Request.OnFiles := by
  have hload := (packCas_reads (load_reads (withExtension r.pack idxExt))).mono
    fun _ h => h.onFiles
  have hkept : ∀ index objects h, (readKept c r index objects h).Uses Request.OnFiles := by
    intro index objects h
    have hread := (packCas_reads (BlobStore.readBlob_reads (c := c) r.pack index h)).mono
      fun _ h => h.onFiles
    exact hread.bind fun _ => trivial
  have hcreate : ∀ objects, (packCas (PackFile.create c s.packDir objects)).Uses
      Request.OnFiles := by
    intro objects
    unfold PackFile.create
    split_ifs with hempty
    · trivial
    · have hwrite : ∀ p b, (ioPack (writeFile p b)).Uses Request.OnFiles := fun p b =>
        Prog.Uses.mapErr (p := writeFile p b) ⟨trivial, fun r => Prog.Uses.ofExcept r⟩
      refine Prog.Uses.mapErr ((createDirAll_onFiles _).mapErr.bind fun _ => ?_)
      refine (Prog.Uses.ofExcept _).bind fun packed => ?_
      exact (hwrite _ _).bind fun _ => (hwrite _ _).bind fun _ => trivial
  refine hload.bind fun index => (Prog.Uses.foldlM (hkept index) _ _).bind fun objects => ?_
  refine (hcreate objects).bind fun created => ?_
  refine (fileLength_onFiles _).bind fun _ => (fileLength_onFiles _).bind fun _ => ?_
  exact (fileLength_onFiles _).bind fun _ => (fileLength_onFiles _).bind fun _ => trivial

/-- The four phases of a sweep, before it drops the pack indices. -/
def phases (c : Crates) (s : BlobStore) (plan : SweepPlan) (options : SweepOptions) :
    Action CasError Tally := do
  let tally ← (if options.rewritePartialPacks then plan.packsToRewrite else []).foldlM
    (rewritePack c s) ⟨0, 0, 0, 0⟩
  let tally ← plan.looseGarbage.foldlM (removeLoose s options.mode) tally
  let tally ← plan.orphanFiles.foldlM (removeOrphan s options.mode) tally
  (removals plan options).foldlM (removePack s options.mode) tally

theorem execute_eq (plan : SweepPlan) (options : SweepOptions) : execute c s plan options =
    phases c s plan options >>= fun tally =>
      BlobStore.invalidatePackCache >>= fun _ => Prog.ret tally := by
  simp only [phases, execute, Prog.bind_assoc]
  rfl

/-- The phases ask the file system only. -/
theorem phases_onFiles (plan : SweepPlan) (options : SweepOptions) :
    (phases c s plan options).Uses Request.OnFiles := by
  have hloose : ∀ (tally : Tally) (h : Hash),
      (removeLoose s options.mode tally h).Uses Request.OnFiles := fun tally h =>
    (removeOrTrash_onFiles _ _).bind fun _ => trivial
  refine (Prog.Uses.foldlM rewritePack_onFiles _ _).bind fun _ => ?_
  refine (Prog.Uses.foldlM hloose _ _).bind fun _ => ?_
  refine (Prog.Uses.foldlM removeOrphan_onFiles _ _).bind fun _ => ?_
  exact Prog.Uses.foldlM removePack_onFiles _ _

/-- A sweep up to its drop of the pack indices, with the report that it will return. -/
def sweepFiles (c : Crates) (s : BlobStore) (live : Finset Hash) (options : SweepOptions) :
    Action CasError SweepReport := do
  let plan ← planSweep s live
  if options.mode = .dryRun then
    return ⟨plan, options.mode, false, 0, 0, 0, 0, none⟩
  else
    let tally ← phases c s plan options
    return {
      plan := plan
      mode := options.mode
      executed := true
      looseRemoved := tally.looseRemoved
      packsRemoved := tally.packsRemoved
      packsRewritten := tally.packsRewritten
      bytesReclaimed := tally.bytesReclaimed
      trash := if options.mode = .trash then some (s.root ++ [trashDir]) else none }

/-- What a sweep does last. -/
def finish (report : SweepReport) : Action CasError SweepReport :=
  if report.executed then BlobStore.invalidatePackCache >>= fun _ => Prog.ret report
  else Prog.ret report

theorem sweep_eq (live : Finset Hash) (options : SweepOptions) :
    sweep c s live options = sweepFiles c s live options >>= finish := by
  unfold sweep sweepFiles
  rw [Prog.bind_assoc]
  congr 1
  funext plan
  by_cases hdry : options.mode = .dryRun
  · simp only [if_pos hdry]
    rfl
  · simp only [if_neg hdry, execute_eq, Prog.bind_assoc]
    rfl

theorem sweepFiles_onFiles (live : Finset Hash) (options : SweepOptions) :
    (sweepFiles c s live options).Uses Request.OnFiles := by
  refine (planSweep_reads.mono fun _ h => h.onFiles).bind fun plan => ?_
  by_cases hdry : options.mode = .dryRun
  · rw [if_pos hdry]
    trivial
  · rw [if_neg hdry]
    exact (phases_onFiles plan options).bind fun _ => trivial

end Gc

end CasKit
