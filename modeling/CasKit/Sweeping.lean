import CasKit.Created
import CasKit.Inventory

/-!
# The changes a sweep makes

A sweep first writes the replacements of its rewrites, each pair after the other, and then
drops the loose garbage, the orphans and the packs it removes, the index of a pack before the
pack. In trash mode each drop is a move out of `objects/`. The list of these changes is a
function of the plan and of what the store shows when the sweep starts.
-/
namespace CasKit
open Effects Files Codec

namespace Gc
variable {c : Crates} {s : BlobStore} {w : World} {p : Path}

/-! ## Removing one file -/

theorem stripPrefix_append (root p : Path) : stripPrefix root (root ++ p) = some p := by
  induction root with
  | nil => rfl
  | cons n root ih => simp [stripPrefix, ih]

theorem trashDir_ne_objectsName : trashDir ≠ objectsName := by decide +kernel

/-- The trash lies outside the store proper. -/
theorem not_objectsDir_prefix_trash (p : Path) :
    ¬ s.objectsDir <+: s.root ++ [trashDir] ++ p := by
  rintro ⟨rest, hrest⟩
  rw [BlobStore.objectsDir, List.append_assoc, List.append_assoc] at hrest
  have hname := List.append_cancel_left hrest
  simp only [List.cons_append, List.nil_append, List.cons.injEq] at hname
  exact trashDir_ne_objectsName hname.1.symm

theorem performs_clearDestination (hp : ¬ s.objectsDir <+: p) :
    s.Performs [] (fun _ => True) (clearDestination p) w := by
  refine Prog.Performs.call rfl ?_
  show s.Performs [] _ (if w.disk.exists p = true then _ else _) w
  cases w.disk.exists p with
  | false => exact .ret trivial
  | true =>
    have hremove : s.Performs [] (fun _ => True) (removeFile p) w := by
      refine BlobStore.performs_outside (r := fun w => w.disk.removeFile p) rfl fun t ht q hq => ?_
      rw [Tree.node_removeFile ht q, if_neg]
      rintro rfl
      exact hp hq
    exact hremove.attempt.bind_nothing fun _ _ _ _ => .ret trivial

/-- Removing a file of the store drops it there, in either mode. -/
theorem performs_removeOrTrash {mode : SweepMode} (hp : s.objectsDir <+: p) :
    s.Performs [.drop p] (fun _ => True)
      (removeOrTrash s mode (s.root ++ [trashDir]) p) w := by
  have hlen : s.Performs [] (fun a => peek (ioCas (fileLength p)) w.disk = .ok a)
      (ioCas (fileLength p)) w := BlobStore.performs_reads (ioCas_reads (fileLength_reads p))
  refine hlen.bind fun len t _ _ => ?_
  cases mode with
  | dryRun => exact .throw _ _
  | delete =>
    exact (BlobStore.performs_removeFile hp).mapErr.bind_nothing fun _ _ _ _ => .ret trivial
  | trash =>
    obtain ⟨rest, rfl⟩ : ∃ rest, s.root ++ rest = p :=
      (List.prefix_append s.root [objectsName]).trans hp
    have houtside : ∀ q, q <+: s.root ++ [trashDir] ++ rest → ¬ s.objectsDir <+: q := by
      intro q hq hobj
      exact not_objectsDir_prefix_trash rest (hobj.trans hq)
    simp only [stripPrefix_append]
    have hmk : s.Performs [] (fun _ => True)
        (createDirAll (s.root ++ [trashDir] ++ rest).dropLast) t := by
      refine BlobStore.performs_outside
        (r := fun w => w.disk.createDirAll (s.root ++ [trashDir] ++ rest).dropLast) rfl
        fun u hu q hq => ?_
      rcases Tree.node_createDirAll hu q with h | ⟨-, -, hpre⟩
      · exact h
      · exact absurd hq (houtside q (hpre.trans (List.dropLast_prefix _)))
    refine (hmk.mapErr (g := CasError.io)).bind fun _ t' _ _ => ?_
    have hclear := performs_clearDestination (w := t') (houtside _ List.prefix_rfl)
    refine hclear.bind fun _ t'' _ _ => ?_
    have hrename := BlobStore.performs_renameFile (w := t'') hp (houtside _ List.prefix_rfl)
    exact (hrename.mapErr (g := CasError.io)).bind_nothing fun _ _ _ _ => .ret trivial

theorem loosePath_eq (h : Hash) : loosePath s h = s.blobPath h := by
  simp [loosePath, BlobStore.blobPath, BlobStore.objectsDir]

theorem performs_removeLoose {mode : SweepMode} (tally : Tally) (h : Hash) :
    s.Performs [.drop (s.blobPath h)] (fun _ => True) (removeLoose s mode tally h) w := by
  unfold removeLoose
  rw [loosePath_eq]
  exact (performs_removeOrTrash s.objectsDir_prefix_blobPath).bind_nothing
    fun _ _ _ _ => .ret trivial

theorem performs_removeOrphan {mode : SweepMode} (tally : Tally) (hp : s.objectsDir <+: p) :
    s.Performs [.drop p] (fun _ => True) (removeOrphan s mode tally p) w :=
  (performs_removeOrTrash hp).bind_nothing fun _ _ _ _ => .ret trivial

/-- A file that is not there need not be dropped. -/
theorem performs_removeIfThere {mode : SweepMode} (tally : Tally) (hne : p ≠ [])
    (hp : s.objectsDir <+: p) :
    s.Performs [.drop p] (fun _ => True) (removeIfThere s mode tally p) w := by
  refine Prog.Performs.call rfl ?_
  show s.Performs _ _ (if w.disk.exists p = true then _ else _) w
  cases hex : w.disk.exists p with
  | true => exact performs_removeOrphan tally hp
  | false =>
    refine Prog.Performs.ret_of_eq ?_ trivial
    have hnone : s.view w.disk p = none := by
      rw [s.view_of_prefix hp]
      exact (Tree.exists_eq_false hne).mp hex
    funext q
    show s.view w.disk q = (Change.drop p).apply (s.view w.disk) q
    by_cases hq : q = p
    · subst hq; simp [Change.apply, hnone]
    · simp [Change.apply, hq]

/-- Removing a pack drops its index, then the pack. -/
theorem performs_removePack {mode : SweepMode} (tally : Tally) (hp : IsPackName s.packDir p) :
    s.Performs [.drop (idxOf p), .drop p] (fun _ => True) (removePack s mode tally p) w := by
  have hunder : ∀ q, q ∈ [idxOf p, p] → q ≠ [] ∧ s.objectsDir <+: q := by
    obtain ⟨name, hname⟩ := idxOf_of_isPackName hp
    obtain ⟨name', rfl, -⟩ := hp
    intro q hq
    rcases List.mem_cons.mp hq with rfl | hq
    · rw [hname]
      exact ⟨by simp, s.objectsDir_prefix_of_packDir _⟩
    · obtain rfl := List.mem_singleton.mp hq
      exact ⟨by simp, s.objectsDir_prefix_of_packDir _⟩
  have hloop : s.Performs ([idxOf p, p].flatMap fun q => [Change.drop q])
      (fun _ => ∀ q ∈ [idxOf p, p], True) ([idxOf p, p].foldlM (removeIfThere s mode) tally) w := by
    refine Prog.Performs.foldlM fun done q rest tally t hxs _ => ?_
    have hq : q ∈ [idxOf p, p] := by rw [hxs]; simp
    exact performs_removeIfThere tally (hunder q hq).1 (hunder q hq).2
  exact hloop.bind_nothing fun _ _ _ _ => .ret trivial

/-! ## Rewriting one pack -/

section Rewrite
variable {v : Nodes} {r : PackRewrite} {index : PackIndex}

/-- What a rewrite reads: each hash it keeps, with what the old pack has for it. -/
def keptObjects (c : Crates) (v : Nodes) (r : PackRewrite) : Option (List (Hash × Bytes)) :=
  r.keep.mapM fun h => (recordAt c v r.pack h).map fun d => (h, d)

/-- The pair that a rewrite writes. -/
def rewriteChanges (c : Crates) (s : BlobStore) (v : Nodes) (r : PackRewrite) : List Change :=
  match keptObjects c v r with
  | none => []
  | some objects => createChanges c s objects

/-- The objects, the pack and the index entries of a rewrite, if it reads all it keeps and can
make a pack of it. -/
def replacement (c : Crates) (v : Nodes) (r : PackRewrite) :
    Option (List (Hash × Bytes) × Bytes × List PackIndexEntry) := do
  let objects ← keptObjects c v r
  let packed ← (packObjects c objects).toOption
  return (objects, packed)

theorem replacement_eq_some {objects : List (Hash × Bytes)} {packData : Bytes}
    {entries : List PackIndexEntry} : replacement c v r = some (objects, packData, entries) ↔
      keptObjects c v r = some objects ∧ packObjects c objects = .ok (packData, entries) := by
  unfold replacement
  cases hkept : keptObjects c v r with
  | none => simp
  | some kept =>
    cases hpacked : packObjects c kept with
    | error e =>
      have hne : ∀ h : kept = objects, packObjects c objects ≠ .ok (packData, entries) := by
        rintro rfl
        rw [hpacked]
        simp
      simpa [hpacked, Except.toOption] using hne
    | ok packed =>
      have hiff : (kept = objects ∧ packed = (packData, entries)) ↔
          (kept = objects ∧ packObjects c objects = .ok (packData, entries)) := by
        constructor
        · rintro ⟨rfl, rfl⟩
          exact ⟨rfl, hpacked⟩
        · rintro ⟨rfl, h⟩
          exact ⟨rfl, Except.ok.inj (hpacked.symm.trans h)⟩
      simpa [hpacked, Except.toOption] using hiff

theorem readKept_reads (objects : List (Hash × Bytes)) (h : Hash) :
    (readKept c r index objects h).Uses Request.Reads :=
  (packCas_reads (BlobStore.readBlob_reads _ _ _)).bind fun _ => trivial

theorem recordAt_eq_some {t : Tree} {h : Hash} {d : Bytes} (hi : indexAt t.node p = some index) :
    recordAt c t.node p h = some d ↔ peek (PackFile.readBlob c p index h) t = .ok d := by
  have hload : peek (PackIndex.load (idxOf p)) t = .ok index :=
    peek_load_eq_ok.mpr (show ((t.file (idxOf p)).bind _) = some index from hi)
  rw [← BlobStore.peek_readThrough, BlobStore.readThrough, peek_bind (load_reads _), hload]
  rfl

/-- The reading loop of a rewrite, in terms of the records of the old pack. -/
theorem peek_foldlM_readKept {t : Tree} {keep : List Hash}
    {objects found : List (Hash × Bytes)} (hi : indexAt t.node r.pack = some index)
    (hfound : peek (keep.foldlM (readKept c r index) objects) t = .ok found) :
    ∃ new, found = objects ++ new ∧
      keep.mapM (fun h => (recordAt c t.node r.pack h).map fun d => (h, d)) = some new := by
  induction keep generalizing objects with
  | nil => exact ⟨[], by rw [List.append_nil]; exact (Except.ok.inj hfound).symm, rfl⟩
  | cons h keep ih =>
    rw [List.foldlM_cons, peek_bind (readKept_reads _ _), readKept,
      peek_bind (packCas_reads (BlobStore.readBlob_reads _ _ _)), peek_packCas] at hfound
    cases hread : peek (PackFile.readBlob c r.pack index h) t with
    | error e => rw [hread] at hfound; cases hfound
    | ok d =>
      rw [hread] at hfound
      obtain ⟨new, hnew, hmap⟩ := @ih (objects ++ [(h, d)]) hfound
      have hrecord := (recordAt_eq_some hi).mpr hread
      refine ⟨(h, d) :: new, by rw [hnew, List.append_assoc]; rfl, ?_⟩
      simp [List.mapM_cons, hrecord, hmap]

/-- The index that a rewrite loads, in terms of the view. -/
theorem performs_loadIndex (hp : IsPackName s.packDir p) :
    s.Performs [] (fun index => indexAt (s.view w.disk) p = some index)
      (packCas (PackIndex.load (withExtension p idxExt))) w := by
  refine Prog.Performs.mono (BlobStore.performs_reads (packCas_reads (load_reads _)))
    fun index hi => ?_
  rw [peek_packCas] at hi
  cases hl : peek (PackIndex.load (withExtension p idxExt)) w.disk with
  | error e => rw [hl] at hi; cases hi
  | ok i =>
    rw [hl] at hi
    obtain rfl := Except.ok.inj hi
    rw [s.indexAt_view hp]
    exact peek_load_eq_ok.mp hl

/-- One rewrite, in a state in which the old pack is as it was. -/
theorem performs_rewritePack {tally : Tally} (hdir : s.view w.disk s.packDir = some .dir)
    (hr : IsPackName s.packDir r.pack) (hpack : s.view w.disk r.pack = v r.pack)
    (hidx : s.view w.disk (idxOf r.pack) = v (idxOf r.pack)) :
    s.Performs (rewriteChanges c s v r) (fun _ => (replacement c v r).isSome)
      (rewritePack c s tally r) w := by
  have hreadAll : ∀ t : World, s.view t.disk = s.view w.disk → ∀ index,
      indexAt (s.view t.disk) r.pack = some index → ∀ objects,
      peek (r.keep.foldlM (readKept c r index) []) t.disk = .ok objects →
      keptObjects c v r = some objects := by
    intro t ht index hi objects hobjects
    rw [s.indexAt_view hr] at hi
    obtain ⟨new, hnew, hmap⟩ := peek_foldlM_readKept hi hobjects
    rw [List.nil_append] at hnew
    have hsame : ∀ h, recordAt c t.disk.node r.pack h = recordAt c v r.pack h := by
      intro h
      rw [← s.recordAt_view c hr, ht]
      simp only [recordAt, indexAt, bytesAt_congr hpack, bytesAt_congr hidx]
    rw [hnew, ← hmap, keptObjects]
    simp only [hsame]
  have hlength : ∀ (q : Path) (t : World), s.Performs [] (fun _ => True)
      (ioCas (fileLength q)) t := fun q t =>
    (BlobStore.performs_reads (ioCas_reads (fileLength_reads q))).mono fun _ _ => trivial
  refine (performs_loadIndex hr).bind fun index t ht hi => ?_
  rw [Prog.after_nil] at ht
  have hloop := BlobStore.performs_reads (s := s) (w := t)
    (show (r.keep.foldlM (readKept c r index) []).Uses Request.Reads from
      Prog.Uses.foldlM readKept_reads r.keep [])
  refine hloop.bind fun objects t' ht' hobjects => ?_
  rw [Prog.after_nil] at ht'
  have hkept := hreadAll t ht index (by rw [ht]; exact hi) objects hobjects
  have hchanges : rewriteChanges c s v r = createChanges c s objects := by
    simp only [rewriteChanges, hkept]
  have hdir' : t'.disk.node s.packDir = some .dir := by
    rw [← s.view_packDir, ht', ht]
    exact hdir
  show s.Performs (rewriteChanges c s v r) _ _ t'
  rw [hchanges, ← List.append_nil (createChanges c s objects)]
  refine (performs_create_existing hdir').mapErr.bind fun created t'' _ hcreated => ?_
  obtain ⟨packData, entries, hpacked, -⟩ := hcreated
  refine (hlength _ _).bind fun _ _ _ _ => ?_
  refine (hlength _ _).bind fun _ _ _ _ => ?_
  refine (hlength _ _).bind fun _ _ _ _ => ?_
  refine (hlength _ _).bind_nothing fun _ _ _ _ => ?_
  have hsome := replacement_eq_some.mpr ⟨hkept, hpacked⟩
  exact .ret (by rw [hsome]; rfl)

end Rewrite

/-! ## The whole sweep -/

section Sweep
variable {live : Finset Hash} {v : Nodes} {plan : SweepPlan} {options : SweepOptions}

/-- The rewrites that are carried out. -/
def rewrites (plan : SweepPlan) (options : SweepOptions) : List PackRewrite :=
  if options.rewritePartialPacks then plan.packsToRewrite else []

/-- What the first phase writes. -/
def sweepPuts (c : Crates) (s : BlobStore) (v : Nodes) (plan : SweepPlan)
    (options : SweepOptions) : List Change :=
  (rewrites plan options).flatMap (rewriteChanges c s v)

/-- The phases of an executing sweep that follow the rewrites. -/
def discard (s : BlobStore) (plan : SweepPlan) (options : SweepOptions) (tally : Tally) :
    Action CasError Tally := do
  let tally ← plan.looseGarbage.foldlM (removeLoose s options.mode) tally
  let tally ← plan.orphanFiles.foldlM (removeOrphan s options.mode) tally
  let tally ← (removals plan options).foldlM (removePack s options.mode) tally
  BlobStore.invalidatePackCache
  return tally

theorem execute_discard (c : Crates) (s : BlobStore) (plan : SweepPlan) (options : SweepOptions) :
    execute c s plan options =
      (rewrites plan options).foldlM (rewritePack c s) ⟨0, 0, 0, 0⟩ >>= discard s plan options := rfl

/-- What the later phases remove, in order. -/
def sweepDrops (s : BlobStore) (plan : SweepPlan) (options : SweepOptions) : List Path :=
  plan.looseGarbage.map s.blobPath ++ plan.orphanFiles ++
    (removals plan options).flatMap fun p => [idxOf p, p]

/-- Every rewrite can be carried out. -/
def AllRewritable (c : Crates) (v : Nodes) (plan : SweepPlan) (options : SweepOptions) : Prop :=
  ∀ r ∈ rewrites plan options, (replacement c v r).isSome

instance (v : Nodes) : Decidable (AllRewritable c v plan options) :=
  inferInstanceAs (Decidable (∀ r ∈ rewrites plan options, _))

/-- All changes of an executing sweep: nothing is removed before all rewrites are done. -/
def sweepChanges (c : Crates) (s : BlobStore) (v : Nodes) (plan : SweepPlan)
    (options : SweepOptions) : List Change :=
  sweepPuts c s v plan options ++
    if AllRewritable c v plan options then (sweepDrops s plan options).map .drop else []

/-- No replacement has the name of a pack that is being rewritten. -/
def Apart (c : Crates) (s : BlobStore) (v : Nodes) (rs : List PackRewrite) : Prop :=
  ∀ r ∈ rs, ∀ ch ∈ rewriteChanges c s v r, ∀ r' ∈ rs, ch.path ≠ r'.pack ∧ ch.path ≠ idxOf r'.pack

theorem mem_rewriteChanges {r : PackRewrite} {ch : Change} (h : ch ∈ rewriteChanges c s v r) :
    ∃ objects packData entries, keptObjects c v r = some objects ∧
      packObjects c objects = .ok (packData, entries) ∧
      (ch = .put (PackFile.packPath c s.packDir (serializeIndex entries)) packData ∨
        ch = .put (PackFile.idxPath c s.packDir (serializeIndex entries))
          (serializeIndex entries)) := by
  unfold rewriteChanges at h
  cases hkept : keptObjects c v r with
  | none => rw [hkept] at h; cases h
  | some objects =>
    rw [hkept] at h
    change ch ∈ createChanges c s objects at h
    unfold createChanges at h
    cases hpacked : packObjects c objects with
    | error e => rw [hpacked] at h; cases h
    | ok packed =>
      rw [hpacked] at h
      exact ⟨objects, packed.1, packed.2, rfl, hpacked, by simpa using h⟩

theorem path_of_mem_rewriteChanges {r : PackRewrite} {ch : Change}
    (h : ch ∈ rewriteChanges c s v r) : ∃ name, ch.path = s.packDir ++ [name] := by
  obtain ⟨objects, packData, entries, -, -, rfl | rfl⟩ := mem_rewriteChanges h
  · exact ⟨_, rfl⟩
  · exact ⟨_, rfl⟩

/-- The later phases drop their files one after another. -/
theorem performs_discard {tally : Tally} (horphan : ∀ q ∈ plan.orphanFiles, s.objectsDir <+: q)
    (hremove : ∀ p ∈ removals plan options, IsPackName s.packDir p) :
    s.Performs ((sweepDrops s plan options).map .drop) (fun _ => True)
      (discard s plan options tally) w := by
  have hdrops : (sweepDrops s plan options).map Change.drop =
      plan.looseGarbage.flatMap (fun h => [Change.drop (s.blobPath h)]) ++
        (plan.orphanFiles.flatMap (fun q => [Change.drop q]) ++
          (removals plan options).flatMap fun p => [Change.drop (idxOf p), Change.drop p]) := by
    simp only [sweepDrops, List.map_eq_flatMap, List.flatMap_append, List.flatMap_assoc,
      List.append_assoc, List.flatMap_cons, List.flatMap_nil, List.nil_append, List.cons_append]
  rw [hdrops]
  have hloose : s.Performs (plan.looseGarbage.flatMap fun h => [Change.drop (s.blobPath h)])
      (fun _ => ∀ h ∈ plan.looseGarbage, True)
      (plan.looseGarbage.foldlM (removeLoose s options.mode) tally) w :=
    Prog.Performs.foldlM fun _ h _ tally t _ _ => performs_removeLoose tally h
  refine hloose.bind fun tally t _ _ => ?_
  have horphans : s.Performs (plan.orphanFiles.flatMap fun q => [Change.drop q])
      (fun _ => ∀ q ∈ plan.orphanFiles, True)
      (plan.orphanFiles.foldlM (removeOrphan s options.mode) tally) t := by
    refine Prog.Performs.foldlM fun done q rest tally t hqs _ => ?_
    exact performs_removeOrphan tally (horphan q (by rw [hqs]; simp))
  refine horphans.bind fun tally t _ _ => ?_
  have hpacks : s.Performs ((removals plan options).flatMap
        fun p => [Change.drop (idxOf p), Change.drop p])
      (fun _ => ∀ p ∈ removals plan options, True)
      ((removals plan options).foldlM (removePack s options.mode) tally) t := by
    refine Prog.Performs.foldlM fun done p rest tally t hps _ => ?_
    exact performs_removePack tally (hremove p (by rw [hps]; simp))
  rw [← List.append_nil ((removals plan options).flatMap _)]
  refine hpacks.bind fun tally t _ _ => ?_
  exact Prog.Performs.call rfl (.call rfl (.call rfl (.ret trivial)))

theorem performs_execute (hv : s.view w.disk = v) (hapart : Apart c s v (rewrites plan options))
    (hdir : ∀ r ∈ rewrites plan options, v s.packDir = some .dir)
    (hpack : ∀ r ∈ rewrites plan options, IsPackName s.packDir r.pack)
    (horphan : ∀ q ∈ plan.orphanFiles, s.objectsDir <+: q)
    (hremove : ∀ p ∈ removals plan options, IsPackName s.packDir p) :
    s.Performs (sweepChanges c s v plan options)
      (fun _ => AllRewritable c v plan options) (execute c s plan options) w := by
  have hfirst : s.Performs (sweepPuts c s v plan options)
      (fun _ => AllRewritable c v plan options)
      ((rewrites plan options).foldlM (rewritePack c s) ⟨0, 0, 0, 0⟩) w := by
    refine Prog.Performs.foldlM fun done r rest tally t hrs ht => ?_
    have hmem : ∀ r' ∈ done, r' ∈ rewrites plan options := by
      intro r' hr'
      rw [hrs]
      exact List.mem_append_left _ hr'
    have hr : r ∈ rewrites plan options := by
      rw [hrs]
      simp
    have hkeep : ∀ q, (∀ r' ∈ done, ∀ ch ∈ rewriteChanges c s v r', q ≠ ch.path) →
        s.view t.disk q = v q := by
      intro q hq
      rw [ht, hv]
      refine changed_of_forall_ne fun ch hch => ?_
      obtain ⟨r', hr', hch⟩ := List.mem_flatMap.mp hch
      exact hq r' hr' ch hch
    refine performs_rewritePack ?_ (hpack r hr) ?_ ?_
    · rw [hkeep s.packDir]
      · exact hdir r hr
      · intro r' _ ch hch heq
        obtain ⟨name, hname⟩ := path_of_mem_rewriteChanges hch
        rw [hname] at heq
        exact s.packDir_ne_packFile name heq
    · exact hkeep r.pack fun r' hr' ch hch heq => (hapart r' (hmem r' hr') ch hch r hr).1 heq.symm
    · exact hkeep _ fun r' hr' ch hch heq => (hapart r' (hmem r' hr') ch hch r hr).2 heq.symm
  by_cases hall : AllRewritable c v plan options
  swap
  · -- a rewrite fails, and with it the sweep
    rw [sweepChanges, if_neg hall]
    exact hfirst.bind fun _ _ _ hrewritten => absurd hrewritten hall
  rw [sweepChanges, if_pos hall]
  refine hfirst.bind fun tally t _ _ => ?_
  exact (performs_discard horphan hremove).mono fun _ _ => hall

/-- What is known of the packs and files a plan names. -/
theorem Planned.names (hplan : Planned s (s.view w.disk) live plan) (options : SweepOptions) :
    (∀ r ∈ plan.packsToRewrite, IsPackName s.packDir r.pack ∧
        s.view w.disk s.packDir = some .dir) ∧
      (∀ q ∈ plan.orphanFiles, s.objectsDir <+: q) ∧
      ∀ p ∈ removals plan options, IsPackName s.packDir p := by
  have hentry : ∀ p, s.HasGarbage (s.view w.disk) live p →
      IsPackName s.packDir p ∧ s.view w.disk s.packDir = some .dir := by
    rintro p ⟨g, -, ⟨hname, hsome⟩, -⟩
    refine ⟨hname, ?_⟩
    obtain ⟨name, rfl, -, -⟩ := hname
    rw [s.view_packDir_append] at hsome
    have hparent := Tree.isDir_parent hsome
    rw [List.dropLast_concat] at hparent
    rw [s.view_packDir]
    exact (isDir_iff_node s.packDir_ne_nil).mp hparent
  have hrewrite : ∀ r ∈ plan.packsToRewrite, s.HasGarbage (s.view w.disk) live r.pack := by
    intro r hr
    obtain ⟨h, hh⟩ := List.exists_mem_of_ne_nil _ (hplan.keep_ne_nil r hr)
    exact ((hplan.keep r hr h).mp hh).garbage
  refine ⟨fun r hr => hentry _ (hrewrite r hr), fun q hq => ?_, fun p hp => ?_⟩
  · rcases (hplan.orphanFiles q).mp hq with ⟨⟨⟨name, rfl, -, -⟩, -⟩, -⟩ | ⟨name, rfl, -⟩
    · exact s.objectsDir_prefix_of_packDir _
    · exact s.objectsDir_prefix_of_packDir _
  · unfold removals at hp
    rcases List.mem_append.mp hp with hp | hp
    · exact (hentry p ((hplan.packsToRemove p).mp hp).1).1
    · split_ifs at hp with hopt
      · obtain ⟨r, hr, rfl⟩ := List.mem_map.mp hp
        exact (hentry _ (hrewrite r hr)).1
      · cases hp

/-- The changes of a sweep: none in a dry run, else those of its plan. -/
theorem performs_sweep (hplan : peek (planSweep s live) w.disk = .ok plan)
    (hapart : Apart c s (s.view w.disk) (rewrites plan options)) :
    s.Performs (if options.mode = .dryRun then [] else
        sweepChanges c s (s.view w.disk) plan options)
      (fun report => report.plan = plan ∧ (options.mode ≠ .dryRun →
        AllRewritable c (s.view w.disk) plan options))
      (sweep c s live options) w := by
  have hplanned := planned hplan
  obtain ⟨hpacks, horphan, hremove⟩ := hplanned.names options
  have hmem : ∀ r ∈ rewrites plan options, r ∈ plan.packsToRewrite := by
    intro r hr
    unfold rewrites at hr
    split_ifs at hr with hopt
    · exact hr
    · cases hr
  have hread : s.Performs [] (fun a => a = plan) (planSweep s live) w := by
    refine (BlobStore.performs_reads planSweep_reads).mono fun a ha => ?_
    exact Except.ok.inj (ha.symm.trans hplan)
  rw [← List.nil_append (if options.mode = .dryRun then [] else
    sweepChanges c s (s.view w.disk) plan options)]
  refine hread.bind fun found t ht hfound => ?_
  subst hfound
  rw [Prog.after_nil] at ht
  by_cases hdry : options.mode = .dryRun
  · rw [if_pos hdry, if_pos hdry]
    exact .ret ⟨rfl, fun hne => absurd hdry hne⟩
  · rw [if_neg hdry, if_neg hdry]
    have hexec : s.Performs (sweepChanges c s (s.view w.disk) found options)
        (fun _ => AllRewritable c (s.view w.disk) found options) (execute c s found options) t :=
      performs_execute ht hapart
      (fun r hr => (hpacks r (hmem r hr)).2) (fun r hr => (hpacks r (hmem r hr)).1) horphan hremove
    rw [← List.append_nil (sweepChanges c s (s.view w.disk) found options)]
    exact hexec.bind fun tally t' _ hrewritten => .ret ⟨rfl, fun _ => hrewritten⟩

end Sweep

end Gc

end CasKit
