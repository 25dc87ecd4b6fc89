import CasKit.Canonical
import CasKit.Coherent
import CasKit.Repacking
import CasKit.Session

/-!
# Cached and uncached reading

A handle keeps blobs and pack indices in memory, and a freshly opened handle has only the disk.
The two read alike as long as everything in memory can still be found on disk. `repack` and
`sweep` drop the pack indices, but no call drops a blob: one that a call takes from the disk is
served from memory all the same.
-/
namespace CasKit
open Effects Files Codec

namespace BlobStore
variable {c : Crates} {s : BlobStore} {t : Tree} {h : Hash} {d : Bytes} {w : World}

/-! ## What the disk holds -/

/-- A freshly opened handle can return these bytes: the loose file has them, or there is none and
the packs can answer with them. -/
def Held (c : Crates) (s : BlobStore) (v : Nodes) (h : Hash) (d : Bytes) : Prop :=
  (∃ raw, bytesAt v (s.blobPath h) = some raw ∧ s.decodeLoose c raw h = .ok d) ∨
    (v (s.blobPath h) = none ∧ s.PacksHold c v h d)

theorem held_iff : (∃ order, peek (s.fetchBlob c order h) t = .ok d) ↔
    s.Held c (s.view t) h d := by
  unfold Held
  simp only [peek_fetchBlob, view_blobPath]
  cases hn : t.node (s.blobPath h) with
  | none =>
    have hex : t.exists (s.blobPath h) = false := (Tree.exists_eq_false s.blobPath_ne_nil).mpr hn
    have hraw : ∀ raw, bytesAt (s.view t) (s.blobPath h) ≠ some raw := by
      intro raw hraw
      rw [bytesAt_congr (s.view_blobPath t h), bytesAt_eq_some, hn] at hraw
      cases hraw
    simp only [hex, Bool.false_eq_true, if_false, peek_fetchPacked, packsHold_iff, true_and]
    constructor
    · exact Or.inr
    · rintro (⟨raw, hr, -⟩ | hp)
      · exact absurd hr (hraw raw)
      · exact hp
  | some n =>
    have hex : t.exists (s.blobPath h) = true := by simp [Tree.exists, hn]
    simp only [hex, if_true, peek_fetchLoose, reduceCtorEq, false_and, or_false]
    rw [bytesAt_congr (s.view_blobPath t h), bytesAt_node]
    constructor
    · intro hread
      obtain ⟨-, hr⟩ := hread
      exact hr
    · intro hr
      exact ⟨.inserted, hr⟩

theorem Held.congr {v u : Nodes} (hheld : s.Held c v h d) (hpacks : s.SamePacks v u)
    (hloose : u (s.blobPath h) = v (s.blobPath h)) : s.Held c u h d := by
  rcases hheld with ⟨raw, hraw, hd⟩ | ⟨hnone, hload, p, hp, hrec⟩
  · exact .inl ⟨raw, (bytesAt_congr hloose).trans hraw, hd⟩
  · refine .inr ⟨hloose.trans hnone, hpacks.loadable_iff.mpr hload, p,
      hpacks.lists_iff.mpr hp, ?_⟩
    rw [hpacks.recordAt_eq hp.1.1]
    exact hrec

/-- What a verifying handle can return has the digest. -/
theorem Held.hash {v : Nodes} (hv : s.verifyOnRead = true) (hheld : s.Held c v h d) :
    hashBytes c d = h := by
  rcases hheld with ⟨raw, -, hd⟩ | ⟨-, -, p, -, hrec⟩
  · exact s.decodeLoose_verified hv hd
  · exact (Gc.recordAt_hash hrec).1

/-- Loading finds in one pack directory what it finds in the other. -/
theorem LoadedAs.congr {order : HashOrder} {t' : Tree} {cache : Option PackCache}
    (hcache : s.LoadedAs order t cache) (hpacks : s.SamePacks (s.view t) (s.view t')) :
    s.LoadedAs order t' cache := by
  intro pc hpc
  have hfound := hcache pc hpc
  have hload : s.Loadable (s.view t) := by
    by_contra hnot
    obtain ⟨e, hfail⟩ := (s.peek_loadAll order).2 hnot
    rw [hfail] at hfound
    cases hfound
  obtain ⟨ps, hps, hold⟩ := (s.peek_loadAll order).1 hload
  obtain ⟨ps', hps', hnew⟩ := (s.peek_loadAll order).1 (hpacks.loadable_iff.mpr hload)
  -- both directories are listed in order, and they have the same packs
  have hsame : ps' = ps := by
    refine List.Perm.eq_of_pairwise' (r := (· ≤ ·)) (sorted_listPacks hps') (sorted_listPacks hps)
      ((List.perm_ext_iff_of_nodup (nodup_listPacks hps') (nodup_listPacks hps)).mpr fun p => ?_)
    rw [s.mem_listPacks_view hps', s.mem_listPacks_view hps, hpacks.packEntry_iff]
  have hindices : loadedFrom t'.node ps' = loadedFrom t.node ps := by
    rw [hsame]
    refine List.filterMap_congr fun p hp => ?_
    have hentry := (s.mem_listPacks_view hps p).mp hp
    rw [← s.indexAt_view hentry.1, ← s.indexAt_view hentry.1, hpacks.indexAt_eq hentry.1]
  rw [hold] at hfound
  rw [hnew, hindices]
  exact hfound

/-! ## Caches that agree with the disk -/

/-- Everything that the handle has in memory a freshly opened one can find on disk. -/
structure Agrees (c : Crates) (s : BlobStore) (w : World) : Prop where
  packs : ∃ order, s.LoadedAs order w.disk w.caches.packCache
  blobs : ∀ e ∈ w.caches.blobCache, s.Held c (s.view w.disk) e.1 e.2

/-- Reading on the handle is reading on a freshly opened one. What a hash map iterates over comes
in an order of its own, so a fresh handle may answer in more than one way; it is one of these. -/
structure Transparent (c : Crates) (s : BlobStore) (w : World) : Prop where
  get : ∀ order h, ∃ order', (run (s.getBlob c order h) w).1 =
    (run (s.getBlob c order' h) ⟨w.disk, .empty⟩).1
  has : ∀ order order' h, (run (s.hasBlob order h) w).1 =
    (run (s.hasBlob order' h) ⟨w.disk, .empty⟩).1
  found : ∀ order order' h d, (run (s.getBlob c order h) w).1 = .ok d →
    (run (s.hasBlob order' h) w).1 = .ok true

theorem agrees_fresh : Agrees c s ⟨t, .empty⟩ := by
  constructor
  · refine ⟨.inserted, fun pc hpc => ?_⟩
    cases hpc
  · intro e he
    cases he

section Agrees
variable (hw : Agrees c s w)
include hw

theorem Agrees.served (order : HashOrder) : ∃ order', Served s order order' w := by
  cases hcache : w.caches.packCache with
  | none =>
    refine ⟨order, fun pc hpc => ?_, fun _ => rfl⟩
    rw [hcache] at hpc
    cases hpc
  | some pc =>
    obtain ⟨order', hloaded⟩ := hw.packs
    refine ⟨order', hloaded, fun hnone => ?_⟩
    rw [hcache] at hnone
    cases hnone

/-- The handle sees what a fresh one sees. -/
theorem Agrees.sees_iff (h : Hash) : s.Sees w h ↔ s.Sees ⟨w.disk, .empty⟩ h := by
  refine or_congr_right ?_
  cases hcache : w.caches.packCache with
  | none => rfl
  | some pc =>
    obtain ⟨order, hloaded⟩ := hw.packs
    have hpc := hloaded pc hcache
    show h ∈ pc.allHashes ↔ s.Loadable (s.view w.disk) ∧ ∃ p, s.Lists (s.view w.disk) p h
    by_cases hload : s.Loadable (s.view w.disk)
    · obtain ⟨pc', hpc', hmem⟩ := s.loaded_hashes order hload
      obtain rfl : pc = pc' := Except.ok.inj (hpc.symm.trans hpc')
      rw [hmem]
      exact (and_iff_right hload).symm
    · obtain ⟨e, hfail⟩ := (s.peek_loadAll order).2 hload
      rw [hfail] at hpc
      cases hpc

theorem Agrees.get (order : HashOrder) (h : Hash) : ∃ order',
    (run (s.getBlob c order h) w).1 = (run (s.getBlob c order' h) ⟨w.disk, .empty⟩).1 := by
  obtain ⟨order', hserved⟩ := hw.served order
  rcases run_getBlob_served (c := c) (h := h) hserved with
    ⟨data, blobs, hmem, hrun, -⟩ | ⟨cache, blobs, hrun, -, -⟩
  · obtain ⟨order'', hfetch⟩ := held_iff.mpr (hw.blobs _ hmem)
    refine ⟨order'', ?_⟩
    rw [hrun, fresh_getBlob]
    exact hfetch.symm
  · refine ⟨order', ?_⟩
    rw [hrun, fresh_getBlob]

theorem Agrees.transparent : Transparent c s w := by
  refine ⟨hw.get, fun order order' h => ?_, fun order order' h d hget => ?_⟩
  · obtain ⟨b, hrun, hb⟩ := s.run_hasBlob (h := h) (w := w) order
    obtain ⟨b', hrun', hb'⟩ := s.run_hasBlob (h := h) (w := ⟨w.disk, .empty⟩) order'
    have hsame : b = b' := by
      rw [Bool.eq_iff_iff, hb, hb']
      exact hw.sees_iff h
    rw [hrun, hrun', hsame]
  · obtain ⟨order'', hfresh⟩ := hw.get order h
    rw [hget, fresh_getBlob] at hfresh
    have hheld := held_iff.mp ⟨order'', hfresh.symm⟩
    rw [hasBlob_true, hw.sees_iff]
    rcases hheld with ⟨raw, hraw, -⟩ | ⟨-, hload, p, hp, -⟩
    · left
      rw [bytesAt_congr (s.view_blobPath w.disk h), bytesAt_node] at hraw
      exact Tree.exists_of_file hraw
    · exact .inr ⟨hload, p, hp⟩

/-! ## Reading keeps the agreement -/

theorem Agrees.getBlob (order : HashOrder) (h : Hash) :
    Agrees c s (run (s.getBlob c order h) w).2 ∧
      (run (s.getBlob c order h) w).2.disk = w.disk ∧
        ∀ d, (run (s.getBlob c order h) w).1 = .ok d → s.Held c (s.view w.disk) h d := by
  obtain ⟨order', hserved⟩ := hw.served order
  rcases run_getBlob_served (c := c) (h := h) hserved with
    ⟨data, blobs, hmem, hrun, hblobs⟩ | ⟨cache, blobs, hrun, hcache, hblobs⟩
  · rw [hrun]
    refine ⟨⟨hw.packs, fun e he => hw.blobs e (hblobs e he)⟩, rfl, fun d hd => ?_⟩
    rw [← Except.ok.inj hd]
    exact hw.blobs _ hmem
  · rw [hrun]
    refine ⟨⟨⟨order', hcache⟩, fun e he => ?_⟩, rfl, fun d hd => held_iff.mp ⟨order', hd⟩⟩
    rcases hblobs e he with hold | ⟨hh, hnew⟩
    · exact hw.blobs e hold
    · rw [hh]
      exact held_iff.mp ⟨order', hnew⟩

theorem Agrees.hasBlob (order : HashOrder) (h : Hash) :
    Agrees c s (run (s.hasBlob order h) w).2 := by
  obtain ⟨order', hserved⟩ := hw.served order
  have hstart : run (s.hasBlob order h) w = run (if w.disk.exists (s.blobPath h) then .ret true
      else s.hasBlobPacked order h : Action CasError Bool) w := rfl
  rw [hstart]
  cases hex : w.disk.exists (s.blobPath h) with
  | true => exact hw
  | false =>
    obtain ⟨cache, hrun, hcache⟩ :=
      run_withPackCache_served hserved fun pc => (pc.find h).isSome
    have hafter : Agrees c s (withCache w cache) := ⟨⟨order', hcache⟩, hw.blobs⟩
    rw [if_neg Bool.false_ne_true, run_hasBlobPacked_start, hrun]
    cases peek (PackCache.loadAll order' s.packDir) w.disk with
    | ok pc => exact hafter
    | error e => exact hafter

/-- The reading loop of `repack` keeps the agreement, and what it reads is on disk. -/
theorem Agrees.readAll (order : HashOrder) (hashes : List Hash) :
    Agrees c s (run (hashes.foldlM (s.readObject c order) []) w).2 ∧
      ∀ objects, (run (hashes.foldlM (s.readObject c order) []) w).1 = .ok objects →
        objects.map Prod.fst = hashes ∧ ∀ o ∈ objects, s.Held c (s.view w.disk) o.1 o.2 := by
  constructor
  · suffices hgen : ∀ (hashes : List Hash) (done : List (Hash × Bytes)) (u : World),
        Agrees c s u → Agrees c s (run (hashes.foldlM (s.readObject c order) done) u).2 from
      hgen hashes [] w hw
    intro hashes
    induction hashes with
    | nil => exact fun _ _ hu => hu
    | cons h hashes ih =>
      intro done u hu
      obtain ⟨hnext, -, -⟩ := hu.getBlob order h
      rw [List.foldlM_cons]
      cases hget : run (s.getBlob c order h) u with
      | mk res u' =>
        rw [hget] at hnext
        cases res with
        | error e =>
          have hread : run (s.readObject c order done h) u = (.error e, u') := run_bind_error hget
          rw [run_bind_error hread]
          exact hnext
        | ok d =>
          have hread : run (s.readObject c order done h) u = (.ok (done ++ [(h, d)]), u') :=
            run_bind_ok hget
          rw [run_bind_ok hread]
          exact ih _ _ hnext
  · intro objects hrun
    obtain ⟨new, hnew, hkeys, hall⟩ := run_readAll
      (I := fun u => Agrees c s u ∧ u.disk = w.disk)
      (P := fun h d => s.Held c (s.view w.disk) h d)
      (fun u h hu d hd => by
        obtain ⟨hnext, hdisk, hheld⟩ := hu.1.getBlob order h
        rw [hu.2] at hdisk hheld
        exact ⟨⟨hnext, hdisk⟩, hheld d hd⟩) ⟨hw, rfl⟩ hrun
    obtain rfl : objects = new := hnew
    exact ⟨hkeys, hall⟩

end Agrees

/-! ## Calls that keep the agreement -/

/-- Packs and cached blobs that are on disk after a call as before. -/
theorem Agrees.of_disk {t' : Tree} (hw : Agrees c s w)
    (hpacks : s.SamePacks (s.view w.disk) (s.view t'))
    (hblobs : ∀ e ∈ w.caches.blobCache, s.Held c (s.view t') e.1 e.2) {dirs : List Path} :
    Agrees c s ⟨t', { w.caches with knownDirs := dirs }⟩ := by
  obtain ⟨order, hloaded⟩ := hw.packs
  exact ⟨⟨order, hloaded.congr hpacks⟩, hblobs⟩

/-- A put may write the file of a cached blob only in a form that leads back to what is cached. -/
def PutKeeps (c : Crates) (s : BlobStore) (w : World) (call : PutCall) : Prop :=
  ∀ e ∈ w.caches.blobCache, e.1 = hashBytes c call.bytes →
    s.view w.disk (s.blobPath e.1) = none →
      ∀ raw, s.storedForm c call.bytes = .ok raw → s.decodeLoose c raw e.1 = .ok e.2

theorem Agrees.put {call : PutCall} (hw : Agrees c s w) (hkeeps : PutKeeps c s w call) :
    Agrees c s (run (call.action c s) w).2 := by
  obtain ⟨n, hn⟩ := Prog.exists_cut_eq_exec answer (call.action c s) w
  obtain ⟨hpacks, hloose⟩ := put_moment (c := c) (s := s) (w := w) call n
  rw [show cutOff n (call.action c s) w = (run (call.action c s) w).2 from hn] at hpacks hloose
  have hstores := call.action_stores (c := c) (s := s)
  have hcache := (hstores.mono fun _ h => h.sparesPacks).exec_eq (h := answer)
    (fun w => w.caches.packCache) (fun _ u ho => answer_sparesPacks ho u) w
  have hblob := (hstores.mono fun _ h => h.sparesBlobs).exec_eq (h := answer)
    (fun w => w.caches.blobCache) (fun _ u ho => answer_sparesBlobs ho u) w
  constructor
  · obtain ⟨order, hloaded⟩ := hw.packs
    refine ⟨order, ?_⟩
    rw [show (run (call.action c s) w).2.caches.packCache = _ from hcache]
    exact hloaded.congr hpacks
  · intro e he
    rw [show (run (call.action c s) w).2.caches.blobCache = _ from hblob] at he
    rcases hloose e.1 with hsame | ⟨heq, hnone, raw, hraw, hfile⟩
    · exact (hw.blobs e he).congr hpacks hsame
    · exact .inl ⟨raw, bytesAt_eq_some.mpr hfile, hkeeps e he heq hnone raw hraw⟩

/-- A blob with a loose file may be deleted from under the cache only if the packs can answer with
what is cached. -/
def DeleteKeeps (c : Crates) (s : BlobStore) (w : World) (hash : Hash) : Prop :=
  ∀ e ∈ w.caches.blobCache, e.1 = hash → s.IsLoose (s.view w.disk) hash →
    s.PacksHold c (s.view w.disk) e.1 e.2

theorem Agrees.delete {hash : Hash} (hw : Agrees c s w) (hkeeps : DeleteKeeps c s w hash) :
    Agrees c s (run (s.deleteBlob hash) w).2 := by
  have hrun : run (s.deleteBlob hash) w =
      (((w.update (w.disk.removeFile (s.blobPath hash))).1).mapError fun e =>
        if e = .notFound then .blobNotFound hash.toHex else .io e,
        (w.update (w.disk.removeFile (s.blobPath hash))).2) := by
    rw [deleteBlob, run_mapErr, run_removeFile]
  rw [hrun]
  cases hremove : w.disk.removeFile (s.blobPath hash) with
  | error e => exact hw
  | ok t' =>
    have hnode : ∀ p, t'.node p = if p = s.blobPath hash then none else w.disk.node p :=
      Tree.node_removeFile hremove
    have hpacks : s.SamePacks (s.view w.disk) (s.view t') := by
      constructor
      · rw [view_packDir, view_packDir, hnode, if_neg (s.blobPath_ne_packDir hash).symm]
      · intro name
        rw [view_packDir_append, view_packDir_append, hnode,
          if_neg (s.blobPath_ne_packFile hash name).symm]
    refine hw.of_disk hpacks fun e he => ?_
    by_cases heq : e.1 = hash
    · obtain ⟨b, hb⟩ := Tree.file_of_removeFile hremove
      have hloose : s.IsLoose (s.view w.disk) hash := by
        refine ⟨b, ?_⟩
        rw [view_blobPath]
        exact Tree.file_eq_some.mp hb
      obtain ⟨hload, p, hp, hrec⟩ := hkeeps e he heq hloose
      refine .inr ⟨?_, hpacks.loadable_iff.mpr hload, p, hpacks.lists_iff.mpr hp, ?_⟩
      · rw [view_blobPath, hnode, heq, if_pos rfl]
      · rw [hpacks.recordAt_eq hp.1.1]
        exact hrec
    · refine (hw.blobs e he).congr hpacks ?_
      rw [view_blobPath, view_blobPath, hnode, if_neg]
      exact fun hsame => heq (s.blobPath_injective hsame)

/-! ## Repack -/

/-- Bytes that can be found when the loose blobs `objects` are in a pack `new` that lists `packed`:
the indices of the other packs load, and either the new pack has the hash, with these bytes and
within the cap, or another pack has them. -/
structure StaysHeld (c : Crates) (s : BlobStore) (v : Nodes) (new : Path) (packed : List Hash)
    (objects : List (Hash × Bytes)) (h : Hash) (d : Bytes) : Prop where
  loads : ∀ p, s.Indexed v p → p ≠ new → ∃ i, indexAt v p = some i
  somewhere : (h ∈ packed ∧ d.length ≤ maxDecompressedSize ∧ ∀ o ∈ objects, o.1 = h → o.2 = d) ∨
    ∃ p, p ≠ new ∧ s.Lists v p h ∧ recordAt c v p h = some d

theorem Repacked.held {v : Nodes} {t' : Tree} {hashes : List Hash} {objects : List (Hash × Bytes)}
    {packData : Bytes} {entries : List PackIndexEntry}
    (hu : Repacked c s v hashes objects packData entries (s.view t')) (hz : ZstdSound c)
    (hkeys : objects.map Prod.fst = hashes) (hdata : ∀ o ∈ objects, hashBytes c o.2 = o.1)
    (hloose : s.IsLoose v h → h ∈ hashes) (hheld : s.Held c v h d)
    (hstays : StaysHeld c s v (PackFile.packPath c s.packDir (serializeIndex entries))
      (hashes.take (hashes.length % 2 ^ 32)) objects h d) : s.Held c (s.view t') h d := by
  have hlen : objects.length = hashes.length := by rw [← hkeys, List.length_map]
  have hnone : s.view t' (s.blobPath h) = none := by
    by_cases hh : h ∈ hashes
    · exact hu.gone h hh
    · rcases hheld with ⟨raw, hraw, -⟩ | ⟨hn, -⟩
      · exact absurd (hloose ⟨raw, bytesAt_eq_some.mp hraw⟩) hh
      · exact (hu.kept h hh).trans hn
  refine .inr ⟨hnone, ⟨hu.written.no_file, fun q hq => ?_⟩, ?_⟩
  · by_cases hne : q = PackFile.packPath c s.packDir (serializeIndex entries)
    · rw [hne]
      exact ⟨_, hu.written.indexAt⟩
    · obtain ⟨i, hi⟩ := hstays.loads q ((hu.pair.indexed_iff hne).mp hq) hne
      refine ⟨i, ?_⟩
      rw [hu.pair.indexAt_eq hq.1.1 hne]
      exact hi
  · rcases hstays.somewhere with ⟨hh, hfits, hone⟩ | ⟨p, hne, hp, hrec⟩
    · have hlists : s.Lists (s.view t')
          (PackFile.packPath c s.packDir (serializeIndex entries)) h := by
        rw [hu.written.lists_iff, hkeys, hlen]
        exact hh
      exact ⟨_, hlists, (hu.written.recordAt_iff hz hdata hone hlists).mpr hfits⟩
    · refine ⟨p, (hu.pair.lists_iff hne).mpr hp, ?_⟩
      rw [hu.pair.recordAt_eq hp.1.1 hne]
      exact hrec

/-- What is cached once `repack` has read the loose blobs can be found after it has packed them. -/
def RepackKeeps (c : Crates) (s : BlobStore) (order : HashOrder) (w : World) : Prop :=
  ∀ objects packData entries u,
    run ((s.looseOn w.disk).foldlM (s.readObject c order) []) w = (.ok objects, u) →
      packObjects c objects = .ok (packData, entries) → ∀ e ∈ u.caches.blobCache,
        StaysHeld c s (s.view w.disk) (PackFile.packPath c s.packDir (serializeIndex entries))
          ((s.looseOn w.disk).take ((s.looseOn w.disk).length % 2 ^ 32)) objects e.1 e.2

theorem Agrees.repack {order : HashOrder} {threshold : ℕ} (hz : ZstdSound c)
    (hv : s.verifyOnRead = true) (hw : Agrees c s w)
    (hfail : ∀ e, (run (s.repack c order threshold) w).1 = .error e →
      (run (s.repack c order threshold) w).2.disk = w.disk)
    (hkeeps : (s.looseOn w.disk).length ≤ threshold ∨ RepackKeeps c s order w) :
    Agrees c s (run (s.repack c order threshold) w).2 := by
  have hstart := run_repack (c := c) (s := s) (w := w) order threshold
  cases hlist : peek s.listBlobs w.disk with
  | error e =>
    rw [hlist] at hstart
    rw [hstart]
    exact hw
  | ok hashes =>
    obtain ⟨-, hnamed⟩ := s.listBlobs_mem hlist
    obtain rfl : s.looseOn w.disk = hashes := by rw [looseOn, hlist]; rfl
    simp only [hlist] at hstart
    by_cases hle : (s.looseOn w.disk).length ≤ threshold
    · rw [hstart, if_pos hle]
      exact hw
    · rw [if_neg hle] at hstart
      obtain ⟨hnext, hobjects⟩ := hw.readAll order (s.looseOn w.disk)
      cases hread : run ((s.looseOn w.disk).foldlM (s.readObject c order) []) w with
      | mk res u =>
        rw [hread] at hnext hobjects
        have hdisk : u.disk = w.disk := by
          have hsame := readAll_disk (c := c) (s := s) (w := w) order (s.looseOn w.disk) []
          rw [hread] at hsame
          exact hsame
        cases res with
        | error e =>
          rw [hstart, run_bind_error hread]
          exact hnext
        | ok objects =>
          rw [run_bind_ok hread] at hstart
          obtain ⟨hkeys, hheld⟩ := hobjects objects rfl
          obtain ⟨hblobs, hcacheErr, hcacheOk⟩ :=
            run_packAway (c := c) (s := s) (w := u) (s.looseOn w.disk) objects
          rw [← hstart] at hblobs hcacheErr hcacheOk
          cases hres : (run (s.repack c order threshold) w).1 with
          | error e =>
            have hcache := hcacheErr e hres
            have hback := hfail e hres
            constructor
            · obtain ⟨o, hloaded⟩ := hnext.packs
              refine ⟨o, ?_⟩
              rw [hback, hcache, ← hdisk]
              exact hloaded
            · rw [hblobs, hback, ← hdisk]
              exact hnext.blobs
          | ok n =>
            refine ⟨⟨.inserted, fun pc hpc => ?_⟩, fun e he => ?_⟩
            · rw [hcacheOk n hres] at hpc
              cases hpc
            · rw [hblobs] at he
              have hperf := @performs_repack c s w order (s.looseOn w.disk) objects threshold hlist
                (fun found hfound => by
                  rw [hread] at hfound
                  exact (Except.ok.inj hfound).symm)
                (fun _ h hh hdir => by
                  rw [← hkeys] at hh
                  obtain ⟨o, ho, rfl⟩ := List.mem_map.mp hh
                  rcases hheld o ho with ⟨raw, hraw, -⟩ | ⟨hnone, -⟩
                  · rw [bytesAt_eq_some, hdir] at hraw
                    cases hraw
                  · rw [hdir] at hnone
                    cases hnone)
              obtain ⟨hview, hcreated⟩ := hperf.at_ok (Prod.ext hres rfl)
              obtain ⟨-, r, packData, entries, hpacked, -⟩ := hcreated (by omega)
              rw [if_neg hle] at hview
              have hu := @repacked_changed _ s (s.view w.disk) (s.looseOn w.disk) _ _ _ hpacked
              rw [show changed _ (s.view w.disk) = s.view (run (s.repack c order threshold) w).2.disk
                from hview.symm] at hu
              have hbefore := hnext.blobs e he
              rw [hdisk] at hbefore
              refine hu.held hz hkeys (fun o ho => (hheld o ho).hash hv) (fun hloose => ?_) hbefore
                ((hkeeps.resolve_left hle) objects packData entries u hread hpacked e he)
              exact (hnamed e.1).mpr (namedLoose_of_isLoose hloose)

end BlobStore

/-! ## Sweep -/

namespace Gc
variable {c : Crates} {s : BlobStore} {live : Finset Hash} {options : SweepOptions} {w : World}
  {h : Hash} {d : Bytes}

/-- Bytes that a sweep leaves where they can be found: in the loose file of a live hash, or in a
pack that stays, or in a replacement that no orphan takes along. -/
def LeavesHeld (c : Crates) (s : BlobStore) (v : Nodes) (live : Finset Hash)
    (options : SweepOptions) (h : Hash) (d : Bytes) : Prop :=
  (s.IsLoose v h ∧ h ∈ live) ∨ (s.Loadable v ∧
    ((∃ p, s.Lists v p h ∧ ¬ Removed s v live options p ∧ recordAt c v p h = some d) ∨
      ∃ r objects packData entries, Replacement c s v live options r objects packData entries ∧
        h ∈ r.keep ∧ ¬ Clash c s v entries ∧ recordAt c v r.pack h = some d))

theorem Done.held {t : Tree} {u : Nodes} (hz : ZstdSound c) (hl : s.Layout (s.view t))
    (hsep : Separate c s (s.view t) live options) (hu : Done c s (s.view t) live options u)
    (hheld : s.Held c (s.view t) h d) (hleaves : LeavesHeld c s (s.view t) live options h d) :
    s.Held c u h d := by
  have hlooseLive : s.IsLoose (s.view t) h → h ∈ live → s.Held c u h d := by
    intro hloose hh
    have hsame := hu.partly.blobPath_eq hh
    rcases hheld with ⟨raw, hraw, hd⟩ | ⟨hnone, -⟩
    · exact .inl ⟨raw, (bytesAt_congr hsame).trans hraw, hd⟩
    · obtain ⟨b, hb⟩ := hloose
      rw [hnone] at hb
      cases hb
  rcases hleaves with ⟨hloose, hh⟩ | ⟨hload, hpacks⟩
  · exact hlooseLive hloose hh
  · by_cases hboth : s.IsLoose (s.view t) h ∧ h ∈ live
    · exact hlooseLive hboth.1 hboth.2
    · have hnone : u (s.blobPath h) = none := by
        by_cases hloose : s.IsLoose (s.view t) h
        · refine hu.gone _ (discards_blobPath_iff.mpr ⟨BlobStore.namedLoose_of_isLoose hloose, ?_⟩)
          exact fun hh => hboth ⟨hloose, hh⟩
        · have hbefore : s.view t (s.blobPath h) = none := by
            rcases hheld with ⟨raw, hraw, -⟩ | ⟨hnone, -⟩
            · exact absurd ⟨raw, bytesAt_eq_some.mp hraw⟩ hloose
            · exact hnone
          rcases hu.partly.node (s.blobPath h) with heq | ⟨hgone, -⟩ | ⟨b, hput, -⟩
          · exact heq.trans hbefore
          · exact hgone
          · exact absurd hput not_replaces_blobPath
      refine .inr ⟨hnone, hu.loadable hl hsep hload, ?_⟩
      rcases hpacks with ⟨p, hp, hstay, hrec⟩ |
        ⟨r, objects, packData, entries, hrep, hkeep, hclash, hrec⟩
      · obtain ⟨hlists, hsame⟩ := hu.lists_of_stays hl hsep hp hstay
        exact ⟨p, hlists, hsame.trans hrec⟩
      · obtain ⟨hlists, hsame, -⟩ := hu.lists_of_replacement hsep hz hrep hclash hkeep
        exact ⟨_, hlists, hsame.trans hrec⟩

/-- A sweep leaves the blob cache alone. It drops the pack indices if it executes a plan and
returns, and keeps them otherwise. -/
theorem run_sweep_caches (live : Finset Hash) (options : SweepOptions) :
    (run (sweep c s live options) w).2.caches.blobCache = w.caches.blobCache ∧
    ((run (sweep c s live options) w).2.caches.packCache = w.caches.packCache ∨
      (run (sweep c s live options) w).2.caches.packCache = none) ∧
    ∀ report, (run (sweep c s live options) w).1 = .ok report → report.executed = true →
      (run (sweep c s live options) w).2.caches.packCache = none := by
  have hfiles := sweepFiles_onFiles (c := c) (s := s) live options
  have hblobs := (hfiles.mono fun _ h => h.sparesBlobs).exec_eq (h := answer)
    (fun w => w.caches.blobCache) (fun _ u ho => answer_sparesBlobs ho u) w
  have hpacks := (hfiles.mono fun _ h => h.sparesPacks).exec_eq (h := answer)
    (fun w => w.caches.packCache) (fun _ u ho => answer_sparesPacks ho u) w
  rw [sweep_eq]
  cases hres : run (sweepFiles c s live options) w with
  | mk res u =>
    rw [show Prog.exec answer (sweepFiles c s live options) w = (res, u) from hres] at hblobs hpacks
    cases res with
    | error e =>
      rw [run_bind_error hres]
      exact ⟨hblobs, .inl hpacks, fun report hr => by cases hr⟩
    | ok report =>
      rw [run_bind_ok hres, finish]
      cases hexec : report.executed with
      | true => exact ⟨hblobs, .inr rfl, fun _ _ _ => rfl⟩
      | false =>
        refine ⟨hblobs, .inl hpacks, fun report' hr hexec' => ?_⟩
        rw [← Except.ok.inj hr, hexec] at hexec'
        cases hexec'

/-- The report says whether a plan was executed. -/
theorem run_sweep_executed {report : SweepReport} {w' : World}
    (hrun : run (sweep c s live options) w = (.ok report, w')) :
    (options.mode = .dryRun → w' = w) ∧ (options.mode ≠ .dryRun → report.executed = true) := by
  obtain ⟨plan, u, hplan, hrest⟩ := run_bind_eq_ok hrun
  constructor
  · intro hdry
    rw [if_pos hdry] at hrest
    obtain ⟨-, rfl⟩ := Prod.mk.inj hrest
    rw [run_of_reads planSweep_reads] at hplan
    exact (Prod.mk.inj hplan).2.symm
  · intro hdry
    rw [if_neg hdry] at hrest
    obtain ⟨tally, u', -, hreport⟩ := run_bind_eq_ok hrest
    obtain ⟨hres, -⟩ := Prod.mk.inj hreport
    rw [← Except.ok.inj hres]

/-- A sweep may take a cached blob from the disk only if it leaves it in a pack. That is said for a
store in which the loose blobs are at their own paths and no replacement has the name of a pack. -/
def SweepKeeps (c : Crates) (s : BlobStore) (w : World) (live : Finset Hash)
    (options : SweepOptions) : Prop :=
  s.Layout (s.view w.disk) ∧ Separate c s (s.view w.disk) live options ∧
    ∀ e ∈ w.caches.blobCache, LeavesHeld c s (s.view w.disk) live options e.1 e.2

end Gc

namespace BlobStore
variable {c : Crates} {s : BlobStore} {w : World}

theorem Agrees.sweep {live : Finset Hash} {options : Gc.SweepOptions} (hz : ZstdSound c)
    (hw : Agrees c s w)
    (hfail : ∀ e, (run (Gc.sweep c s live options) w).1 = .error e →
      (run (Gc.sweep c s live options) w).2.disk = w.disk)
    (hkeeps : options.mode = .dryRun ∨ Gc.SweepKeeps c s w live options) :
    Agrees c s (run (Gc.sweep c s live options) w).2 := by
  obtain ⟨hblobs, hcache, hdrops⟩ :=
    Gc.run_sweep_caches (c := c) (s := s) (w := w) live options
  -- where the disk is as before, so is what the handle has in memory, or less of it
  have hsame : (run (Gc.sweep c s live options) w).2.disk = w.disk →
      Agrees c s (run (Gc.sweep c s live options) w).2 := by
    intro hdisk
    constructor
    · obtain ⟨order, hloaded⟩ := hw.packs
      refine ⟨order, fun pc hpc => ?_⟩
      rw [hdisk]
      rcases hcache with hkept | hnone
      · exact hloaded pc (hkept ▸ hpc)
      · rw [hnone] at hpc
        cases hpc
    · rw [hblobs, hdisk]
      exact hw.blobs
  cases hres : (run (Gc.sweep c s live options) w).1 with
  | error e => exact hsame (hfail e hres)
  | ok report =>
    by_cases hdry : options.mode = .dryRun
    · exact hsame (congrArg World.disk ((Gc.run_sweep_executed (Prod.ext hres rfl)).1 hdry))
    · obtain ⟨hl, hsep, hleaves⟩ := hkeeps.resolve_left hdry
      have hu := (Gc.sweep_done hsep (Prod.ext hres rfl)).2 hdry
      refine ⟨⟨.inserted, fun pc hpc => ?_⟩, fun e he => ?_⟩
      · rw [hdrops report hres ((Gc.run_sweep_executed (Prod.ext hres rfl)).2 hdry)] at hpc
        cases hpc
      · rw [hblobs] at he
        exact hu.held hz hl hsep (hw.blobs e he) (hleaves e he)

/-! ## Runs of one handle -/

/-- The condition on a call, in the state before it: what is cached can still be found on disk
after the call, and a `repack` or a `sweep` that fails does so before it changes the disk. -/
def StoreCall.Keeps (c : Crates) (s : BlobStore) (w : World) : StoreCall → Prop
  | put call => PutKeeps c s w call
  | getBlob _ _ => True
  | hasBlob _ _ => True
  | deleteBlob hash => DeleteKeeps c s w hash
  | repack order threshold =>
    (∀ e, (run (s.repack c order threshold) w).1 = .error e →
      (run (s.repack c order threshold) w).2.disk = w.disk) ∧
    ((s.looseOn w.disk).length ≤ threshold ∨ RepackKeeps c s order w)
  | sweep live options =>
    (∀ e, (run (Gc.sweep c s live options) w).1 = .error e →
      (run (Gc.sweep c s live options) w).2.disk = w.disk) ∧
    (options.mode = .dryRun ∨ Gc.SweepKeeps c s w live options)

theorem Agrees.after (hz : ZstdSound c) (hv : s.verifyOnRead = true) (hw : Agrees c s w)
    {call : StoreCall} (hkeeps : call.Keeps c s w) : Agrees c s (call.after c s w) := by
  cases call with
  | put call => exact hw.put hkeeps
  | getBlob order hash => exact (hw.getBlob order hash).1
  | hasBlob order hash => exact hw.hasBlob order hash
  | deleteBlob hash => exact hw.delete hkeeps
  | repack order threshold => exact hw.repack hz hv hkeeps.1 hkeeps.2
  | sweep live options => exact hw.sweep hz hkeeps.1 hkeeps.2

theorem session_append (calls : List StoreCall) (call : StoreCall) :
    session c s (calls ++ [call]) w = call.after c s (session c s calls w) :=
  List.foldl_concat (StoreCall.after c s) w call calls

/-- A run from a freshly opened handle whose calls all keep what is cached on disk. -/
theorem session_agrees (hz : ZstdSound c) (hv : s.verifyOnRead = true) {t : Tree}
    (calls : List StoreCall) (hkeeps : ∀ done call rest, calls = done ++ call :: rest →
      call.Keeps c s (session c s done ⟨t, .empty⟩)) :
    Agrees c s (session c s calls ⟨t, .empty⟩) := by
  induction calls using List.reverseRecOn with
  | nil => exact agrees_fresh
  | append_singleton calls call ih =>
    rw [session_append]
    refine Agrees.after hz hv (ih fun done call' rest hsplit => ?_) (hkeeps calls call [] rfl)
    refine hkeeps done call' (rest ++ [call]) ?_
    rw [hsplit, List.append_assoc]
    rfl

/-- Calls that complete one after another on a handle that was opened on any disk, each of which
keeps what is cached on disk: after each of them, reading on the handle is reading on a freshly
opened one. -/
theorem caches_transparent (hz : ZstdSound c) (hv : s.verifyOnRead = true) {t : Tree}
    (calls : List StoreCall) (hkeeps : ∀ done call rest, calls = done ++ call :: rest →
      call.Keeps c s (session c s done ⟨t, .empty⟩)) (k : ℕ) :
    Transparent c s (session c s (calls.take k) ⟨t, .empty⟩) := by
  refine (session_agrees hz hv (calls.take k) fun done call rest hsplit => ?_).transparent
  refine hkeeps done call (rest ++ calls.drop k) ?_
  have hcalls := List.take_append_drop k calls
  rw [hsplit, List.append_assoc] at hcalls
  exact hcalls.symm

/-- A blob that was stored and read. -/
theorem caches_transparent_cached : Transparent Concrete.crates (Concrete.store false)
    (session Concrete.crates (Concrete.store false) ([.put (.putBlob (text "a")),
      .getBlob .inserted (hashBytes Concrete.crates (text "a")),
      .hasBlob .inserted (hashBytes Concrete.crates (text "b"))].take 3)
      ⟨Concrete.newDisk, .empty⟩) := by
  refine caches_transparent Concrete.zstdSound rfl _ (fun done call rest hsplit => ?_) 3
  match done, hsplit with
  | [], hsplit =>
    obtain ⟨rfl, -⟩ := List.cons.inj hsplit
    exact fun e he => by cases he
  | [_], hsplit =>
    obtain ⟨-, hrest⟩ := List.cons.inj hsplit
    obtain ⟨rfl, -⟩ := List.cons.inj hrest
    trivial
  | [_, _], hsplit =>
    obtain ⟨-, hrest⟩ := List.cons.inj hsplit
    obtain ⟨-, hrest⟩ := List.cons.inj hrest
    obtain ⟨rfl, -⟩ := List.cons.inj hrest
    trivial
  | _ :: _ :: _ :: done, hsplit =>
    have hlen := congrArg List.length hsplit
    simp at hlen

/-- A blob that was read and then deleted: the handle returns it and says that it is not there. -/
theorem caches_serve_deleted : ¬ Transparent Concrete.crates (Concrete.store false)
    (session Concrete.crates (Concrete.store false) [.put (.putBlob (text "a")),
      .getBlob .inserted (hashBytes Concrete.crates (text "a")),
      .deleteBlob (hashBytes Concrete.crates (text "a"))] ⟨Concrete.newDisk, .empty⟩) := by
  intro htransparent
  have hfound := htransparent.found .inserted .inserted (hashBytes Concrete.crates (text "a"))
    (text "a") (by decide +kernel)
  have hgone : (run ((Concrete.store false).hasBlob .inserted
      (hashBytes Concrete.crates (text "a")))
      (session Concrete.crates (Concrete.store false) [.put (.putBlob (text "a")),
        .getBlob .inserted (hashBytes Concrete.crates (text "a")),
        .deleteBlob (hashBytes Concrete.crates (text "a"))] ⟨Concrete.newDisk, .empty⟩)).1 =
      .ok false := by
    decide +kernel
  rw [hgone] at hfound
  cases hfound

end BlobStore

end CasKit
