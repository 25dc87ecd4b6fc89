import CasKit.Calls

/-!
# Reading through caches that agree with the disk

A handle that has cached indices asks the packs in the order in which it once loaded them. As
long as these indices are the ones on disk, its answer is the answer of a fresh handle that
loads them in that order.
-/
namespace CasKit
open Effects Files Codec

namespace BlobStore
variable {c : Crates} {s : BlobStore} {t : Tree} {h : Hash} {d : Bytes} {order order' : HashOrder}

/-- The handle with another pack cache. -/
def withCache (w : World) (cache : Option PackCache) : World :=
  { w with caches := { w.caches with packCache := cache } }

/-- The pack cache, if there is one, is what loading in this order finds on disk. -/
def LoadedAs (s : BlobStore) (order : HashOrder) (t : Tree) (cache : Option PackCache) : Prop :=
  ∀ pc, cache = some pc → peek (PackCache.loadAll order s.packDir) t = .ok pc

/-- A call that would load the packs in the order `order` is answered in the order `order'`: the
one in which they were loaded, if they were. -/
structure Served (s : BlobStore) (order order' : HashOrder) (w : World) : Prop where
  loaded : s.LoadedAs order' w.disk w.caches.packCache
  unloaded : w.caches.packCache = none → order' = order

section Served
variable {w : World} (hw : Served s order order' w)
include hw

/-- The pack cache is filled, if at all, with what is on disk. -/
theorem run_withPackCache_served {β : Type} (f : PackCache → β) : ∃ cache,
    run (s.withPackCache order f) w = (match peek (PackCache.loadAll order' s.packDir) w.disk with
      | .error e => .error (.pack e)
      | .ok pc => .ok (f pc), withCache w cache) ∧ s.LoadedAs order' w.disk cache := by
  have hrun := s.run_withPackCache order f w
  cases hpack : w.caches.packCache with
  | some pc =>
    have hload := hw.loaded pc hpack
    have hsame : withCache w (some pc) = w := by rw [withCache, ← hpack]
    rw [hpack] at hrun
    refine ⟨some pc, by rw [hrun, hload, hsame], fun pc' heq => ?_⟩
    rw [← Option.some.inj heq]
    exact hload
  | none =>
    obtain rfl := hw.unloaded hpack
    rw [hpack] at hrun
    cases hload : peek (PackCache.loadAll order' s.packDir) w.disk with
    | error e =>
      have hsame : withCache w none = w := by rw [withCache, ← hpack]
      simp only [hload] at hrun
      exact ⟨none, by rw [hrun, hsame], fun pc hpc => by cases hpc⟩
    | ok pc =>
      simp only [hload] at hrun
      refine ⟨some pc, hrun, fun pc' heq => ?_⟩
      rw [← Option.some.inj heq]
      exact hload

theorem run_getBlobPacked_served : ∃ cache,
    run (s.getBlobPacked c order h) w =
      (peek (s.getBlobPacked c order' h) w.disk, withCache w cache) ∧
    s.LoadedAs order' w.disk cache := by
  obtain ⟨cache, hrun, hcache⟩ :=
    run_withPackCache_served hw fun pc => (pc.find h).map Prod.fst
  refine ⟨cache, ?_, hcache⟩
  rw [peek_getBlobPacked]
  cases hload : peek (PackCache.loadAll order' s.packDir) w.disk with
  | error e =>
    rw [hload] at hrun
    exact run_bind_error hrun
  | ok pc =>
    rw [hload] at hrun
    exact s.run_getBlobPacked hrun

theorem run_fetchBlob_served : ∃ cache,
    run (s.fetchBlob c order h) w =
      (peek (s.fetchBlob c order' h) w.disk, withCache w cache) ∧
    s.LoadedAs order' w.disk cache := by
  have hstart : run (s.fetchBlob c order h) w = run (if w.disk.exists (s.blobPath h) = true then
      s.fetchLoose c h else s.fetchPacked c order h) w := rfl
  rw [peek_fetchBlob, hstart]
  split_ifs with hex
  · refine ⟨w.caches.packCache, ?_, hw.loaded⟩
    rw [run_of_reads (s.fetchLoose_reads h)]
    rfl
  · obtain ⟨cache, hrun, hcache⟩ := run_getBlobPacked_served (c := c) (h := h) hw
    refine ⟨cache, ?_, hcache⟩
    have hpeek : peek (s.fetchPacked c order' h) w.disk = _ :=
      congrArg Prod.fst (s.run_fetchPacked order' ⟨w.disk, .empty⟩)
    rw [run_fetchPacked, hrun, hpeek]
    rfl

/-- What `get_blob` does on such a handle. A hit leaves the pack cache alone; a miss returns what
a fresh handle would and may cache it. -/
theorem run_getBlob_served :
    (∃ data blobs, (h, data) ∈ w.caches.blobCache ∧ run (s.getBlob c order h) w =
      (.ok data, ⟨w.disk, { w.caches with blobCache := blobs }⟩) ∧
        ∀ e ∈ blobs, e ∈ w.caches.blobCache) ∨
    ∃ cache blobs, run (s.getBlob c order h) w = (peek (s.fetchBlob c order' h) w.disk,
        ⟨w.disk, { w.caches with packCache := cache, blobCache := blobs }⟩) ∧
      s.LoadedAs order' w.disk cache ∧
        ∀ e ∈ blobs, e ∈ w.caches.blobCache ∨
          e.1 = h ∧ peek (s.fetchBlob c order' h) w.disk = .ok e.2 := by
  cases hfound : (lookupBlob w.caches.blobCache h).1 with
  | some data =>
    obtain ⟨hhit, hkept⟩ := lookupBlob_spec w.caches.blobCache h
    exact .inl ⟨data, _, hhit data hfound, s.run_getBlob_hit hfound, hkept⟩
  | none =>
    right
    obtain ⟨cache, hrun, hcache⟩ := run_fetchBlob_served (c := c) (h := h) hw
    rw [s.run_getBlob_miss hfound]
    cases hfetch : peek (s.fetchBlob c order' h) w.disk with
    | error e =>
      rw [hfetch] at hrun
      rw [run_bind_error hrun]
      exact ⟨cache, _, rfl, hcache, fun e he => .inl he⟩
    | ok data =>
      rw [hfetch] at hrun
      rw [run_bind_ok hrun]
      refine ⟨cache, _, rfl, hcache, fun e he => ?_⟩
      rcases mem_insertBlob he with rfl | hold
      · exact .inr ⟨rfl, rfl⟩
      · exact .inl hold

end Served

/-! ## One order throughout -/

end BlobStore

end CasKit
