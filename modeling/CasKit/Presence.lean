import CasKit.Calls

/-!
# Presence

`has_blob` says yes where something is at the loose path, or where the cached indices list the
hash; without cached indices the packs on disk answer, if they load.
-/
namespace CasKit
open Effects Files Codec

theorem PackCache.mem_allHashes {pc : PackCache} {h : Hash} :
    h ∈ pc.allHashes ↔ ∃ e ∈ pc.indices, h ∈ e.2.hashes := by
  simp [PackCache.allHashes]

theorem PackCache.find_isSome {pc : PackCache} {h : Hash} :
    (pc.find h).isSome ↔ h ∈ pc.allHashes := by
  rw [mem_allHashes, PackCache.find, List.findSome?_isSome_iff]
  simp only [Option.isSome_map, PackIndex.find_isSome]

namespace BlobStore
variable {c : Crates} (s : BlobStore) {t : Tree} {h : Hash} {w : World}

/-- Loading the packs of a directory finds the hashes that they list. -/
theorem loaded_hashes (order : HashOrder) (hload : s.Loadable (s.view t)) :
    ∃ cache, peek (PackCache.loadAll order s.packDir) t = .ok cache ∧
      ∀ h, h ∈ cache.allHashes ↔ ∃ p, s.Lists (s.view t) p h := by
  obtain ⟨ps, hps, hloaded⟩ := (s.peek_loadAll order).1 hload
  refine ⟨_, hloaded, fun h => ?_⟩
  rw [PackCache.mem_allHashes]
  constructor
  · rintro ⟨⟨p, i⟩, hmem, hh⟩
    rw [(order.perm _).mem_iff, mem_loadedFrom] at hmem
    have hentry := (s.mem_listPacks_view hps p).mp hmem.1
    exact ⟨p, hentry, i, (s.indexAt_view hentry.1).trans hmem.2, hh⟩
  · rintro ⟨p, hentry, i, hi, hh⟩
    refine ⟨(p, i), ?_, hh⟩
    rw [(order.perm _).mem_iff, mem_loadedFrom]
    exact ⟨(s.mem_listPacks_view hps p).mpr hentry, (s.indexAt_view hentry.1).symm.trans hi⟩

/-- The packs that a handle asks list the hash: those it has cached or, without a cache, those
on disk, which all have to load. -/
def SeesPacked (v : Nodes) (cache : Option PackCache) (h : Hash) : Prop :=
  match cache with
  | some pc => h ∈ pc.allHashes
  | none => s.Loadable v ∧ ∃ p, s.Lists v p h

/-- Something is at the loose path, or the packs list the hash. -/
def Sees (w : World) (h : Hash) : Prop :=
  w.disk.exists (s.blobPath h) = true ∨ s.SeesPacked (s.view w.disk) w.caches.packCache h

/-- `has_blob_packed` takes a failure of the pack cache for a no. -/
theorem run_hasBlobPacked_start (order : HashOrder) : run (s.hasBlobPacked order h) w = run (match
    (run (s.withPackCache order fun cache => (cache.find h).isSome) w).1 with
      | .ok b => .ret b
      | .error _ => .ret false : Action CasError Bool)
    (run (s.withPackCache order fun cache => (cache.find h).isSome) w).2 :=
  run_bind_ok (run_attempt _)

theorem run_hasBlobPacked (order : HashOrder) :
    ∃ b, (run (s.hasBlobPacked order h) w).1 = .ok b ∧
      (b = true ↔ s.SeesPacked (s.view w.disk) w.caches.packCache h) := by
  rw [run_hasBlobPacked_start, run_withPackCache]
  unfold SeesPacked
  cases w.caches.packCache with
  | some cache => exact ⟨_, rfl, PackCache.find_isSome⟩
  | none =>
    by_cases hload : s.Loadable (s.view w.disk)
    · obtain ⟨cache, hloaded, hmem⟩ := s.loaded_hashes order hload
      simp only [hloaded]
      refine ⟨_, rfl, ?_⟩
      rw [PackCache.find_isSome, hmem]
      exact (and_iff_right hload).symm
    · obtain ⟨e, hfail⟩ := (s.peek_loadAll order).2 hload
      simp only [hfail]
      refine ⟨_, rfl, ?_⟩
      constructor
      · intro hf
        cases hf
      · intro hsees
        exact absurd hsees.1 hload

/-- The answer of `has_blob`, which never fails. -/
theorem run_hasBlob (order : HashOrder) :
    ∃ b, (run (s.hasBlob order h) w).1 = .ok b ∧ (b = true ↔ s.Sees w h) := by
  have hstart : run (s.hasBlob order h) w = run (if w.disk.exists (s.blobPath h) then .ret true
      else s.hasBlobPacked order h : Action CasError Bool) w := rfl
  rw [hstart, Sees]
  cases hex : w.disk.exists (s.blobPath h) with
  | true => exact ⟨true, rfl, by simp⟩
  | false =>
    obtain ⟨b, hrun, hb⟩ := s.run_hasBlobPacked (h := h) (w := w) order
    exact ⟨b, hrun, by simp [hb]⟩

theorem hasBlob_true (order : HashOrder) :
    (run (s.hasBlob order h) w).1 = .ok true ↔ s.Sees w h := by
  obtain ⟨b, hrun, hb⟩ := s.run_hasBlob (h := h) (w := w) order
  rw [hrun, ← hb, Except.ok.injEq]

theorem hasBlob_false (order : HashOrder) :
    (run (s.hasBlob order h) w).1 = .ok false ↔ ¬ s.Sees w h := by
  obtain ⟨b, hrun, hb⟩ := s.run_hasBlob (h := h) (w := w) order
  rw [hrun, ← hb, Except.ok.injEq, Bool.not_eq_true]

end BlobStore

end CasKit
