import CasKit.Exact
import CasKit.Sharing
import CasKit.TornIndex

/-!
# Reads beside a sweep

A sweep takes files away while other threads read through the same handle. What it leaves in
place stays readable at every moment, with one exception: the walk of a read over all pack
indices sees an index and loads it in two steps, and the sweep may take an unrelated index away in
between.
-/
namespace CasKit
open Effects Files Codec

namespace Gc
variable {c : Crates} {s : BlobStore} {v u : Nodes} {live : Finset Hash} {options : SweepOptions}
  {p : Path} {h : Hash} {d b : Bytes} {ι : Type}

/-- Every pack that lists the hash stays. -/
def PacksStay (s : BlobStore) (v : Nodes) (live : Finset Hash) (options : SweepOptions)
    (h : Hash) : Prop := ∀ p, s.Lists v p h → ¬ Removed s v live options p

/-- A live blob that is loose, or all of whose packs stay. -/
structure InPlace (s : BlobStore) (v : Nodes) (live : Finset Hash) (options : SweepOptions)
    (h : Hash) : Prop where
  mem : h ∈ live
  copies : s.IsLoose v h ∨ PacksStay s v live options h

/-! ## The packs at one moment -/

/-- A replacement that is the index of a pack. -/
theorem replaces_idxOf (hp : IsPackName s.packDir p)
    (hput : Replaces c s v live options (.put (idxOf p) b)) :
    ∃ r objects packData entries, Replacement c s v live options r objects packData entries ∧
      p = newPack c s entries ∧ idxOf p = newIdx c s entries ∧ b = serializeIndex entries := by
  obtain ⟨r, objects, packData, entries, hrep, ⟨heq, -⟩ | ⟨heq, rfl⟩⟩ := replaces_cases hput
  · exact absurd heq (idxOf_ne_of_isPackName hp (isPackName_packPath c s _))
  · refine ⟨r, objects, packData, entries, hrep, ?_, heq, rfl⟩
    by_contra hne
    exact BlobStore.idxOf_ne_idxPath hp hne heq

section Moment
variable (ht : Tidy c s v) (hfresh : Fresh c s v live options) (hu : Partly c s v live options u)
include ht hu

/-- Every index that is there loads. -/
theorem Partly.loads (hp : IsPackName s.packDir p) (hsome : (u (idxOf p)).isSome) :
    ∃ i, indexAt u p = some i := by
  rcases hu.node (idxOf p) with heq | ⟨hnone, -⟩ | ⟨b, hput, hfile⟩
  · rw [heq] at hsome
    obtain ⟨b, hb, rfl⟩ := ht.pair_of_idx hp hsome
    obtain ⟨i, hi⟩ := hb.indexAt
    exact ⟨i, by simpa only [indexAt, bytesAt_congr heq] using hi⟩
  · rw [hnone] at hsome
    cases hsome
  · obtain ⟨r, objects, packData, entries, hrep, rfl, heq, rfl⟩ := replaces_idxOf hp hput
    rw [heq] at hfile
    exact ⟨_, indexAt_of_idx hrep.packed (bytesAt_eq_some.mpr hfile)⟩

include hfresh

/-- An index that lists a hash whose packs stay is an old one, of a pack that stays. -/
theorem Partly.lists_of_indexAt {i : PackIndex} (hp : IsPackName s.packDir p)
    (hi : indexAt u p = some i) (hh : h ∈ i.hashes) (hstay : PacksStay s v live options h) :
    s.Lists v p h ∧ u p = v p ∧ u (idxOf p) = v (idxOf p) := by
  rcases hu.node (idxOf p) with heq | ⟨hnone, -⟩ | ⟨b, hput, hfile⟩
  · have hiv : indexAt v p = some i := by simpa only [indexAt, bytesAt_congr heq] using hi
    have hsome : (v (idxOf p)).isSome := by
      by_contra hnone
      rw [Option.not_isSome_iff_eq_none] at hnone
      rw [indexAt_eq_none_of_node hnone] at hiv
      cases hiv
    obtain ⟨b, hb, hpack⟩ := ht.pair_of_idx hp hsome
    obtain ⟨data, hdata⟩ := hb.pack
    have hlists : s.Lists v p h := ⟨⟨hp, by rw [hpack, hdata]; rfl⟩, i, hiv, hh⟩
    exact ⟨hlists, hu.same_of_stays ht.layout hfresh (BlobStore.Lists.indexed s hlists)
      (hstay p hlists)⟩
  · rw [indexAt_eq_none_of_node hnone] at hi
    cases hi
  · obtain ⟨r, objects, packData, entries, hrep, rfl, heq, rfl⟩ := replaces_idxOf hp hput
    rw [heq] at hfile
    have hkept := (hrep.rewrites.keep h).mp ((hrep.mem_hashes hfile hi).mp hh)
    exact absurd ⟨hkept.garbage, .inl hrep.rewrites.enabled⟩ (hstay _ hkept.lists)

/-- A pack that lists such a hash is an old one, as it was. -/
theorem Partly.lists_stays (hp : s.Lists u p h) (hstay : PacksStay s v live options h) :
    s.Lists v p h ∧ u p = v p ∧ u (idxOf p) = v (idxOf p) := by
  obtain ⟨⟨hname, -⟩, i, hi, hh⟩ := hp
  exact hu.lists_of_indexAt ht hfresh hname hi hh hstay

end Moment

/-! ## What a sweep promises the readers -/

/-- What the thread `w`, which sweeps, promises the readers. -/
def sweepPromise (c : Crates) (s : BlobStore) (v : Nodes) (live : Finset Hash)
    (options : SweepOptions) (w : ι) : BlobStore.Promise s ι where
  writer := w
  stored h d := InPlace s v live options h ∧ s.ReadsBack c v h d
  kept h := v (s.blobPath h) = none ∧ PacksStay s v live options h
  never h := v (s.blobPath h) = none
  helped k := ∃ order h, k = .getBlob order h ∧ InPlace s v live options h
  may _ _ := True

section Promise
variable {w : ι} {t t' : Tree} {k : Call}

variable (ht : Tidy c s v) (hfresh : Fresh c s v live options)

section Disk
variable (hu : Partly c s v live options (s.view t))
include hu

theorem Partly.node_blobPath (hh : h ∈ live) : t.node (s.blobPath h) = v (s.blobPath h) := by
  rw [← s.view_blobPath, hu.blobPath_eq hh]

include ht hfresh

theorem Partly.onward (hu' : Partly c s v live options (s.view t')) :
    (sweepPromise c s v live options w).Onward t t' where
  dir hdir := by
    rw [← s.view_packDir, hu'.packDir_eq ht.layout, ← hu.packDir_eq ht.layout, s.view_packDir]
    exact hdir
  gone h d hd hnone := by
    rwa [hu'.node_blobPath hd.1.mem, ← hu.node_blobPath hd.1.mem]
  lists p h d hkept hd hp := by
    obtain ⟨hlists, -, hidx⟩ := hu.lists_stays ht hfresh hp hkept.2
    obtain ⟨-, hidx'⟩ := hu'.same_of_stays ht.layout hfresh (BlobStore.Lists.indexed s hlists)
      (hkept.2 p hlists)
    refine ⟨hu'.lists_of_stays ht.layout hfresh hlists (hkept.2 p hlists), ?_⟩
    rw [← s.indexAt_view hp.1.1, ← s.indexAt_view hp.1.1]
    simp only [indexAt, bytesAt_congr hidx, bytesAt_congr hidx']

theorem Partly.serves (hu' : Partly c s v live options (s.view t')) {pc : PackCache}
    (hpc : (sweepPromise c s v live options w).Serves pc t) :
    (sweepPromise c s v live options w).Serves pc t' where
  finds := hpc.finds
  lists e he h d hkept hd hh :=
    ((hu.onward ht hfresh hu').lists e.1 h d hkept hd (hpc.lists e he h d hkept hd hh)).1

end Disk

/-! ## The sweep keeps its promise -/

end Promise

section Run
variable {w : ι} {x : Shared ι} (ht : Tidy c s (s.view x.disk))
  (hfresh : Fresh c s (s.view x.disk) live options)
include ht hfresh

end Run

section Beside
open BlobStore

end Beside

end Gc

end CasKit
