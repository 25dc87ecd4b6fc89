import CasKit.Crash
import CasKit.Exact
import CasKit.Presence

/-!
# Marking and then sweeping

`mark` keeps the roots it sees. What it sees of the packs comes out of the pack cache of the
handle, where there is one, however old; the sweep takes its own inventory. A root that only
the disk has is garbage to it.
-/
namespace CasKit
open Effects Files Codec

namespace BlobStore
variable {c : Crates} {s : BlobStore} {t : Tree} {h : Hash}

/-- A handle with this pack cache sees the hash: as a loose file, or in the cached indices, or in
the indices on disk if none are cached. -/
def Seen (s : BlobStore) (v : Nodes) (cache : Option PackCache) (h : Hash) : Prop :=
  s.NamedLoose v h ∨ match cache with
    | some pc => h ∈ pc.allHashes
    | none => ∃ p, s.Lists v p h

/-- What the handle lists as packed. -/
theorem run_listBlobsPacked {order : HashOrder} {w w' : World} {hashes : List Hash}
    (hrun : run (s.listBlobsPacked order) w = (.ok hashes, w')) : w'.disk = w.disk ∧
      ∀ h, h ∈ hashes ↔ match w.caches.packCache with
        | some pc => h ∈ pc.allHashes
        | none => ∃ p, s.Lists (s.view w.disk) p h := by
  rw [listBlobsPacked, run_withPackCache] at hrun
  cases hcache : w.caches.packCache with
  | some pc =>
    rw [hcache] at hrun
    obtain ⟨hres, rfl⟩ := Prod.mk.inj hrun
    obtain rfl := Except.ok.inj hres
    exact ⟨rfl, fun h => Iff.rfl⟩
  | none =>
    rw [hcache] at hrun
    by_cases hload : s.Loadable (s.view w.disk)
    · obtain ⟨cache, hloaded, hmem⟩ := s.loaded_hashes order hload
      simp only [hloaded] at hrun
      obtain ⟨hres, rfl⟩ := Prod.mk.inj hrun
      obtain rfl := Except.ok.inj hres
      exact ⟨rfl, hmem⟩
    · obtain ⟨e, hfail⟩ := (s.peek_loadAll order).2 hload
      simp only [hfail] at hrun
      cases (Prod.mk.inj hrun).1

/-- A hash that reads back is on disk. -/
theorem ReadsBack.present {d : Bytes} (hr : s.ReadsBack c (s.view t) h d) :
    s.Present (s.view t) h := by
  rcases hr with ⟨raw, hraw, -⟩ | ⟨-, -, hlists, -⟩
  · exact .inl (namedLoose_of_isLoose ⟨raw, bytesAt_eq_some.mp hraw⟩)
  · exact .inr hlists

end BlobStore

namespace Gc
variable {c : Crates} {s : BlobStore} {live : Finset Hash} {options : SweepOptions} {h : Hash}

section Done
variable {t : Tree} {u : Nodes} (hsep : Separate c s (s.view t) live options)

end Done

open Classical in
/-- The roots that a handle with this pack cache sees. -/
noncomputable def marked (s : BlobStore) (v : Nodes) (cache : Option PackCache)
    (roots : Finset Hash) : Finset Hash := roots.filter fun h => s.Seen v cache h

end Gc

end CasKit
