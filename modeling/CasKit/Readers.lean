import CasKit.Reading
import CasKit.Presence
import CasKit.Threads

/-!
# Readers beside another thread

What calls that read need of the thread that works on the disk meanwhile. Some blobs are
`stored` for good: their loose file stays until a pack lists them, and from then on (they are
`kept`) so does each pack that lists them. The loaded pack indices must find each of them whose
loose file is gone. Under these promises every read of a stored blob succeeds, at whatever
moments its steps are taken.
-/
namespace CasKit
open Effects Files Codec

/-- The file operations that take a file away. -/
def Request.Removes (o : Request) (q : Path) : Prop := o = .removeFile q ∨ ∃ q', o = .rename q q'

/-! ## The reading functions, request by request -/

section Unfolded
variable {c : Crates} {s : BlobStore} {p : Path} {h : Hash}

end Unfolded

namespace BlobStore

/-- What the readers of a store are promised. `stored h d`: reading `h` gives `d`. `kept h`: no
pack that lists `h` goes away. `never h`: there is no loose file for `h` at any time. `helped k`: no index is taken away from the call `k` while it loads it.
`may o u`: the condition under which the step `o` is taken. Only the `writer` changes the disk. -/
structure Promise (s : BlobStore) (ι : Type) where
  writer : ι
  stored : Hash → Bytes → Prop
  kept : Hash → Prop
  never : Hash → Prop
  helped : Call → Prop
  may : Request → Shared ι → Prop

namespace Promise
variable {s : BlobStore} {ι : Type} (c : Crates) (R : Promise s ι)

/-- What holds of the disk at each moment. -/
structure Readable (t : Tree) : Prop where
  dir : t.file s.packDir = none
  loose : ∀ h d, R.stored h d → t.node (s.blobPath h) = none ∨
    ∃ raw, t.file (s.blobPath h) = some raw ∧ s.decodeLoose c raw h = .ok d
  gone : ∀ h d, R.stored h d → t.node (s.blobPath h) = none →
    R.kept h ∧ ∃ p, s.Lists (s.view t) p h
  never : ∀ h d, R.stored h d → R.never h → t.node (s.blobPath h) = none
  loads : ∀ p, IsPackName s.packDir p → (t.node (idxOf p)).isSome → ∃ i, indexAt t.node p = some i
  lists : ∀ p i h d, IsPackName s.packDir p → indexAt t.node p = some i → h ∈ i.hashes →
    R.kept h → R.stored h d → s.Lists (s.view t) p h
  record : ∀ p h d, R.kept h → R.stored h d → s.Lists (s.view t) p h →
    recordAt c t.node p h = some d

/-- Indices that find each stored blob that is never loose, in packs that are there. -/
structure Serves (cache : PackCache) (t : Tree) : Prop where
  finds : ∀ h d, R.stored h d → R.never h → (cache.find h).isSome
  lists : ∀ e ∈ cache.indices, ∀ h d, R.kept h → R.stored h d → h ∈ e.2.hashes →
    s.Lists (s.view t) e.1 h

/-- What holds of the shared state at each moment. -/
structure Holds (u : Shared ι) : Prop where
  disk : R.Readable c u.disk
  blobs : ∀ e ∈ u.caches.blobCache, ∀ d, R.stored e.1 d → e.2 = d
  packs : ∀ cache, u.caches.packCache = some cache → R.Serves cache u.disk

/-- A call that looks into the cache finds there what is loose no more. -/
def Fresh : Prop := ∀ pc u, R.Holds c u → R.may .packGet u → u.caches.packCache = some pc →
  ∀ h d, R.stored h d → u.disk.node (s.blobPath h) = none → R.never h ∨ (pc.find h).isSome

/-- What no step undoes. -/
structure Onward (t t' : Tree) : Prop where
  dir : t.node s.packDir = some .dir → t'.node s.packDir = some .dir
  gone : ∀ h d, R.stored h d → t.node (s.blobPath h) = none → t'.node (s.blobPath h) = none
  lists : ∀ p h d, R.kept h → R.stored h d → s.Lists (s.view t) p h →
    s.Lists (s.view t') p h ∧ indexAt t'.node p = indexAt t.node p

/-- The lock is with the thread before and after, or neither, and a holder's indices stay. -/
def Undisturbed (i : ι) (u u' : Shared ι) : Prop :=
  (u.holder = some i ↔ u'.holder = some i) ∧
    (u.holder = some i → u'.caches.packCache = u.caches.packCache)

/-- What a thread owes to the others around its own request. -/
structure Grants (i : ι) (o : Request) (u u' : Shared ι) : Prop where
  onward : R.Onward u.disk u'.disk
  stays : ∀ q, ¬ o.Removes q → (u.disk.node q).isSome → (u'.disk.node q).isSome
  undisturbed : ∀ j, j ≠ i → Undisturbed j u u'
  reads : i ≠ R.writer → u'.disk = u.disk

/-- What a thread that is about to ask `o` in the call `k` counts on around the requests of the
others. -/
structure Relies (i : ι) (k : Call) (o : Request) (u u' : Shared ι) : Prop where
  onward : R.Onward u.disk u'.disk
  spared : ∀ q, o = .read q → ((∃ h d, R.stored h d ∧ q = s.blobPath h) ∨
    R.helped k ∧ u.holder = some i) → (u.disk.node q).isSome → (u'.disk.node q).isSome
  undisturbed : Undisturbed i u u'
  still : u.holder = some i → ∀ h d, R.stored h d → u'.disk.node (s.blobPath h) = none →
    u.disk.node (s.blobPath h) = none
  alone : i = R.writer → u'.disk = u.disk

/-- The terms of thread `i` in the call `k`. -/
def terms (i : ι) (k : Call) : Terms Request (Shared ι) where
  may := R.may
  guar := R.Grants i
  rely := R.Relies i k
  ready o u := o = .packLock → u.holder ≠ some i

section Steps
variable {c R} {i : ι} {k : Call} {o : Request} {u u' : Shared ι} {r : Answer o}

theorem Onward.refl (t : Tree) : R.Onward t t := ⟨id, fun _ _ _ => id, fun _ _ _ _ _ hl => ⟨hl, rfl⟩⟩

theorem undisturbed_refl (u : Shared ι) : Undisturbed i u u := ⟨.rfl, fun _ => rfl⟩

/-- A request that leaves the disk, the blob cache and the pack cache alone, except for what
fits, breaks no promise. -/
theorem Holds.looks (hu : R.Holds c u) (ho : o.Looks)
    (hblob : ∀ h data, o = .blobInsert h data → ∀ d, R.stored h d → data = d)
    (hset : ∀ cache, o = .packSet cache → u.holder = some i ∧
      ∀ pc, cache = some pc → R.Serves pc u.disk)
    (hunlock : o = .packUnlock → u.holder = some i) (hact : act i o u = some (r, u')) :
    R.Holds c u' ∧ (R.terms i k).guar o u u' := by
  obtain ⟨hwait, -, rfl⟩ := act_eq_some.mp hact
  have hdisk : (answer o u.world).2.disk = u.disk := answer_looks ho u.world
  have hsame : ∀ {holder : Option ι}, R.Onward u.disk (Shared.mk (answer o u.world).2 holder).disk ∧
      (∀ q, ¬ o.Removes q → (u.disk.node q).isSome →
        ((Shared.mk (answer o u.world).2 holder).disk.node q).isSome) := by
    intro holder
    show R.Onward u.disk (answer o u.world).2.disk ∧ _
    rw [hdisk]
    exact ⟨.refl _, fun q _ hq => by rwa [← hdisk] at hq⟩
  have hread : R.Readable c (answer o u.world).2.disk := hdisk ▸ hu.disk
  -- Which cache a request changes, and who holds the lock, is the only difference.
  have hblobs : ∀ e ∈ (answer o u.world).2.caches.blobCache, ∀ d, R.stored e.1 d → e.2 = d := by
    intro e he d hd
    cases o with
    | blobLookup h => exact hu.blobs e ((lookupBlob_spec _ h).2 e he) d hd
    | blobInsert h data =>
      rcases mem_insertBlob he with rfl | he
      · exact hblob h data rfl d hd
      · exact hu.blobs e he d hd
    | _ => exact hu.blobs e (by rwa [answer_sparesBlobs] at he; trivial) d hd
  have hpacks : ∀ pc, (answer o u.world).2.caches.packCache = some pc →
      R.Serves pc (answer o u.world).2.disk := by
    intro pc hpc
    rw [hdisk]
    cases o with
    | packSet cache => exact (hset cache rfl).2 pc hpc
    | _ => exact hu.packs pc (by rwa [answer_sparesPacks] at hpc; trivial)
  refine ⟨⟨hread, hblobs, hpacks⟩, hsame.1, hsame.2, fun j hj => ?_, fun _ => hdisk⟩
  cases o with
  | packLock =>
    have hfree : u.holder = none := by simpa [Request.waits] using hwait
    simp [Undisturbed, Request.holderAfter, hfree, Ne.symm hj]
  | packUnlock =>
    have hmine := hunlock rfl
    simp [Undisturbed, Request.holderAfter, hmine, Ne.symm hj]
  | packSet cache =>
    have hmine := (hset cache rfl).1
    simp [Undisturbed, Request.holderAfter, hmine, Ne.symm hj]
  | _ => exact ⟨.rfl, fun _ => by rw [answer_sparesPacks]; trivial⟩

end Steps

/-! ## Calls that read -/

section Outlines
variable {c R} {i : ι} {k : Call} {u : Shared ι} {h : Hash} {order : HashOrder} {ε α : Type}

/-- The outline of a call, whatever it ends in. -/
abbrev Keeps (c : Crates) (R : Promise s ι) (i : ι) (k : Call)
    (Q : Except ε α → Shared ι → Prop) (p : Action ε α) (u : Shared ι) : Prop :=
  Prog.Safe (act i) (R.Holds c) (R.terms i k) Q p u

/-- Nothing stored has a loose file under the hash. -/
def Gone (R : Promise s ι) (h : Hash) (u : Shared ι) : Prop :=
  ∀ d, R.stored h d → u.disk.node (s.blobPath h) = none

/-- The indices find the hash if it is stored, in packs that are there. -/
def Found (R : Promise s ι) (cache : PackCache) (h : Hash) (u : Shared ι) : Prop :=
  ∀ d, R.stored h d → (cache.find h).isSome ∧
    ∀ e ∈ cache.indices, h ∈ e.2.hashes → s.Lists (s.view u.disk) e.1 h

section Stable
variable {o : Request} {u' : Shared ι} (hrely : (R.terms i k).rely o u u')
include hrely

theorem Gone.stable (hgone : R.Gone h u) : R.Gone h u' :=
  fun d hd => hrely.onward.gone h d hd (hgone d hd)

theorem Found.stable {cache : PackCache} (hgone : R.Gone h u) (hu : R.Holds c u)
    (hfound : R.Found cache h u) : R.Found cache h u' := by
  intro d hd
  obtain ⟨hsome, hlists⟩ := hfound d hd
  have hkept := (hu.disk.gone h d hd (hgone d hd)).1
  exact ⟨hsome, fun e he hh => (hrely.onward.lists e.1 h d hkept hd (hlists e he hh)).1⟩

end Stable

theorem mine_stable {o : Request} {u u' : Shared ι} (hmine : u.holder = some i)
    (hrely : (R.terms i k).rely o u u') : u'.holder = some i := hrely.undisturbed.1.mp hmine

/-- The loader after the packs `done`: its indices are of packs that stay, and each hash without a
loose file is in one of them or in a pack to come. -/
structure Loading (R : Promise s ι) (i : ι) (ps done : List Path)
    (indices : List (Path × PackIndex)) (u : Shared ι) : Prop where
  mine : u.holder = some i
  lists : ∀ e ∈ indices, ∀ h d, R.kept h → R.stored h d → h ∈ e.2.hashes →
    s.Lists (s.view u.disk) e.1 h
  gone : ∀ h d, R.stored h d → u.disk.node (s.blobPath h) = none →
    ∃ p ∈ ps, s.Lists (s.view u.disk) p h ∧ (p ∈ done → ∃ e ∈ indices, h ∈ e.2.hashes)

theorem Loading.stable {ps done : List Path} {indices : List (Path × PackIndex)} {o : Request}
    {u u' : Shared ι} (hload : R.Loading i ps done indices u) (hu : R.Holds c u)
    (hrely : (R.terms i k).rely o u u') : R.Loading i ps done indices u' where
  mine := mine_stable hload.mine hrely
  lists e he h d hkept hd hh := (hrely.onward.lists e.1 h d hkept hd (hload.lists e he h d hkept hd hh)).1
  gone h d hd hgone := by
    have hbefore := hrely.still hload.mine h d hd hgone
    obtain ⟨p, hp, hlists, hdone⟩ := hload.gone h d hd hbefore
    have hkept := (hu.disk.gone h d hd hbefore).1
    exact ⟨p, hp, (hrely.onward.lists p h d hkept hd hlists).1, hdone⟩

/-- What a loader has loaded. -/
structure Loaded (R : Promise s ι) (i : ι) (cache : PackCache) (u : Shared ι) : Prop where
  mine : u.holder = some i
  finds : ∀ h d, R.stored h d → u.disk.node (s.blobPath h) = none → (cache.find h).isSome
  lists : ∀ e ∈ cache.indices, ∀ h d, R.kept h → R.stored h d → h ∈ e.2.hashes →
    s.Lists (s.view u.disk) e.1 h

theorem Loaded.stable {cache : PackCache} {o : Request} {u u' : Shared ι}
    (hload : R.Loaded i cache u) (hrely : (R.terms i k).rely o u u') : R.Loaded i cache u' where
  mine := mine_stable hload.mine hrely
  finds h d hd hgone := hload.finds h d hd (hrely.still hload.mine h d hd hgone)
  lists e he h d hkept hd hh := (hrely.onward.lists e.1 h d hkept hd (hload.lists e he h d hkept hd hh)).1

theorem Loaded.serves {cache : PackCache} (hload : R.Loaded i cache u) (hu : R.Holds c u) :
    R.Serves cache u.disk where
  finds h d hd hnever := hload.finds h d hd (hu.disk.never h d hd hnever)
  lists := hload.lists

theorem Loaded.found {cache : PackCache} (hload : R.Loaded i cache u) (hu : R.Holds c u)
    (hgone : R.Gone h u) : R.Found cache h u := fun d hd =>
  ⟨hload.finds h d hd (hgone d hd), fun e he =>
    hload.lists e he h d (hu.disk.gone h d hd (hgone d hd)).1 hd⟩

theorem Serves.found {cache : PackCache} (hserves : R.Serves cache u.disk) (hfresh : R.Fresh c)
    (hu : R.Holds c u) (hmay : R.may .packGet u) (hcache : u.caches.packCache = some cache)
    (hgone : R.Gone h u) : R.Found cache h u := fun d hd =>
  ⟨(hfresh cache u hu hmay hcache h d hd (hgone d hd)).elim (hserves.finds h d hd) id, fun e he =>
    hserves.lists e he h d (hu.disk.gone h d hd (hgone d hd)).1 hd⟩

end Outlines

end Promise

end BlobStore

end CasKit
