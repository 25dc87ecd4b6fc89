import CasKit.Canonical
import CasKit.Transparent

/-!
# A sweep that fails

A file operation of a sweep may fail, and the sweep returns its error at once. By then it may have
removed packs, and it has not dropped the pack indices of the handle.
-/
namespace CasKit
open Effects Files Codec

/-- The answer of a file operation that fails. The other requests cannot fail. -/
def Request.failure (e : ErrorKind) : (o : Request) → Option (Answer o)
  | .read _ => some (.error e)
  | .readDir _ => some (.error e)
  | .fileLen _ => some (.error e)
  | .createDirAll _ => some (.error e)
  | .write _ _ => some (.error e)
  | .removeFile _ => some (.error e)
  | .rename _ _ => some (.error e)
  | _ => none

namespace BlobStore
variable {c : Crates} {s : BlobStore} {t : Tree} {h : Hash} {d : Bytes} {w : World}
  {pc : PackCache}

/-! ## Reading with the indices that are cached -/

section Cached
variable (hpc : w.caches.packCache = some pc)
include hpc

/-- Behind the blob cache, a handle with cached indices returns the loose file, or what the pack
that the indices lead to has on disk. -/
theorem run_fetchBlob_cached (order : HashOrder) :
    (run (s.fetchBlob c order h) w).2 = w ∧ ∀ d, (run (s.fetchBlob c order h) w).1 = .ok d ↔
      if w.disk.exists (s.blobPath h) = true
        then ∃ raw, w.disk.file (s.blobPath h) = some raw ∧ s.decodeLoose c raw h = .ok d
        else ∃ p o, pc.find h = some (p, o) ∧ recordAt c w.disk.node p h = some d := by
  have hstart : run (s.fetchBlob c order h) w = run (if w.disk.exists (s.blobPath h) = true then
      s.fetchLoose c h else s.fetchPacked c order h) w := rfl
  rw [hstart]
  split_ifs with hex
  · rw [run_of_reads (s.fetchLoose_reads h)]
    exact ⟨rfl, fun d => s.peek_fetchLoose⟩
  · have hcache := s.run_withPackCache order (fun cache => (cache.find h).map Prod.fst) w
    simp only [hpc] at hcache
    have hpacked := s.run_getBlobPacked (c := c) hcache
    refine ⟨by rw [run_fetchPacked, hpacked], fun d => ?_⟩
    rw [run_fetchPacked_ok, hpacked]
    cases hfind : pc.find h with
    | none => simp
    | some e =>
      simp only [Option.map_some, mapError_eq_ok, peek_readThrough]
      constructor
      · intro hrec
        exact ⟨e.1, e.2, rfl, hrec⟩
      · rintro ⟨p, o, heq, hrec⟩
        rw [Option.some.inj heq]
        exact hrec

/-- What `get_blob` does on a handle with cached indices: a hash in the blob cache is answered from
there, another one from the disk. -/
theorem run_getBlob_cached (order : HashOrder) :
    (run (s.getBlob c order h) w).2.disk = w.disk ∧
    (run (s.getBlob c order h) w).2.caches.packCache = some pc ∧
    (∀ e ∈ (run (s.getBlob c order h) w).2.caches.blobCache, e ∈ w.caches.blobCache ∨
      e.1 = h ∧ (run (s.fetchBlob c order h) w).1 = .ok e.2) ∧
    ((∃ d, (h, d) ∈ w.caches.blobCache) →
      ∃ d, (h, d) ∈ w.caches.blobCache ∧ (run (s.getBlob c order h) w).1 = .ok d) ∧
    ((∀ d, (h, d) ∉ w.caches.blobCache) →
      (run (s.getBlob c order h) w).1 = (run (s.fetchBlob c order h) w).1) := by
  obtain ⟨hstay, -⟩ := run_fetchBlob_cached (c := c) (s := s) (h := h) hpc order
  cases hfound : (lookupBlob w.caches.blobCache h).1 with
  | some data =>
    obtain ⟨hhit, hkept⟩ := lookupBlob_spec w.caches.blobCache h
    have hmem := hhit data hfound
    rw [s.run_getBlob_hit hfound]
    exact ⟨rfl, hpc, fun e he => .inl (hkept e he), fun _ => ⟨data, hmem, rfl⟩,
      fun hno => absurd hmem (hno data)⟩
  | none =>
    have hno := (lookupBlob_eq_none hfound).2
    rw [s.run_getBlob_miss hfound]
    cases hfetch : run (s.fetchBlob c order h) w with
    | mk res u =>
      obtain rfl : u = w := by rw [hfetch] at hstay; exact hstay
      cases res with
      | error e =>
        rw [run_bind_error hfetch]
        exact ⟨rfl, hpc, fun e he => .inl he, fun ⟨d, hd⟩ => absurd hd (hno d), fun _ => rfl⟩
      | ok data =>
        rw [run_bind_ok hfetch]
        refine ⟨rfl, hpc, fun e he => ?_, fun ⟨d, hd⟩ => absurd hd (hno d), fun _ => rfl⟩
        rcases mem_insertBlob he with rfl | hold
        · exact .inr ⟨rfl, rfl⟩
        · exact .inl hold

end Cached

/-- What cached indices that were loaded from a disk say about it. -/
theorem loaded_find {order : HashOrder}
    (hload : peek (PackCache.loadAll order s.packDir) t = .ok pc) :
    s.Loadable (s.view t) ∧ (∀ p o, pc.find h = some (p, o) → s.Lists (s.view t) p h) ∧
      (pc.find h = none → ∀ p, ¬ s.Lists (s.view t) p h) := by
  have hloadable : s.Loadable (s.view t) := by
    by_contra hnot
    obtain ⟨e, hfail⟩ := (s.peek_loadAll order).2 hnot
    rw [hfail] at hload
    cases hload
  obtain ⟨ps, hps, hfound⟩ := (s.peek_loadAll order).1 hloadable
  obtain rfl := Except.ok.inj (hload.symm.trans hfound)
  exact ⟨hloadable, s.find_loaded order hps⟩

/-- What can be returned for a hash that reads back is what it reads back as. -/
theorem Held.eq_of_readsBack {v : Nodes} {d' : Bytes} (hheld : s.Held c v h d')
    (hr : s.ReadsBack c v h d) : d' = d := by
  rcases hheld with ⟨raw, hraw, hd'⟩ | ⟨hnone, -, p, hp, hrec⟩
  · rcases hr with ⟨raw', hraw', hd⟩ | ⟨hnone, -⟩
    · obtain rfl := Option.some.inj (hraw.symm.trans hraw')
      exact Except.ok.inj (hd'.symm.trans hd)
    · rw [bytesAt_eq_some, hnone] at hraw
      cases hraw
  · rcases hr with ⟨raw', hraw', -⟩ | ⟨-, -, -, hall⟩
    · rw [bytesAt_eq_some, hnone] at hraw'
      cases hraw'
    · exact Option.some.inj (hrec.symm.trans (hall p hp))

end BlobStore

/-! ## The failing sweep -/

namespace Gc
variable {c : Crates} {s : BlobStore} {live : Finset Hash} {options : SweepOptions} {w : World}
  {t : Tree} {h : Hash} {d : Bytes} {pc : PackCache} {order : HashOrder}

/-- A sweep that fails has not touched the caches. -/
theorem failed_sweep_caches {n : ℕ} {kind : ErrorKind} {err : CasError}
    (hfail : (sweep c s live options).failAt answer (Request.failure kind) n w = some err) :
    (cutOff n (sweep c s live options) w).caches.packCache = w.caches.packCache ∧
      (cutOff n (sweep c s live options) w).caches.blobCache = w.caches.blobCache := by
  have hcalls : ∀ report err, finish report ≠ (.throw err : Action CasError SweepReport) := by
    intro report err
    unfold finish
    cases report.executed <;> exact fun heq => by cases heq
  have hnever : ∀ report, (finish report).Uses fun o => Request.failure kind o = none := by
    intro report
    unfold finish
    cases report.executed with
    | true => exact ⟨rfl, fun _ => ⟨rfl, fun _ => ⟨rfl, fun _ => trivial⟩⟩⟩
    | false => trivial
  rw [sweep_eq] at hfail ⊢
  rcases Prog.failAt_bind hcalls hfail with ⟨-, hcut⟩ | ⟨report, m, u, -, hthen, -⟩
  · have hfiles := sweepFiles_onFiles (c := c) (s := s) live options
    rw [cutOff, hcut]
    exact ⟨(hfiles.mono fun _ h => h.sparesPacks).cut_eq (fun w => w.caches.packCache)
        (fun _ u ho => answer_sparesPacks ho u) n w,
      (hfiles.mono fun _ h => h.sparesBlobs).cut_eq (fun w => w.caches.blobCache)
        (fun _ u ho => answer_sparesBlobs ho u) n w⟩
  · rw [(hnever report).failAt_eq_none] at hthen
    cases hthen

/-- In the midst of a sweep the files of a pack are as before or gone. -/
theorem Partly.pack_or_gone {v u : Nodes} {p : Path} (hsep : Separate c s v live options)
    (hu : Partly c s v live options u) (hp : s.Indexed v p) :
    (u p = v p ∨ u p = none) ∧ (u (idxOf p) = v (idxOf p) ∨ u (idxOf p) = none) := by
  have heither : ∀ q, (∀ ch, Replaces c s v live options ch → ch.path ≠ q) →
      u q = v q ∨ u q = none := by
    intro q hq
    rcases hu.node q with hsame | ⟨hgone, -⟩ | ⟨b, hput, -⟩
    · exact .inl hsame
    · exact .inr hgone
    · exact absurd rfl (hq _ hput)
  exact ⟨heither p fun ch hch => (hsep.apart ch hch p hp).1,
    heither (idxOf p) fun ch hch => (hsep.apart ch hch p hp).2⟩

/-- A handle that still has the indices of the disk `t`, while the disk is somewhere in the midst of
a sweep of `t`. What it has cached of live blobs was on `t`. -/
structure Stale (c : Crates) (s : BlobStore) (live : Finset Hash) (options : SweepOptions) (t : Tree)
    (pc : PackCache) (u : World) : Prop where
  loaded : ∃ order, peek (PackCache.loadAll order s.packDir) t = .ok pc
  cached : u.caches.packCache = some pc
  separate : Separate c s (s.view t) live options
  partly : Partly c s (s.view t) live options (s.view u.disk)
  blobs : ∀ e ∈ u.caches.blobCache, e.1 ∈ live → s.Held c (s.view t) e.1 e.2

section Stale
variable {u : World} (hu : Stale c s live options t pc u)
include hu

/-- A pack that the indices lead to answers as before if its files are there, and not otherwise. -/
theorem Stale.recordAt {p : Path} {o : ℕ} (hfind : pc.find h = some (p, o)) :
    s.Lists (s.view t) p h ∧
    (u.disk.exists p = true ∧ u.disk.exists (idxOf p) = true →
      recordAt c u.disk.node p h = recordAt c (s.view t) p h) ∧
    ∀ d, recordAt c u.disk.node p h = some d →
      u.disk.exists p = true ∧ u.disk.exists (idxOf p) = true := by
  obtain ⟨order, hload⟩ := hu.loaded
  have hlists := (BlobStore.loaded_find (h := h) hload).2.1 p o hfind
  have hname := hlists.1.1
  obtain ⟨hpack, hidx⟩ := hu.partly.pack_or_gone hu.separate (BlobStore.Lists.indexed s hlists)
  rw [s.view_packName hname] at hpack
  rw [s.view_idxOf hname] at hidx
  have hne : p ≠ [] := by
    rintro rfl
    obtain ⟨name, heq, -, -⟩ := hname
    simp at heq
  refine ⟨hlists, fun ⟨h1, h2⟩ => ?_, fun d hd => ?_⟩
  · have hp : u.disk.node p = s.view t p := by
      refine hpack.resolve_right fun hgone => ?_
      rw [(Tree.exists_eq_false hne).mpr hgone] at h1
      cases h1
    have hi : u.disk.node (idxOf p) = s.view t (idxOf p) := by
      refine hidx.resolve_right fun hgone => ?_
      rw [(Tree.exists_eq_false (idxOf_ne_nil p hne)).mpr hgone] at h2
      cases h2
    simp only [CasKit.recordAt, indexAt, bytesAt_congr hp, bytesAt_congr hi]
  · obtain ⟨i, hi, hrest⟩ := Option.bind_eq_some_iff.mp hd
    obtain ⟨o', ho', hrest⟩ := Option.bind_eq_some_iff.mp hrest
    obtain ⟨bs, hbs, -⟩ := Option.bind_eq_some_iff.mp hrest
    obtain ⟨b, hb, -⟩ := Option.bind_eq_some_iff.mp hi
    exact ⟨Tree.exists_of_file hbs, Tree.exists_of_file hb⟩

/-- What such a handle fetches for a live hash could be returned before. -/
theorem Stale.held (hh : h ∈ live) (hfetch : (run (s.fetchBlob c order h) u).1 = .ok d) :
    s.Held c (s.view t) h d := by
  have hsame := hu.partly.blobPath_eq hh
  rw [s.view_blobPath] at hsame
  have hwhere := ((BlobStore.run_fetchBlob_cached hu.cached order).2 d).mp hfetch
  split_ifs at hwhere with hex
  · obtain ⟨raw, hraw, hd⟩ := hwhere
    refine .inl ⟨raw, ?_, hd⟩
    rw [← bytesAt_congr hsame]
    exact hraw
  · obtain ⟨p, o, hfind, hrec⟩ := hwhere
    obtain ⟨hlists, hback, hthere⟩ := hu.recordAt hfind
    obtain ⟨order', hload⟩ := hu.loaded
    rw [hback (hthere d hrec)] at hrec
    refine .inr ⟨?_, (BlobStore.loaded_find (h := h) hload).1, p, hlists, hrec⟩
    rw [← hsame]
    exact (Tree.exists_eq_false s.blobPath_ne_nil).mp (by simpa using hex)

/-- A later `get_blob` leaves the handle as it is, but for the blob cache. -/
theorem Stale.after_get (order : HashOrder) (h : Hash) :
    Stale c s live options t pc (run (s.getBlob c order h) u).2 ∧
      (run (s.getBlob c order h) u).2.disk = u.disk := by
  obtain ⟨hdisk, hcache, hblobs, -⟩ := BlobStore.run_getBlob_cached (c := c) (s := s) (h := h)
    hu.cached order
  refine ⟨⟨hu.loaded, hcache, hu.separate, ?_, fun e he hlive => ?_⟩, hdisk⟩
  · rw [hdisk]
    exact hu.partly
  · rcases hblobs e he with hold | ⟨rfl, hfetch⟩
    · exact hu.blobs e hold hlive
    · exact hu.held hlive hfetch

/-- When a live blob that read back before is returned. -/
theorem Stale.getBlob_iff (order : HashOrder) (hh : h ∈ live) (hr : s.ReadsBack c (s.view t) h d) :
    (run (s.getBlob c order h) u).1 = .ok d ↔ (∃ d, (h, d) ∈ u.caches.blobCache) ∨
      s.IsLoose (s.view t) h ∨ ∀ p o, pc.find h = some (p, o) →
        u.disk.exists p = true ∧ u.disk.exists (idxOf p) = true := by
  obtain ⟨-, -, -, hhit, hmiss⟩ := BlobStore.run_getBlob_cached (c := c) (s := s) (h := h)
    hu.cached order
  by_cases hcached : ∃ d, (h, d) ∈ u.caches.blobCache
  · obtain ⟨d', hmem, hrun⟩ := hhit hcached
    have hd := (hu.blobs _ hmem hh).eq_of_readsBack hr
    rw [hrun]
    exact ⟨fun _ => .inl hcached, fun _ => congrArg Except.ok hd⟩
  · rw [hmiss fun d hd => hcached ⟨d, hd⟩, or_iff_right hcached,
      (BlobStore.run_fetchBlob_cached hu.cached order).2 d]
    have hsame := hu.partly.blobPath_eq hh
    rw [s.view_blobPath] at hsame
    rcases hr with ⟨raw, hraw, hd⟩ | ⟨hnone, -, hlists, hall⟩
    · have hfile : u.disk.file (s.blobPath h) = some raw := (bytesAt_congr hsame).trans hraw
      rw [if_pos (Tree.exists_of_file hfile)]
      exact ⟨fun _ => .inl ⟨raw, bytesAt_eq_some.mp hraw⟩, fun _ => ⟨raw, hfile, hd⟩⟩
    · have hnot : ¬ s.IsLoose (s.view t) h := by
        intro hloose
        obtain ⟨b, hb⟩ := hloose
        rw [hnone] at hb
        cases hb
      have hex : u.disk.exists (s.blobPath h) = false :=
        (Tree.exists_eq_false s.blobPath_ne_nil).mpr (hsame.trans hnone)
      rw [hex, if_neg Bool.false_ne_true, or_iff_right hnot]
      constructor
      · rintro ⟨p, o, hfind, hrec⟩ p' o' hfind'
        rw [hfind] at hfind'
        obtain ⟨rfl, rfl⟩ := Prod.mk.inj (Option.some.inj hfind')
        exact (hu.recordAt hfind).2.2 d hrec
      · intro hthere
        obtain ⟨order', hload⟩ := hu.loaded
        cases hfind : pc.find h with
        | none =>
          obtain ⟨p, hp⟩ := hlists
          exact absurd hp ((BlobStore.loaded_find hload).2.2 hfind p)
        | some e =>
          obtain ⟨hlisted, hback, -⟩ := hu.recordAt (p := e.1) (o := e.2) hfind
          refine ⟨e.1, e.2, rfl, ?_⟩
          rw [hback (hthere e.1 e.2 hfind)]
          exact hall e.1 hlisted

end Stale

/-- The handle after a number of `get_blob` calls. -/
def afterReads (c : Crates) (s : BlobStore) (reads : List (HashOrder × Hash)) (w : World) : World :=
  BlobStore.session c s (reads.map fun r => .getBlob r.1 r.2) w

theorem Stale.after_reads {u : World} (hu : Stale c s live options t pc u)
    (reads : List (HashOrder × Hash)) : Stale c s live options t pc (afterReads c s reads u) ∧
      (afterReads c s reads u).disk = u.disk := by
  induction reads generalizing u with
  | nil => exact ⟨hu, rfl⟩
  | cons r reads ih =>
    obtain ⟨hnext, hdisk⟩ := hu.after_get r.1 r.2
    obtain ⟨hlast, hsame⟩ := ih hnext
    exact ⟨hlast, hsame.trans hdisk⟩

/-- A sweep in which a file operation fails, on a handle with loaded pack indices. Whatever is read
after it, the live blobs that could be read before are returned if and only if each of them is in
the blob cache by then, or has a loose file, or is in a pack both of whose files the sweep had not
removed when the operation failed. -/
theorem failed_sweep_iff {caches : Caches} {n : ℕ} {kind : ErrorKind} {err : CasError}
    (hcan : Canonical c s (s.view t))
    (hinj : Set.InjOn (hashBytes c) (indexBytes c s (s.view t) live options))
    (hw : s.Agrees c ⟨t, caches⟩) (hpc : caches.packCache = some pc)
    (hfail : (sweep c s live options).failAt answer (Request.failure kind) n ⟨t, caches⟩ = some err)
    (reads : List (HashOrder × Hash)) :
    (∀ h ∈ live, ∀ d, s.Reads c t h d → ∀ order, (run (s.getBlob c order h)
        (afterReads c s reads (cutOff n (sweep c s live options) ⟨t, caches⟩))).1 = .ok d) ↔
      ∀ h ∈ live, (∃ d, s.Reads c t h d) →
        (∃ d, (h, d) ∈ (afterReads c s reads
          (cutOff n (sweep c s live options) ⟨t, caches⟩)).caches.blobCache) ∨
        s.IsLoose (s.view t) h ∨ ∀ p o, pc.find h = some (p, o) →
          (cutOff n (sweep c s live options) ⟨t, caches⟩).disk.exists p = true ∧
            (cutOff n (sweep c s live options) ⟨t, caches⟩).disk.exists (idxOf p) = true := by
  have hsep := separate_of_canonical hinj hcan
  obtain ⟨hpacks, hblobs⟩ := failed_sweep_caches hfail
  obtain ⟨order, hloaded⟩ := hw.packs
  have hstart : Stale c s live options t pc (cutOff n (sweep c s live options) ⟨t, caches⟩) := by
    refine ⟨⟨order, hloaded pc hpc⟩, hpacks.trans hpc, hsep, ?_, fun e he _ => ?_⟩
    · exact sweep_partly (w := ⟨t, caches⟩) hsep n
    · rw [hblobs] at he
      exact hw.blobs e he
  obtain ⟨hstale, hdisk⟩ := hstart.after_reads reads
  simp only [BlobStore.reads_iff]
  constructor
  · intro hall h hh hr
    obtain ⟨d, hr⟩ := hr
    have hiff := hstale.getBlob_iff .inserted hh hr
    rw [hdisk] at hiff
    exact hiff.mp (hall h hh d hr .inserted)
  · intro hcond h hh d hr order
    have hiff := hstale.getBlob_iff order hh hr
    rw [hdisk] at hiff
    exact hiff.mpr (hcond h hh ⟨d, hr⟩)

/-- The indices of the store with `a` and the garbage `g` in one pack. -/
def loadedIndices : PackCache :=
  (peek (PackCache.loadAll .inserted (Concrete.store false).packDir)
    Concrete.packedDisk).toOption.getD ⟨[]⟩

theorem loadedIndices_ok : (peek (PackCache.loadAll .inserted (Concrete.store false).packDir)
    Concrete.packedDisk).isOk = true := by
  decide +kernel

/-- A handle that has them. -/
def loadedCaches : Caches := ⟨some loadedIndices, [], []⟩

theorem agrees_loadedCaches :
    (Concrete.store false).Agrees Concrete.crates ⟨Concrete.packedDisk, loadedCaches⟩ := by
  refine ⟨⟨.inserted, fun pc hpc => ?_⟩, fun e he => by cases he⟩
  obtain rfl : loadedIndices = pc := Option.some.inj hpc
  have hok := loadedIndices_ok
  unfold loadedIndices
  cases hload : peek (PackCache.loadAll .inserted (Concrete.store false).packDir)
      Concrete.packedDisk with
  | error e =>
    rw [hload] at hok
    cases hok
  | ok pc => rfl

/-- The sweep for `a` fails when it writes the new pack: `a` is returned out of the old one. -/
theorem failed_sweep_rewriting : (run ((Concrete.store false).getBlob Concrete.crates .inserted
      (hashBytes Concrete.crates (text "a"))) (cutOff 15 (sweep Concrete.crates
        (Concrete.store false) {hashBytes Concrete.crates (text "a")} ⟨.delete, true⟩)
          ⟨Concrete.packedDisk, loadedCaches⟩)).1 = .ok (text "a") := by
  -- the fifteenth request fails, and the old pair is there then
  obtain ⟨hfails, hthere⟩ : ((sweep Concrete.crates (Concrete.store false)
      {hashBytes Concrete.crates (text "a")} ⟨.delete, true⟩).failAt answer
        (Request.failure .notADirectory) 15
          ⟨Concrete.packedDisk, loadedCaches⟩).isSome = true ∧
      (loadedIndices.find (hashBytes Concrete.crates (text "a"))).all (fun e =>
        (cutOff 15 (sweep Concrete.crates (Concrete.store false)
          {hashBytes Concrete.crates (text "a")} ⟨.delete, true⟩)
            ⟨Concrete.packedDisk, loadedCaches⟩).disk.exists e.1 &&
        (cutOff 15 (sweep Concrete.crates (Concrete.store false)
          {hashBytes Concrete.crates (text "a")} ⟨.delete, true⟩)
            ⟨Concrete.packedDisk, loadedCaches⟩).disk.exists (idxOf e.1)) = true := by
    decide +kernel
  obtain ⟨err, herr⟩ := Option.isSome_iff_exists.mp hfails
  refine (failed_sweep_iff Concrete.tidy_packedDisk.canonical
    (packedBytes_injOn.mono indexBytes_packedDisk) agrees_loadedCaches rfl herr []).mpr ?_ _
      (Finset.mem_singleton_self _) _ Concrete.reads_packedDisk .inserted
  intro h hh _
  rw [Finset.mem_singleton.mp hh]
  refine .inr (.inr fun p o hfind => ?_)
  rw [hfind] at hthere
  exact Bool.and_eq_true_iff.mp hthere

/-- The sweep for `a` fails when it removes the old pack, whose index is gone: `a`, which is in the
new pack, is not returned any more. -/
theorem failed_sweep_breaks :
    (run ((Concrete.store false).getBlob Concrete.crates .inserted
      (hashBytes Concrete.crates (text "a"))) ⟨Concrete.packedDisk, loadedCaches⟩).1 =
        .ok (text "a") ∧
    ((sweep Concrete.crates (Concrete.store false) {hashBytes Concrete.crates (text "a")}
      ⟨.delete, true⟩).failAt answer (Request.failure .notADirectory) 26
        ⟨Concrete.packedDisk, loadedCaches⟩).isSome = true ∧
    (run ((Concrete.store false).getBlob Concrete.crates .inserted
      (hashBytes Concrete.crates (text "a"))) (cutOff 26 (sweep Concrete.crates
        (Concrete.store false) {hashBytes Concrete.crates (text "a")} ⟨.delete, true⟩)
          ⟨Concrete.packedDisk, loadedCaches⟩)).1.isOk = false := by
  decide +kernel

end Gc

end CasKit
