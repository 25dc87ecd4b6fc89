import CasKit.Canonical
import CasKit.Concrete

/-!
# Sweeping as set difference

On a store made by completed calls, where every loose file and every record reads back, a
finished sweep that rewrites leaves exactly the live objects of the store, with their bytes, and
nothing for the next sweep to do.
-/
namespace CasKit
open Effects Files Codec

section Tidy
variable {c : Crates} {s : BlobStore} {v u : Nodes} {live : Finset Hash}
  {options : Gc.SweepOptions}

/-- A tidy store has no orphan that could clash with a replacement. -/
theorem Tidy.noClash (ht : Tidy c s v) : Gc.NoClash c s v live options := by
  rintro r objects packData entries hrep (horphan | horphan)
  · exact ht.no_orphan horphan
  · exact ht.no_orphan horphan

/-- A finished sweep leaves a tidy store tidy. -/
theorem Tidy.done (ht : Tidy c s v) (hsep : Gc.Separate c s v live options)
    (hu : Gc.Done c s v live options u) : Tidy c s u where
  layout := hu.partly.layout ht.layout
  complete name hsome := by
    have hkeep : ¬ Gc.Discards s v live options (s.packDir ++ [name]) := by
      intro hd
      rw [hu.gone _ hd] at hsome
      cases hsome
    by_cases hput : ∃ b, Gc.Replaces c s v live options (.put (s.packDir ++ [name]) b)
    · obtain ⟨b, hput⟩ := hput
      obtain ⟨r, objects, packData, entries, hrep, hcase⟩ := Gc.replaces_cases hput
      have hstay := mt (hrep.discards_iff hsep).mpr (ht.noClash _ _ _ _ hrep)
      rw [not_or] at hstay
      have hparse := parse_serializeIndex [] (offset_packObjects hrep.packed)
      rw [List.append_nil] at hparse
      refine ⟨serializeIndex entries, ⟨⟨_, hparse⟩, ⟨packData, ?_⟩, ?_⟩, ?_⟩
      · exact hu.written _ _ hrep.puts.1 hstay.1
      · exact hu.written _ _ hrep.puts.2 hstay.2
      · exact hcase.imp And.left And.left
    · push Not at hput
      have hsame := hu.same _ hkeep hput
      rw [hsame] at hsome
      obtain ⟨b, hb, heq⟩ := ht.complete name hsome
      obtain ⟨data, hdata⟩ := hb.pack
      have hindexed : s.Indexed v (PackFile.packPath c s.packDir b) := by
        refine ⟨⟨isPackName_packPath c s b, by rw [hdata]; rfl⟩, ?_⟩
        rw [idxOf_packPath, hb.idx]
        rfl
      have hstay : ¬ Gc.Removed s v live options (PackFile.packPath c s.packDir b) := by
        intro hgo
        apply hkeep
        rcases heq with heq | heq
        · exact .inr (.inr ⟨_, hgo, .inl heq⟩)
        · exact .inr (.inr ⟨_, hgo, .inr (by rw [idxOf_packPath]; exact heq)⟩)
      obtain ⟨h1, h2⟩ := hu.same_of_stays ht.layout hsep hindexed hstay
      rw [idxOf_packPath] at h2
      exact ⟨b, ⟨hb.loads, ⟨data, h1.trans hdata⟩, h2.trans hb.idx⟩, heq⟩
  dirs := by
    have hdir : ∀ q, (∀ name, q ≠ s.packDir ++ [name]) → bytesAt v q = none → bytesAt u q = none := by
      intro q hne hq
      rcases hu.partly.node q with heq | ⟨hnone, -⟩ | ⟨b, hput, -⟩
      · exact (bytesAt_congr heq).trans hq
      · simp [bytesAt, hnone]
      · obtain ⟨name, -, hname⟩ := Gc.exists_name_of_replaces hput
        exact absurd hname (hne name)
    refine ⟨hdir _ (fun name heq => ?_) ht.dirs.1, hdir _ (fun name => ?_) ht.dirs.2⟩
    · have hlen := congrArg List.length heq
      simp [BlobStore.packDir, BlobStore.objectsDir] at hlen
    · exact s.packDir_ne_packFile name
  files h := by
    rcases hu.partly.node (s.blobPath h) with heq | ⟨hnone, -⟩ | ⟨b, hput, -⟩
    · rw [heq]
      exact ht.files h
    · rw [hnone]
      simp
    · exact absurd hput Gc.not_replaces_blobPath

theorem Tidy.sweep {t : Tree} {caches : Caches} {w : World} {report : Gc.SweepReport}
    (ht : Tidy c s (s.view t))
    (hinj : Set.InjOn (hashBytes c) (Gc.indexBytes c s (s.view t) live options))
    (hrun : run (Gc.sweep c s live options) ⟨t, caches⟩ = (.ok report, w)) :
    Tidy c s (s.view w.disk) := by
  have hsep := Gc.separate_of_canonical hinj ht.canonical
  obtain ⟨hdry, hdone⟩ := Gc.sweep_done (w := ⟨t, caches⟩) hsep hrun
  by_cases hmode : options.mode = .dryRun
  · rw [hdry hmode]
    exact ht
  · exact ht.done hsep (hdone hmode)

end Tidy

namespace Gc
variable {c : Crates} {s : BlobStore} {v : Nodes} {live : Finset Hash} {B : Set Bytes}

/-- Every loose file and every record of a pack reads back to bytes with the digest it is filed
under. -/
structure Intact (c : Crates) (s : BlobStore) (v : Nodes) : Prop where
  loose : ∀ h raw, bytesAt v (s.blobPath h) = some raw →
    ∃ d, s.decodeLoose c raw h = .ok d ∧ hashBytes c d = h
  records : ∀ p h, s.Lists v p h → ∃ d, recordAt c v p h = some d

/-- What the records of a store read back to. -/
def recordBytes (c : Crates) (s : BlobStore) (v : Nodes) : Set Bytes :=
  {d | ∃ p h, s.Lists v p h ∧ recordAt c v p h = some d}

/-- Reading every listed object once shows that a store is intact, and what is in its packs. -/
theorem intact_of_lists {t : Tree} {B : List Bytes} (hdirs : t.file s.objectsDir = none ∧
      t.file s.packDir = none)
    (hloose : ∀ h ∈ s.looseOn t, ∀ raw ∈ bytesAt (s.view t) (s.blobPath h),
      ∃ d ∈ (s.decodeLoose c raw h).toOption, hashBytes c d = h)
    (hpacks : ∀ p ∈ s.packsOn t, ∀ i ∈ indexAt (s.view t) p, ∀ h ∈ i.hashes,
      ∃ d ∈ recordAt c (s.view t) p h, d ∈ B) :
    Intact c s (s.view t) ∧ recordBytes c s (s.view t) ⊆ {d | d ∈ B} := by
  refine ⟨⟨fun h raw hraw => ?_, fun p h hp => ?_⟩, ?_⟩
  · have hn := BlobStore.namedLoose_of_isLoose ⟨raw, bytesAt_eq_some.mp hraw⟩
    obtain ⟨d, hd, hash⟩ := hloose h ((s.mem_looseOn hdirs.1 h).mpr hn) raw hraw
    refine ⟨d, ?_, hash⟩
    cases hres : s.decodeLoose c raw h with
    | error e =>
      rw [hres] at hd
      cases hd
    | ok d' =>
      rw [hres] at hd
      rw [Option.some.inj hd]
  · obtain ⟨hentry, i, hi, hh⟩ := hp
    obtain ⟨d, hd, -⟩ := hpacks p ((s.mem_packsOn hdirs.2 p).mpr hentry) i hi h hh
    exact ⟨d, hd⟩
  · rintro d ⟨p, h, ⟨hentry, i, hi, hh⟩, hd⟩
    obtain ⟨d', hd', hB⟩ := hpacks p ((s.mem_packsOn hdirs.2 p).mpr hentry) i hi h hh
    rw [Option.some.inj (hd.symm.trans hd')]
    exact hB

/-- The stores that completed calls lead to, one after another on handles with any caches, from
a directory that was just made. The set `B` holds the index bytes that the sweeps meet. -/
inductive Reached (c : Crates) (s : BlobStore) (B : Set Bytes) : Tree → Prop
  | empty {t : Tree} (hnew : ∀ p, s.view t p = if p = s.objectsDir then some .dir else none) :
      Reached c s B t
  | put {t : Tree} {w : World} (past : Reached c s B t) (call : BlobStore.PutCall) (caches : Caches)
      (hrun : run (call.action c s) ⟨t, caches⟩ = (.ok (), w)) : Reached c s B w.disk
  | repack {t : Tree} {w : World} (past : Reached c s B t) (order : HashOrder) (threshold n : ℕ)
      (caches : Caches) (hrun : run (s.repack c order threshold) ⟨t, caches⟩ = (.ok n, w)) :
      Reached c s B w.disk
  | create {t : Tree} {w : World} (past : Reached c s B t) (objects : List (Hash × Bytes))
      (hobjects : ∀ o ∈ objects, hashBytes c o.2 = o.1) (r : Path × Path) (caches : Caches)
      (hrun : run (PackFile.create c s.packDir objects) ⟨t, caches⟩ = (.ok r, w)) :
      Reached c s B w.disk
  | sweep {t : Tree} {w : World} (past : Reached c s B t) (live : Finset Hash)
      (options : SweepOptions) (hB : indexBytes c s (s.view t) live options ⊆ B)
      (report : SweepReport) (caches : Caches)
      (hrun : run (Gc.sweep c s live options) ⟨t, caches⟩ = (.ok report, w)) : Reached c s B w.disk

theorem Reached.tidy {t : Tree} (hreach : Reached c s B t) (hinj : Set.InjOn (hashBytes c) B) :
    Tidy c s (s.view t) := by
  induction hreach with
  | empty hnew => exact Tidy.new hnew
  | put past call caches hrun ih => exact ih.put hrun
  | repack past order threshold n caches hrun ih => exact ih.repack hrun
  | create past objects hobjects r caches hrun ih => exact ih.create hrun
  | sweep past live options hB report caches hrun ih => exact ih.sweep (hinj.mono hB) hrun

/-- In an intact tidy store every present hash has one reading. -/
theorem exists_readsBack {t : Tree} (ht : Tidy c s (s.view t)) (hintact : Intact c s (s.view t))
    (hinj : Set.InjOn (hashBytes c) (recordBytes c s (s.view t))) {h : Hash}
    (hp : s.Present (s.view t) h) : ∃ d, s.ReadsBack c (s.view t) h d := by
  cases hnode : s.view t (s.blobPath h) with
  | some n =>
    cases n with
    | dir => exact absurd hnode (ht.files h)
    | file raw =>
      obtain ⟨d, hd, -⟩ := hintact.loose h raw (bytesAt_eq_some.mpr hnode)
      exact ⟨d, .inl ⟨raw, bytesAt_eq_some.mpr hnode, hd⟩⟩
  | none =>
    rcases hp with hn | ⟨p, hp⟩
    · obtain ⟨b, hb⟩ := ht.layout.isLoose hn
      rw [hnode] at hb
      cases hb
    · obtain ⟨d, hd⟩ := hintact.records p h hp
      refine ⟨d, .inr ⟨hnode, ht.loadable, ⟨p, hp⟩, fun q hq => ?_⟩⟩
      obtain ⟨d', hd'⟩ := hintact.records q h hq
      have hash := (recordAt_hash hd').1.trans (recordAt_hash hd).1.symm
      rw [hd', hinj ⟨q, h, hq, hd'⟩ ⟨p, h, hp, hd⟩ hash]

/-- A live hash reads back after a finished sweep as it did before. -/
theorem Done.readsBack {t t' : Tree} {options : SweepOptions} (hz : ZstdSound c)
    (ht : Tidy c s (s.view t)) (hsep : Separate c s (s.view t) live options)
    (hu : Done c s (s.view t) live options (s.view t')) {h : Hash} {d : Bytes} (hh : h ∈ live)
    (hp : s.Present (s.view t') h) (hr : s.ReadsBack c (s.view t) h d) :
    s.ReadsBack c (s.view t') h d := by
  have hsame := hu.partly.blobPath_eq hh
  have htidy := ht.done hsep hu
  rcases hr with ⟨raw, hraw, hd⟩ | ⟨hnone, -, -, hall⟩
  · exact .inl ⟨raw, (bytesAt_congr hsame).trans hraw, hd⟩
  · refine .inr ⟨hsame.trans hnone, htidy.loadable, ?_, fun q hq => ?_⟩
    · rcases hp with hn | hlists
      · obtain ⟨b, hb⟩ := htidy.layout.isLoose hn
        rw [hsame, hnone] at hb
        cases hb
      · exact hlists
    · rcases hu.lists_cases ht.layout hsep hz hq with
        ⟨hold, -, heq⟩ | ⟨r, objects, packData, entries, hrep, -, hh, heq⟩
      · exact heq.trans (hall q hold)
      · exact heq.trans (hall r.pack ((hrep.rewrites.keep h).mp hh).lists)

/-- A tidy store with nothing but live objects leaves the next plan nothing to do. -/
theorem planSweep_idle {t : Tree} (ht : Tidy c s (s.view t))
    (hlive : ∀ h, s.Present (s.view t) h → h ∈ live) :
    ∃ plan, peek (planSweep s live) t = .ok plan ∧ plan.garbage = 0 ∧ plan.looseGarbage = [] ∧
      plan.orphanFiles = [] ∧ plan.packsToRemove = [] ∧ plan.packsToRewrite = [] := by
  obtain ⟨plan, hplan⟩ := planSweep_ok ht.dirs fun h hn => hlive h (.inl hn)
  have hplanned := planned hplan
  have hhealthy : ∀ p, ¬ s.HasGarbage (s.view t) live p := by
    rintro p ⟨g, hg, hlists⟩
    exact hg (hlive g (.inr ⟨p, hlists⟩))
  refine ⟨plan, hplan, hplanned.garbage.mpr hlive, ?_, ?_, ?_, ?_⟩
  · refine List.eq_nil_iff_forall_not_mem.mpr fun h hh => ?_
    obtain ⟨hn, hdead⟩ := (hplanned.looseGarbage h).mp hh
    exact hdead (hlive h (.inl hn))
  · refine List.eq_nil_iff_forall_not_mem.mpr fun q hq => ?_
    exact ht.no_orphan ((hplanned.orphanFiles q).mp hq)
  · refine List.eq_nil_iff_forall_not_mem.mpr fun p hp => ?_
    exact hhealthy p ((hplanned.packsToRemove p).mp hp).1
  · refine List.eq_nil_iff_forall_not_mem.mpr fun r hr => ?_
    obtain ⟨h, hh⟩ := List.exists_mem_of_ne_nil _ (hplanned.keep_ne_nil r hr)
    exact hhealthy r.pack ((hplanned.keep r hr h).mp hh).garbage

/-- Sweep is exact set difference: on an intact store that completed calls have made, a sweep in
either executing mode that rewrites and returns leaves just the live objects that were present,
each with its bytes, the packs without garbage as they were, and nothing to plan for. -/
theorem sweep_exact {t : Tree} {mode : SweepMode} {caches : Caches} {report : SweepReport}
    {w : World} (hz : ZstdSound c) (hinj : Set.InjOn (hashBytes c) B) (hreach : Reached c s B t)
    (hintact : Intact c s (s.view t)) (hindex : indexBytes c s (s.view t) live ⟨mode, true⟩ ⊆ B)
    (hrecords : recordBytes c s (s.view t) ⊆ B) (hmode : mode ≠ .dryRun)
    (hrun : run (sweep c s live ⟨mode, true⟩) ⟨t, caches⟩ = (.ok report, w)) :
    (∀ h, s.Present (s.view w.disk) h ↔ h ∈ live ∧ s.Present (s.view t) h) ∧
    (∀ h ∈ live, s.Present (s.view t) h → ∃ d, s.Reads c t h d ∧ s.Reads c w.disk h d) ∧
    (∀ p, s.Indexed (s.view t) p → ¬ s.HasGarbage (s.view t) live p →
      s.view w.disk p = s.view t p ∧ s.view w.disk (idxOf p) = s.view t (idxOf p)) ∧
    ∃ plan, (run (planSweep s live) w).1 = .ok plan ∧ plan.garbage = 0 ∧ plan.looseGarbage = [] ∧
      plan.orphanFiles = [] ∧ plan.packsToRemove = [] ∧ plan.packsToRewrite = [] := by
  have ht := hreach.tidy hinj
  have hsep := separate_of_canonical (hinj.mono hindex) ht.canonical
  have hdone := (sweep_done (w := ⟨t, caches⟩) hsep hrun).2 hmode
  have hpresent : ∀ h, s.Present (s.view w.disk) h ↔ h ∈ live ∧ s.Present (s.view t) h :=
    fun h => hdone.present_iff hsep hz rfl rfl ht.layout rfl ht.noClash
  refine ⟨hpresent, fun h hh hp => ?_, fun p hp hhealthy => ?_, ?_⟩
  · obtain ⟨d, hd⟩ := exists_readsBack ht hintact (hinj.mono hrecords) hp
    refine ⟨d, (s.reads_iff).mpr hd, (s.reads_iff).mpr ?_⟩
    exact hdone.readsBack hz ht hsep hh ((hpresent h).mpr ⟨hh, hp⟩) hd
  · exact hdone.same_of_stays ht.layout hsep hp fun hgo => hhealthy hgo.1
  · obtain ⟨plan, hplan, hrest⟩ := planSweep_idle (ht.done hsep hdone)
      fun h hp => ((hpresent h).mp hp).1
    refine ⟨plan, ?_, hrest⟩
    rw [run_of_reads planSweep_reads]
    exact hplan

theorem reached_packedDisk : Reached Concrete.crates (Concrete.store false)
    {b | b ∈ packedBytes} Concrete.packedDisk := by
  have hput : ∀ t data, Reached Concrete.crates (Concrete.store false) {b | b ∈ packedBytes} t →
      (run (BlobStore.PutCall.action Concrete.crates (Concrete.store false) (.putBlob data))
        ⟨t, .empty⟩).1 = .ok () →
      Reached Concrete.crates (Concrete.store false) {b | b ∈ packedBytes} (Concrete.after
        (BlobStore.PutCall.action Concrete.crates (Concrete.store false) (.putBlob data)) t) :=
    fun t data ht hok => ht.put (.putBlob data) .empty (Prod.ext hok rfl)
  have hrepack : ∀ t, Reached Concrete.crates (Concrete.store false) {b | b ∈ packedBytes} t →
      (run ((Concrete.store false).repack Concrete.crates .inserted 0) ⟨t, .empty⟩).1 = .ok 2 →
      Reached Concrete.crates (Concrete.store false) {b | b ∈ packedBytes} (Concrete.after
        ((Concrete.store false).repack Concrete.crates .inserted 0) t) :=
    fun t ht hok => ht.repack .inserted 0 2 .empty (Prod.ext hok rfl)
  obtain ⟨hfirst, hsecond, hlast⟩ := Concrete.packedDisk_calls
  exact hrepack _ (hput _ _ (hput _ _ (.empty (Concrete.view_newDisk false)) hfirst) hsecond) hlast

/-- Only `a` is live: `g` is gone after the sweep. -/
theorem sweep_exact_packed : ¬ BlobStore.Present (Concrete.store false)
    ((Concrete.store false).view
      (Concrete.after (sweep Concrete.crates (Concrete.store false)
        {hashBytes Concrete.crates (text "a")} ⟨.delete, true⟩) Concrete.packedDisk))
      (hashBytes Concrete.crates (text "g")) := by
  obtain ⟨report, hrun⟩ := run_eq_ok (sweep Concrete.crates (Concrete.store false)
    {hashBytes Concrete.crates (text "a")} ⟨.delete, true⟩) ⟨Concrete.packedDisk, .empty⟩
    sweep_packedDisk_ok
  obtain ⟨hintact, hrecords⟩ := (fun hfacts : _ ∧ _ ∧ _ => @intact_of_lists Concrete.crates
    (Concrete.store false) Concrete.packedDisk packedBytes hfacts.1 hfacts.2.1 hfacts.2.2)
      (by decide +kernel)
  have hlast := (sweep_exact Concrete.zstdSound packedBytes_injOn reached_packedDisk hintact
    indexBytes_packedDisk hrecords (by decide) hrun).1 (hashBytes Concrete.crates (text "g"))
  intro hp
  have hlive := (hlast.mp hp).1
  revert hlive
  decide +kernel

end Gc

end CasKit
