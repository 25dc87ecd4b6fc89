import CasKit.Concrete
import CasKit.Canonical

/-!
# Intact copies

Which live objects keep a copy that decodes to their bytes, where files may be torn. The
coverage rule goes by names: a loose file counts whatever is in it, and so do the records of a
pack without garbage.
-/
namespace CasKit
open Effects Files Codec

namespace BlobStore
variable (c : Crates) (s : BlobStore) (v : Nodes) {t : Tree} {h : Hash}

/-- The loose file decodes to bytes with the digest. -/
def LooseCopy (h : Hash) : Prop :=
  ∃ raw d, bytesAt v (s.blobPath h) = some raw ∧ s.decodeLoose c raw h = .ok d ∧ hashBytes c d = h

/-- The pack has a record that decodes to bytes with the digest. -/
def PackedCopy (p : Path) (h : Hash) : Prop :=
  s.Lists v p h ∧ ∃ d, recordAt c v p h = some d ∧ hashBytes c d = h

/-- Some copy of the object is intact. -/
def HasCopy (h : Hash) : Prop := s.LooseCopy c v h ∨ ∃ p, s.PackedCopy c v p h

variable {c s v}

theorem packedCopy_iff {p : Path} : s.PackedCopy c v p h ↔
    s.Lists v p h ∧ (recordAt c v p h).isSome = true := by
  rw [PackedCopy, Option.isSome_iff_exists]
  constructor
  · intro hcopy
    obtain ⟨hlists, d, hd, -⟩ := hcopy
    exact ⟨hlists, d, hd⟩
  · intro hcopy
    obtain ⟨hlists, d, hd⟩ := hcopy
    exact ⟨hlists, d, hd, (Gc.recordAt_hash hd).1⟩

/-- Looking at the loose file and at all packs decides whether there is a copy. -/
theorem hasCopy_iff (hdir : t.file s.packDir = none) : s.HasCopy c (s.view t) h ↔
    (∃ raw ∈ bytesAt (s.view t) (s.blobPath h), ∃ d ∈ (s.decodeLoose c raw h).toOption,
      hashBytes c d = h) ∨
    ∃ p ∈ s.packsOn t, (∃ i ∈ indexAt (s.view t) p, h ∈ i.hashes) ∧
      (recordAt c (s.view t) p h).isSome = true := by
  have hloose : s.LooseCopy c (s.view t) h ↔ ∃ raw ∈ bytesAt (s.view t) (s.blobPath h),
      ∃ d ∈ (s.decodeLoose c raw h).toOption, hashBytes c d = h := by
    have hok : ∀ raw d, s.decodeLoose c raw h = .ok d ↔ d ∈ (s.decodeLoose c raw h).toOption := by
      intro raw d
      cases s.decodeLoose c raw h with
      | error e => simp [Except.toOption]
      | ok d' => simp [Except.toOption, eq_comm]
    simp only [LooseCopy, hok, Option.mem_def, exists_and_left]
  have hpacked : (∃ p, s.PackedCopy c (s.view t) p h) ↔
      ∃ p ∈ s.packsOn t, (∃ i ∈ indexAt (s.view t) p, h ∈ i.hashes) ∧
        (recordAt c (s.view t) p h).isSome = true := by
    simp only [packedCopy_iff, Lists, s.mem_packsOn hdir, Option.mem_def, and_assoc]
  rw [HasCopy, hloose, hpacked]

end BlobStore

namespace Gc
variable {c : Crates} {s : BlobStore} {live : Finset Hash} {options : SweepOptions} {h : Hash}

/-- One of the copies is out of reach of the sweep, or goes into a replacement that stays. -/
def KeepsCopy (c : Crates) (s : BlobStore) (v : Nodes) (live : Finset Hash) (options : SweepOptions)
    (h : Hash) : Prop :=
  s.LooseCopy c v h ∨ (∃ p, s.PackedCopy c v p h ∧ ¬ Removed s v live options p) ∨
    ∃ r objects packData entries, Replacement c s v live options r objects packData entries ∧
      h ∈ r.keep ∧ ¬ Clash c s v entries

section Done
variable {v u : Nodes}

theorem Partly.looseCopy_iff (hu : Partly c s v live options u) (hh : h ∈ live) :
    s.LooseCopy c u h ↔ s.LooseCopy c v h := by
  have hsame := bytesAt_congr (hu.blobPath_eq hh)
  simp only [BlobStore.LooseCopy, hsame]

/-- What is left of the copies of a live object after a finished sweep. -/
theorem Done.hasCopy_iff (hz : ZstdSound c) (hl : s.Layout v) (hsep : Separate c s v live options)
    (hu : Done c s v live options u) (hh : h ∈ live) :
    s.HasCopy c u h ↔ KeepsCopy c s v live options h := by
  constructor
  · rintro (hloose | ⟨p, hlists, d, hd, hash⟩)
    · exact .inl ((hu.partly.looseCopy_iff hh).mp hloose)
    · rcases hu.lists_cases hl hsep hz hlists with
        ⟨hold, hstay, heq⟩ | ⟨r, objects, packData, entries, hrep, hclash, hkeep, -⟩
      · have hcopy : s.PackedCopy c v p h := ⟨hold, d, heq.symm.trans hd, hash⟩
        exact .inr (.inl ⟨p, hcopy, hstay⟩)
      · exact .inr (.inr ⟨r, objects, packData, entries, hrep, hkeep, hclash⟩)
  · rintro (hloose | ⟨p, ⟨hold, d, hd, hash⟩, hstay⟩ |
      ⟨r, objects, packData, entries, hrep, hkeep, hclash⟩)
    · exact .inl ((hu.partly.looseCopy_iff hh).mpr hloose)
    · obtain ⟨hlists, heq⟩ := hu.lists_of_stays hl hsep hold hstay
      have hcopy : s.PackedCopy c u p h := ⟨hlists, d, heq.trans hd, hash⟩
      exact .inr ⟨p, hcopy⟩
    · obtain ⟨hlists, heq, d, hd⟩ := hu.lists_of_replacement hsep hz hrep hclash hkeep
      have hcopy : s.PackedCopy c u (newPack c s entries) h :=
        ⟨hlists, d, heq.trans hd, (recordAt_hash hd).1⟩
      exact .inr ⟨_, hcopy⟩

end Done

/-- After a sweep that returns, a live object that had an intact copy still has one exactly when
the sweep was a dry run, or the loose file was intact, or an intact record was in a pack that
stays, or the object goes into a replacement whose name no orphan has. -/
theorem sweep_hasCopy {t : Tree} {caches : Caches} {report : SweepReport} {w : World}
    (hz : ZstdSound c) (hcan : Canonical c s (s.view t))
    (hinj : Set.InjOn (hashBytes c) (indexBytes c s (s.view t) live options))
    (hrun : run (sweep c s live options) ⟨t, caches⟩ = (.ok report, w)) (hh : h ∈ live)
    (hcopy : s.HasCopy c (s.view t) h) : s.HasCopy c (s.view w.disk) h ↔
      options.mode = .dryRun ∨ KeepsCopy c s (s.view t) live options h := by
  have hsep := separate_of_canonical hinj hcan
  obtain ⟨hdry, hdone⟩ := sweep_done (w := ⟨t, caches⟩) hsep hrun
  by_cases hmode : options.mode = .dryRun
  · rw [hdry hmode]
    exact ⟨fun _ => .inl hmode, fun _ => hcopy⟩
  · rw [(hdone hmode).hasCopy_iff hz hcan.layout hsep hh]
    exact ⟨.inr, fun hkeeps => hkeeps.resolve_left hmode⟩

/-- Of the disk with one pack, `a` goes into a replacement. -/
theorem sweep_hasCopy_packed : KeepsCopy Concrete.crates (Concrete.store false)
    ((Concrete.store false).view Concrete.packedDisk) {hashBytes Concrete.crates (text "a")}
    ⟨.delete, true⟩ (hashBytes Concrete.crates (text "a")) := by
  obtain ⟨report, hrun⟩ := run_eq_ok (sweep Concrete.crates (Concrete.store false)
    {hashBytes Concrete.crates (text "a")} ⟨.delete, true⟩) ⟨Concrete.packedDisk, .empty⟩
    sweep_packedDisk_ok
  have hbefore : (Concrete.store false).HasCopy Concrete.crates
      ((Concrete.store false).view Concrete.packedDisk)
      (hashBytes Concrete.crates (text "a")) := by
    refine (fun hfacts : _ ∧ _ => (BlobStore.hasCopy_iff hfacts.1).mpr hfacts.2) ?_
    decide +kernel
  have hafter : (Concrete.store false).HasCopy Concrete.crates ((Concrete.store false).view
      (Concrete.after (sweep Concrete.crates (Concrete.store false)
        {hashBytes Concrete.crates (text "a")} ⟨.delete, true⟩) Concrete.packedDisk))
      (hashBytes Concrete.crates (text "a")) := by
    refine (fun hfacts : _ ∧ _ => (BlobStore.hasCopy_iff hfacts.1).mpr hfacts.2) ?_
    decide +kernel
  have hkeeps := (sweep_hasCopy Concrete.zstdSound Concrete.tidy_packedDisk.canonical
    (packedBytes_injOn.mono indexBytes_packedDisk) hrun (Finset.mem_singleton_self _)
    hbefore).mp hafter
  exact hkeeps.resolve_left (by decide)

/-- The disk with `a` and `g` in a pack, and a torn loose file of `a` besides. -/
def tornDisk : Tree :=
  Concrete.after (ioCas (writeFile ((Concrete.store false).blobPath
    (hashBytes Concrete.crates (text "a"))) (text "x"))) Concrete.packedDisk

theorem tidy_tornDisk :
    Tidy Concrete.crates (Concrete.store false) ((Concrete.store false).view tornDisk) := by
  obtain ⟨_, hrun⟩ := run_eq_ok (ioCas (writeFile ((Concrete.store false).blobPath
    (hashBytes Concrete.crates (text "a"))) (text "x"))) ⟨Concrete.packedDisk, .empty⟩
    (by decide +kernel)
  obtain ⟨hview, -⟩ := (BlobStore.performs_writeFile
    (Concrete.store false).objectsDir_prefix_blobPath (text "x")).mapErr.at_ok hrun
  rw [tornDisk, Concrete.after, hview]
  exact Concrete.tidy_packedDisk.putLoose

/-- The torn file counts as a copy of `a`, and the pack goes with its garbage `g`. -/
theorem sweep_loses_copy :
    (Canonical Concrete.crates (Concrete.store false) ((Concrete.store false).view tornDisk) ∧
      (Concrete.store false).Loadable ((Concrete.store false).view tornDisk)) ∧
    (Concrete.store false).HasCopy Concrete.crates ((Concrete.store false).view tornDisk)
      (hashBytes Concrete.crates (text "a")) ∧
    (run (sweep Concrete.crates (Concrete.store false) {hashBytes Concrete.crates (text "a")}
      ⟨.delete, true⟩) ⟨tornDisk, .empty⟩).1.isOk = true ∧
    ¬ (Concrete.store false).HasCopy Concrete.crates ((Concrete.store false).view
      (Concrete.after (sweep Concrete.crates (Concrete.store false)
        {hashBytes Concrete.crates (text "a")} ⟨.delete, true⟩) tornDisk))
      (hashBytes Concrete.crates (text "a")) := by
  refine (fun hfacts : (_ ∧ _) ∧ _ ∧ _ ∧ _ =>
    ⟨⟨tidy_tornDisk.canonical, tidy_tornDisk.loadable⟩,
      (BlobStore.hasCopy_iff hfacts.1.1).mpr hfacts.1.2, hfacts.2.1,
      (BlobStore.hasCopy_iff hfacts.2.2.1).not.mpr hfacts.2.2.2⟩) ?_
  decide +kernel

end Gc

end CasKit
