import CasKit.Concrete
import CasKit.Canonical

/-!
# Sweeps that are cut off and run again

A sweep that is cut off anywhere loses no live object, and running it again to its end leaves
exactly the live ones, provided that no run meets a file with the name of one of its own
replacements. A replacement pack whose index was not written in time is such a file: the next
run writes the pair anew, and then takes the pack for the orphan it was.
-/
namespace CasKit
open Effects Files Codec

namespace Gc
variable {c : Crates} {s : BlobStore} {live : Finset Hash} {options : SweepOptions}

/-- From the first view to the second nothing that is live was lost and nothing was added. -/
structure Safe (c : Crates) (s : BlobStore) (live : Finset Hash) (v u : Nodes) : Prop where
  layout : s.Layout u
  reads : ∀ h ∈ live, ∀ d, s.ReadsBack c v h d → s.ReadsBack c u h d
  present : ∀ h ∈ live, s.Present v h → s.Present u h
  noNew : ∀ h, s.Present u h → s.Present v h

theorem Safe.refl {v : Nodes} (hl : s.Layout v) : Safe c s live v v :=
  ⟨hl, fun _ _ _ hr => hr, fun _ _ hp => hp, fun _ hp => hp⟩

theorem Safe.trans {v u x : Nodes} (h1 : Safe c s live v u) (h2 : Safe c s live u x) :
    Safe c s live v x where
  layout := h2.layout
  reads h hh d hr := h2.reads h hh d (h1.reads h hh d hr)
  present h hh hp := h2.present h hh (h1.present h hh hp)
  noNew h hp := h1.noNew h (h2.noNew h hp)

section Moment
variable {v u : Nodes} {t t' : Tree}

/-- Nothing becomes present by sweeping. -/
theorem Partly.noNew (hz : ZstdSound c) (hl : s.Layout (s.view t))
    (hfresh : Fresh c s (s.view t) live options) (hu : Partly c s (s.view t) live options u)
    {h : Hash} (hp : s.Present u h) : s.Present (s.view t) h := by
  rcases hp with hn | ⟨p, hp⟩
  · obtain ⟨b, hb⟩ := (hu.layout hl).isLoose hn
    rcases hu.node (s.blobPath h) with heq | ⟨hnone, -⟩ | ⟨b', hput, -⟩
    · exact .inl (BlobStore.namedLoose_of_isLoose ⟨b, heq.symm.trans hb⟩)
    · rw [hnone] at hb
      cases hb
    · exact absurd hput not_replaces_blobPath
  · rcases hu.lists_cases hl hfresh hz hp with ⟨hq, -⟩ | ⟨q, hk, -⟩
    · exact .inr ⟨p, hq⟩
    · exact .inr ⟨q, hk.lists⟩

/-- A live hash reads back at every moment as it did before. -/
theorem Partly.readsBack (hz : ZstdSound c) (hl : s.Layout (s.view t))
    (hfresh : Fresh c s (s.view t) live options) (hu : Partly c s (s.view t) live options u)
    {h : Hash} {d : Bytes} (hh : h ∈ live) (hr : s.ReadsBack c (s.view t) h d) :
    s.ReadsBack c u h d := by
  have hsame := hu.blobPath_eq hh
  rcases hr with ⟨raw, hraw, hd⟩ | ⟨hnone, hload, ⟨p, hp⟩, hall⟩
  · exact .inl ⟨raw, (bytesAt_congr hsame).trans hraw, hd⟩
  · have hnot : ¬ s.NamedLoose (s.view t) h := by
      intro hn
      obtain ⟨b, hb⟩ := hl.isLoose hn
      rw [hnone] at hb
      cases hb
    refine .inr ⟨hsame.trans hnone, ⟨?_, fun q hq => ?_⟩, hu.exists_lists hl hfresh rfl hh hp hnot,
      fun q hq => ?_⟩
    · exact (bytesAt_congr (hu.packDir_eq hl)).trans hload.dir
    · rcases hu.indexed_cases hl hfresh hq with
        ⟨hindexed, -, hidx⟩ | ⟨r, objects, packData, entries, -, rfl, hw⟩
      · obtain ⟨i, hi⟩ := hload.index q hindexed
        exact ⟨i, by simpa only [indexAt, bytesAt_congr hidx] using hi⟩
      · exact ⟨_, hw.indexAt⟩
    · rcases hu.lists_cases hl hfresh hz hq with ⟨hq', -, heq⟩ | ⟨q', hk, heq⟩
      · rw [heq]
        exact hall q hq'
      · rw [heq]
        exact hall q' hk.lists

theorem Partly.present (hl : s.Layout (s.view t)) (hfresh : Fresh c s (s.view t) live options)
    (hu : Partly c s (s.view t) live options (s.view t')) {h : Hash} (hh : h ∈ live)
    (hp : s.Present (s.view t) h) : s.Present (s.view t') h := by
  by_cases hn : s.NamedLoose (s.view t) h
  · obtain ⟨b, hb⟩ := hl.isLoose hn
    have hsame := hu.blobPath_eq hh
    exact .inl (BlobStore.namedLoose_of_isLoose ⟨b, hsame.trans hb⟩)
  · rcases hp with hn' | ⟨p, hp⟩
    · exact absurd hn' hn
    · exact .inr (hu.exists_lists hl hfresh rfl hh hp hn)

/-- Every moment of a sweep is safe. -/
theorem Partly.safe (hz : ZstdSound c) (hl : s.Layout (s.view t))
    (hfresh : Fresh c s (s.view t) live options)
    (hu : Partly c s (s.view t) live options (s.view t')) :
    Safe c s live (s.view t) (s.view t') where
  layout := hu.layout hl
  reads _ hh _ hr := hu.readsBack hz hl hfresh hh hr
  present _ hh hp := hu.present hl hfresh hh hp
  noNew _ hp := hu.noNew hz hl hfresh hp

end Moment

/-! ## Runs -/

/-- Sweeps with one live set, one after another and each cut off somewhere, that never meet a
file with the name of one of their replacements. -/
inductive CutRuns (c : Crates) (s : BlobStore) (live : Finset Hash) (t : Tree) : Tree → Prop
  | start : CutRuns c s live t t
  | cut {t' : Tree} (past : CutRuns c s live t t') (mode : SweepMode)
      (fresh : Fresh c s (s.view t') live ⟨mode, true⟩) (caches : Caches) (n : ℕ) :
      CutRuns c s live t (cutOff n (sweep c s live ⟨mode, true⟩) ⟨t', caches⟩).disk

theorem CutRuns.safe {t t' : Tree} (hz : ZstdSound c) (hl : s.Layout (s.view t))
    (hruns : CutRuns c s live t t') : Safe c s live (s.view t) (s.view t') := by
  induction hruns with
  | start => exact Safe.refl hl
  | @cut t' past mode fresh caches n ih =>
    have hpart := sweep_partly (w := ⟨t', caches⟩) fresh.separate n
    exact ih.trans (hpart.safe hz ih.layout fresh)

/-- Crash and re-run safety: after any number of cut off sweeps, at every moment of the next
one, every live object that was readable at the start is readable with the same bytes, and
where this sweep completes, the store holds exactly the live objects it held at the start. -/
theorem sweep_crash_safe {t t' : Tree} (hz : ZstdSound c) (hl : s.Layout (s.view t))
    (hruns : CutRuns c s live t t') (mode : SweepMode)
    (hfresh : Fresh c s (s.view t') live ⟨mode, true⟩) (caches : Caches) :
    (∀ n, ∀ h ∈ live, ∀ d, s.Reads c t h d →
      s.Reads c (cutOff n (sweep c s live ⟨mode, true⟩) ⟨t', caches⟩).disk h d) ∧
    ∀ report w', mode ≠ .dryRun →
      run (sweep c s live ⟨mode, true⟩) ⟨t', caches⟩ = (.ok report, w') →
        ∀ h, s.Present (s.view w'.disk) h ↔ h ∈ live ∧ s.Present (s.view t) h := by
  have hpast := hruns.safe hz hl
  constructor
  · intro n h hh d hr
    have hnext := hpast.trans
      ((sweep_partly (w := ⟨t', caches⟩) hfresh.separate n).safe hz hpast.layout hfresh)
    rw [BlobStore.reads_iff] at hr ⊢
    exact hnext.reads h hh d hr
  · intro report w' hmode hrun h
    have hdone := (sweep_done (w := ⟨t', caches⟩) hfresh.separate hrun).2 hmode
    have hclash : NoClash c s (s.view t') live ⟨mode, true⟩ := by
      intro r objects packData entries hrep hclash
      have hdiscards := (hrep.discards_iff hfresh.separate).mp hclash
      rcases hdiscards with hd | hd
      · have hsome := isSome_of_discards hpast.layout hd
        rw [hfresh.eq_none hrep.puts.1] at hsome
        cases hsome
      · have hsome := isSome_of_discards hpast.layout hd
        rw [hfresh.eq_none hrep.puts.2] at hsome
        cases hsome
    have hlast := hdone.present_iff (h := h) hfresh.separate hz rfl rfl hpast.layout rfl hclash
    constructor
    · intro hp
      obtain ⟨hh, hp⟩ := hlast.mp hp
      exact ⟨hh, hpast.noNew h hp⟩
    · rintro ⟨hh, hp⟩
      exact hlast.mpr ⟨hh, hpast.present h hh hp⟩

/-- Only `a` is live: `g` is gone after the sweep. -/
theorem sweep_crash_safe_packed :
    ¬ BlobStore.Present (Concrete.store false) ((Concrete.store false).view
      (Concrete.after (sweep Concrete.crates (Concrete.store false)
        {hashBytes Concrete.crates (text "a")} ⟨.delete, true⟩) Concrete.packedDisk))
      (hashBytes Concrete.crates (text "g")) := by
  obtain ⟨report, hrun⟩ := run_eq_ok (sweep Concrete.crates (Concrete.store false)
    {hashBytes Concrete.crates (text "a")} ⟨.delete, true⟩) ⟨Concrete.packedDisk, .empty⟩
    sweep_packedDisk_ok
  have hfresh : Fresh Concrete.crates (Concrete.store false)
      ((Concrete.store false).view Concrete.packedDisk)
      {hashBytes Concrete.crates (text "a")} ⟨.delete, true⟩ :=
    (fun hfacts : _ ∧ _ => fresh_of_plan hfacts.1 hfacts.2) (by decide +kernel)
  have hlast := (sweep_crash_safe Concrete.zstdSound Concrete.tidy_packedDisk.layout .start
    .delete hfresh .empty).2 report _ (by decide) hrun (hashBytes Concrete.crates (text "g"))
  intro hp
  have hlive := (hlast.mp hp).1
  revert hlive
  decide +kernel

/-- The disk where a sweep for `a` alone stopped between the two files of its replacement. -/
def stoppedDisk : Tree :=
  (cutOff 16 (sweep Concrete.crates (Concrete.store false) {hashBytes Concrete.crates (text "a")}
    ⟨.delete, true⟩) ⟨Concrete.packedDisk, .empty⟩).disk

/-- The same sweep runs again on it: the replacement goes with the orphan that had its name, and
the one live object cannot be read any more. -/
theorem sweep_crash_loses :
    (run ((Concrete.store false).getBlob Concrete.crates .inserted
      (hashBytes Concrete.crates (text "a"))) ⟨Concrete.packedDisk, .empty⟩).1 = .ok (text "a") ∧
    (run (sweep Concrete.crates (Concrete.store false) {hashBytes Concrete.crates (text "a")}
      ⟨.delete, true⟩) ⟨stoppedDisk, .empty⟩).1.isOk = true ∧
    (run ((Concrete.store false).getBlob Concrete.crates .inserted
      (hashBytes Concrete.crates (text "a")))
      ⟨Concrete.after (sweep Concrete.crates (Concrete.store false)
        {hashBytes Concrete.crates (text "a")} ⟨.delete, true⟩) stoppedDisk, .empty⟩).1 =
      .error (.blobNotFound (hashBytes Concrete.crates (text "a")).toHex) := by
  decide +kernel

end Gc

end CasKit
