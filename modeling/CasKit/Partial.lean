import CasKit.Canonical
import CasKit.Tidy

/-!
# Partial packs when rewriting is off

The plan does not look at the option. A partial pack whose live objects are covered elsewhere is
planned for removal, and the removals are executed either way.
-/
namespace CasKit
open Effects Files Codec

namespace Gc
variable {c : Crates} {s : BlobStore} {v u : Nodes} {live : Finset Hash} {mode : SweepMode}
  {p q : Path} {w w' : World}

/-- The pack holds a live object and one that is not. -/
structure PartialPack (s : BlobStore) (v : Nodes) (live : Finset Hash) (p : Path) : Prop where
  holdsLive : ∃ h ∈ live, s.Lists v p h
  holdsGarbage : s.HasGarbage v live p

theorem not_rewrites_off {r : PackRewrite} : ¬ Rewrites s v live ⟨mode, false⟩ r :=
  fun hr => nomatch hr.enabled

theorem not_replaces_off {ch : Change} : ¬ Replaces c s v live ⟨mode, false⟩ ch := by
  rintro ⟨r, hr, -⟩
  exact not_rewrites_off hr

/-- With rewriting off nothing is written. -/
theorem separate_off : Separate c s v live ⟨mode, false⟩ where
  apart _ hch := absurd hch not_replaces_off
  functional _ _ _ hb := absurd hb not_replaces_off

theorem removed_off : Removed s v live ⟨mode, false⟩ p ↔
    s.HasGarbage v live p ∧ ∀ h, ¬ s.Kept v live p h := by
  unfold Removed
  simp

/-- The name of a pack does not end as that of an index does. -/
theorem not_orphanIdx_of_isPackName (hp : IsPackName s.packDir p) : ¬ s.OrphanIdx v p := by
  obtain ⟨name, rfl, hutf, hext⟩ := hp
  rintro ⟨name', heq, hidx, -⟩
  obtain rfl := List.singleton_injective (List.append_cancel_left heq)
  rw [fromUtf8Lossy_of_isUtf8 hutf] at hidx
  obtain ⟨stem, hstem⟩ := endsWith_iff.mp hext
  obtain ⟨stem', hstem'⟩ := endsWith_iff.mp hidx
  exact packFile_ne_idxFile stem stem' (hstem.symm.trans hstem')

/-- The files of a pack are discarded if the pack goes, or if another pack that goes has the same
index file, or if that file counts as an orphan. -/
theorem discards_pair_iff {options : SweepOptions} (hp : s.Indexed v p) :
    (Discards s v live options p ∨ Discards s v live options (idxOf p)) ↔
      s.OrphanIdx v (idxOf p) ∨ ∃ q, Removed s v live options q ∧ idxOf q = idxOf p := by
  obtain ⟨name, hname, -⟩ := hp.1.1
  obtain ⟨name', hname'⟩ := idxOf_of_isPackName hp.1.1
  constructor
  · rintro ((⟨h, heq, -⟩ | (horphan | horphan) | ⟨q, hq, heq | heq⟩) |
      (⟨h, heq, -⟩ | (horphan | horphan) | ⟨q, hq, heq | heq⟩))
    · exact absurd (heq.symm.trans hname) (s.blobPath_ne_packFile h name)
    · have hsome := hp.2
      rw [horphan.2] at hsome
      cases hsome
    · exact absurd horphan (not_orphanIdx_of_isPackName hp.1.1)
    · exact .inr ⟨q, hq, by rw [heq]⟩
    · exact absurd heq.symm (idxOf_ne_of_isPackName hq.1.indexed.1.1 hp.1.1)
    · exact absurd (heq.symm.trans hname') (s.blobPath_ne_packFile h name')
    · exact absurd rfl (idxOf_ne_of_isPackName hp.1.1 horphan.1.1)
    · exact .inl horphan
    · exact absurd heq (idxOf_ne_of_isPackName hp.1.1 hq.1.indexed.1.1)
    · exact .inr ⟨q, hq, heq.symm⟩
  · rintro (horphan | ⟨q, hq, heq⟩)
    · exact .inr (.inr (.inl (.inr horphan)))
    · exact .inr (.inr (.inr ⟨q, hq, .inr heq.symm⟩))

/-- With rewriting off, a sweep that returns leaves both files of a partial pack as they are if
and only if the pack keeps some object that is covered neither by a loose file, nor by a pack
without garbage, nor by a partial pack before it, and its index file does not count as an orphan
and is not that of another pack that goes. -/
theorem partial_pack_stays {report : SweepReport} (hmode : mode ≠ .dryRun)
    (hp : PartialPack s (s.view w.disk) live p)
    (hrun : run (sweep c s live ⟨mode, false⟩) w = (.ok report, w')) :
    (w'.disk.node p = w.disk.node p ∧ w'.disk.node (idxOf p) = w.disk.node (idxOf p)) ↔
      (∃ h, s.Kept (s.view w.disk) live p h) ∧ ¬ s.OrphanIdx (s.view w.disk) (idxOf p) ∧
        ∀ q, s.HasGarbage (s.view w.disk) live q → (∀ h, ¬ s.Kept (s.view w.disk) live q h) →
          idxOf q ≠ idxOf p := by
  have hindexed := hp.holdsGarbage.indexed
  have hdone := (sweep_done (c := c) separate_off hrun).2 hmode
  have hview : ∀ t, s.view t p = t.node p ∧ s.view t (idxOf p) = t.node (idxOf p) :=
    fun t => ⟨s.view_packName hindexed.1.1, s.view_idxOf hindexed.1.1⟩
  -- both files stay as they are unless one of them is discarded
  have hstays : (w'.disk.node p = w.disk.node p ∧
      w'.disk.node (idxOf p) = w.disk.node (idxOf p)) ↔
      ¬ (Discards s (s.view w.disk) live ⟨mode, false⟩ p ∨
        Discards s (s.view w.disk) live ⟨mode, false⟩ (idxOf p)) := by
    rw [← (hview w'.disk).1, ← (hview w'.disk).2, ← (hview w.disk).1, ← (hview w.disk).2]
    constructor
    · rintro ⟨hpack, hidx⟩ (hgone | hgone)
      · have hsome := hindexed.1.2
        rw [← hpack, hdone.gone _ hgone] at hsome
        cases hsome
      · have hsome := hindexed.2
        rw [← hidx, hdone.gone _ hgone] at hsome
        cases hsome
    · intro hnot
      push Not at hnot
      exact ⟨hdone.same _ hnot.1 fun _ => not_replaces_off,
        hdone.same _ hnot.2 fun _ => not_replaces_off⟩
  rw [hstays, discards_pair_iff hindexed]
  simp only [removed_off]
  constructor
  · intro hnot
    push Not at hnot
    refine ⟨?_, hnot.1, fun q hgarbage hkept => hnot.2 q ⟨hgarbage, hkept⟩⟩
    by_contra hnone
    push Not at hnone
    exact hnot.2 p ⟨hp.holdsGarbage, hnone⟩ rfl
  · rintro ⟨-, horphan, hothers⟩ (h | ⟨q, ⟨hgarbage, hkept⟩, heq⟩)
    · exact horphan h
    · exact hothers q hgarbage hkept heq

/-- The only pack of a store. -/
def onlyPack (t : Tree) : Path := ((Concrete.store false).packsOn t).headD []

theorem partialPack_packedDisk : PartialPack (Concrete.store false)
    ((Concrete.store false).view Concrete.packedDisk) {hashBytes Concrete.crates (text "a")}
    (onlyPack Concrete.packedDisk) := by
  refine (fun hfacts : _ ∧ _ ∧ _ ∧ _ ∧ _ => ⟨⟨hashBytes Concrete.crates (text "a"),
      Finset.mem_singleton_self _, BlobStore.lists_of_packsOn hfacts.1 hfacts.2.1 hfacts.2.2.1⟩,
    hashBytes Concrete.crates (text "g"), hfacts.2.2.2.1,
      BlobStore.lists_of_packsOn hfacts.1 hfacts.2.1 hfacts.2.2.2.2⟩) ?_
  decide +kernel

/-- A pack of `a` and `g` where only `a` is live: it stays, so it keeps an object. -/
theorem partial_pack_stays_packed : ∃ h, (Concrete.store false).Kept
    ((Concrete.store false).view Concrete.packedDisk) {hashBytes Concrete.crates (text "a")}
    (onlyPack Concrete.packedDisk) h := by
  have hstays := fun hok => @partial_pack_stays Concrete.crates (Concrete.store false) _ .delete
    _ ⟨Concrete.packedDisk, .empty⟩ _ _ (by decide) partialPack_packedDisk
    (run_eq_ok (sweep Concrete.crates (Concrete.store false)
      {hashBytes Concrete.crates (text "a")} ⟨.delete, false⟩) _ hok).choose_spec
  refine (fun hfacts : _ ∧ _ ∧ _ => ((hstays hfacts.1).mp hfacts.2).1) ?_
  decide +kernel

/-- The same store with a loose copy of `a` besides. -/
def coveredDisk : Tree :=
  Concrete.after (BlobStore.PutCall.action Concrete.crates (Concrete.store false)
    (.putBlob (text "a"))) Concrete.packedDisk

/-- The pack holds the live `a` and the garbage `g`, rewriting is off, and the pack is removed. -/
theorem partial_pack_removed : PartialPack (Concrete.store false)
      ((Concrete.store false).view coveredDisk) {hashBytes Concrete.crates (text "a")}
      (onlyPack coveredDisk) ∧
    (run (sweep Concrete.crates (Concrete.store false) {hashBytes Concrete.crates (text "a")}
      ⟨.delete, false⟩) ⟨coveredDisk, .empty⟩).1.isOk = true ∧
    (run (sweep Concrete.crates (Concrete.store false) {hashBytes Concrete.crates (text "a")}
      ⟨.delete, false⟩) ⟨coveredDisk, .empty⟩).2.disk.node (onlyPack coveredDisk) = none := by
  refine (fun hfacts : (_ ∧ _ ∧ _ ∧ _ ∧ _) ∧ _ ∧ _ =>
    ⟨⟨⟨hashBytes Concrete.crates (text "a"), Finset.mem_singleton_self _,
        BlobStore.lists_of_packsOn hfacts.1.1 hfacts.1.2.1 hfacts.1.2.2.1⟩,
      hashBytes Concrete.crates (text "g"), hfacts.1.2.2.2.1,
        BlobStore.lists_of_packsOn hfacts.1.1 hfacts.1.2.1 hfacts.1.2.2.2.2⟩,
      hfacts.2.1, hfacts.2.2⟩) ?_
  decide +kernel

end Gc

end CasKit
