import CasKit.Inventory
import CasKit.Tidy

/-!
# The coverage rule as a partition

Each readable pack with garbage is either removed or rewritten, once. What the rewrites keep is
cut into disjoint lists, one for each rewritten pack, and together they are the live objects in
readable packs that survive nowhere else.
-/
namespace CasKit
open Effects Files Codec

namespace BlobStore
variable {s : BlobStore} {v : Nodes} {live : Finset Hash} {p q : Path} {h : Hash}

variable (s v live) in
/-- What the loop starts from: the live loose objects, and the objects of the readable packs
without garbage. -/
def cover : Set Hash :=
  {h | h ∈ live ∧ s.NamedLoose v h} ∪ {h | ∃ p, s.Lists v p h ∧ ¬ s.HasGarbage v live p}

/-- The objects of a pack without garbage are live. -/
theorem mem_cover : h ∈ s.cover v live ↔ s.Covered v live h := by
  constructor
  · rintro (⟨hlive, hn⟩ | ⟨p, hlists, hhealthy⟩)
    · exact ⟨hlive, .inl hn⟩
    · have hlive : h ∈ live := by
        by_contra hdead
        exact hhealthy ⟨h, hdead, hlists⟩
      exact ⟨hlive, .inr ⟨p, hlists, hhealthy⟩⟩
  · rintro ⟨hlive, hn | hp⟩
    · exact .inl ⟨hlive, hn⟩
    · exact .inr hp

/-- A hash is kept in one pack only. -/
theorem Kept.path_unique (hp : s.Kept v live p h) (hq : s.Kept v live q h) : p = q := by
  rcases lt_trichotomy p q with hlt | heq | hgt
  · exact absurd hp.lists (hq.first p hlt hp.garbage)
  · exact heq
  · exact absurd hq.lists (hp.first q hgt hq.garbage)

/-- A live hash that nothing covers is kept in the first of finitely many packs that has it. -/
theorem exists_kept (K : Finset Path) (hK : ∀ q, s.HasGarbage v live q → q ∈ K)
    (hgarbage : s.HasGarbage v live p) (hlists : s.Lists v p h) (hlive : h ∈ live)
    (huncovered : ¬ s.Covered v live h) : ∃ q ≤ p, s.Kept v live q h := by
  classical
  have hne : (K.filter fun q => s.HasGarbage v live q ∧ s.Lists v q h).Nonempty :=
    ⟨p, Finset.mem_filter.mpr ⟨hK p hgarbage, hgarbage, hlists⟩⟩
  obtain ⟨q, hq, hmin⟩ := Finset.exists_min_image _ id hne
  obtain ⟨-, hqg, hql⟩ := Finset.mem_filter.mp hq
  refine ⟨q, hmin p (Finset.mem_filter.mpr ⟨hK p hgarbage, hgarbage, hlists⟩), ?_⟩
  refine ⟨hqg, hql, hlive, huncovered, fun q' hlt hg hl => ?_⟩
  exact absurd (hmin q' (Finset.mem_filter.mpr ⟨hK q' hg, hg, hl⟩)) (not_le.mpr hlt)

end BlobStore

namespace Gc

/-- The coverage rule as a partition of the live packed objects. -/
structure Partitions (s : BlobStore) (v : Nodes) (live : Finset Hash) (plan : SweepPlan) :
    Prop where
  once : (plan.packsToRemove ++ plan.packsToRewrite.map PackRewrite.pack).Nodup
  decided : ∀ p, p ∈ plan.packsToRemove ++ plan.packsToRewrite.map PackRewrite.pack ↔
    s.HasGarbage v live p
  keep_ne_nil : ∀ r ∈ plan.packsToRewrite, r.keep ≠ []
  keep_sorted : ∀ r ∈ plan.packsToRewrite, r.keep.Pairwise (· < ·)
  keep_disjoint : plan.packsToRewrite.Pairwise fun r r' => ∀ h ∈ r.keep, h ∉ r'.keep
  keep_uncovered : ∀ r ∈ plan.packsToRewrite, ∀ h ∈ r.keep, h ∉ s.cover v live
  keep_own : ∀ r ∈ plan.packsToRewrite, ∀ h ∈ r.keep, h ∈ live ∧ s.Lists v r.pack h
  keep_union : ∀ h, (∃ r ∈ plan.packsToRewrite, h ∈ r.keep) ↔
    h ∈ live ∧ (∃ p, s.Lists v p h) ∧ h ∉ s.cover v live
  remove_iff : ∀ p, s.HasGarbage v live p → (p ∈ plan.packsToRemove ↔
    ∀ h ∈ live, s.Lists v p h →
      h ∈ s.cover v live ∨ ∃ r ∈ plan.packsToRewrite, r.pack < p ∧ h ∈ r.keep)
  counts : plan.live + plan.garbage = plan.scanned

section Once
variable {garbageSet covered : Finset Hash} {looseSet : List Hash} {before packs : List PackState}

theorem decided_sublist :
    ((decided garbageSet covered before packs).map Prod.fst).Sublist packs := by
  induction packs generalizing before with
  | nil => exact List.Sublist.refl _
  | cons p rest ih =>
    rw [decided]
    split_ifs
    · exact ih.cons p
    · exact ih.cons_cons p

/-- The loop puts each pack that it decides about into one of its two lists. -/
theorem perm_decided :
    ((coverage looseSet garbageSet packs).packsToRemove ++
      (coverage looseSet garbageSet packs).packsToRewrite.map PackRewrite.pack).Perm
    (((decided garbageSet (initialCover looseSet garbageSet packs) [] packs).map Prod.fst).map
      PackState.packPath) := by
  obtain ⟨hremove, hrewrite⟩ := foldl_coverPack packs (@coversUpTo_start looseSet garbageSet packs
    [] [] 0 0)
  rw [coverage, hremove, hrewrite, List.nil_append, List.nil_append]
  have hsplit := (List.filter_append_perm
    (fun d => decide (d.2 = [])) (decided garbageSet (initialCover looseSet garbageSet packs) []
      packs)).map fun d => d.1.packPath
  simp only [List.map_append, List.map_map, ne_eq, decide_not, Function.comp_def] at hsplit ⊢
  exact hsplit

end Once

variable {s : BlobStore} {t : Tree} {live : Finset Hash} {plan : SweepPlan}

theorem once_of_planSweep (hplan : peek (planSweep s live) t = .ok plan) :
    (plan.packsToRemove ++ plan.packsToRewrite.map PackRewrite.pack).Nodup := by
  obtain ⟨loose, ps, orphans, bytes, -, hps, -, rfl⟩ := planOf_of_planSweep hplan
  have hpaths : ((packStates t.node live ps).map PackState.packPath).Nodup := by
    rw [List.Nodup, List.pairwise_map]
    exact (sorted_packStates live hps).imp fun hlt => ne_of_lt hlt
  exact perm_decided.nodup_iff.mpr ((decided_sublist.map _).nodup hpaths)

theorem counts_of_planSweep (hplan : peek (planSweep s live) t = .ok plan) :
    plan.live + plan.garbage = plan.scanned := by
  obtain ⟨loose, ps, orphans, bytes, -, -, -, rfl⟩ := planOf_of_planSweep hplan
  have hsum := Finset.card_filter_add_card_filter_not
    (s := scannedSet (toBTreeSet loose) (packStates t.node live ps)) (fun h => h ∈ live)
  exact hsum

/-- A plan cuts the live packed objects that survive nowhere else into the lists that its rewrites
keep. -/
theorem coverage_partitions {w w' : World} (hrun : run (planSweep s live) w = (.ok plan, w')) :
    Partitions s (s.view w.disk) live plan := by
  have hplan : peek (planSweep s live) w.disk = .ok plan := by
    rw [run_of_reads planSweep_reads] at hrun
    exact (Prod.mk.inj hrun).1
  have hp := planned hplan
  have honce := once_of_planSweep hplan
  have hkept : ∀ p h, s.Kept (s.view w.disk) live p h ↔
      ∃ r ∈ plan.packsToRewrite, r.pack = p ∧ h ∈ r.keep := by
    intro p h
    constructor
    · intro hk
      obtain ⟨r, hr, rfl⟩ := hp.packsToRewrite p h hk
      exact ⟨r, hr, rfl, (hp.keep r hr h).mpr hk⟩
    · rintro ⟨r, hr, rfl, hh⟩
      exact (hp.keep r hr h).mp hh
  have hdecided : ∀ p, p ∈ plan.packsToRemove ++ plan.packsToRewrite.map PackRewrite.pack ↔
      s.HasGarbage (s.view w.disk) live p := by
    intro p
    rw [List.mem_append, hp.packsToRemove, List.mem_map]
    constructor
    · rintro (⟨hg, -⟩ | ⟨r, hr, rfl⟩)
      · exact hg
      · obtain ⟨h, hh⟩ := List.exists_mem_of_ne_nil _ (hp.keep_ne_nil r hr)
        exact ((hp.keep r hr h).mp hh).garbage
    · intro hg
      by_cases hnone : ∀ h, ¬ s.Kept (s.view w.disk) live p h
      · exact .inl ⟨hg, hnone⟩
      · obtain ⟨h, hk⟩ := not_forall_not.mp hnone
        obtain ⟨r, hr, hpath, -⟩ := (hkept p h).mp hk
        exact .inr ⟨r, hr, hpath⟩
  have hfirst : ∀ p h, s.HasGarbage (s.view w.disk) live p → s.Lists (s.view w.disk) p h →
      h ∈ live → h ∉ s.cover (s.view w.disk) live →
      ∃ r ∈ plan.packsToRewrite, r.pack ≤ p ∧ h ∈ r.keep := by
    intro p h hg hlists hlive hcov
    obtain ⟨q, hle, hk⟩ := BlobStore.exists_kept
      (plan.packsToRemove ++ plan.packsToRewrite.map PackRewrite.pack).toFinset
      (fun q hq => List.mem_toFinset.mpr ((hdecided q).mpr hq)) hg hlists hlive
      (fun hc => hcov (BlobStore.mem_cover.mpr hc))
    obtain ⟨r, hr, rfl, hh⟩ := (hkept q h).mp hk
    exact ⟨r, hr, hle, hh⟩
  refine ⟨honce, hdecided, hp.keep_ne_nil, hp.keep_sorted, ?_, ?_, ?_, fun h => ⟨?_, ?_⟩, ?_,
    counts_of_planSweep hplan⟩
  · -- two rewrites that keep one hash would be rewrites of one pack
    have hpaths : plan.packsToRewrite.Pairwise fun r r' => r.pack ≠ r'.pack :=
      List.pairwise_map.mp (List.nodup_append.mp honce).2.1
    refine hpaths.imp_of_mem fun {r r'} hr hr' hne h hh hh' => hne ?_
    exact ((hp.keep r hr h).mp hh).path_unique ((hp.keep r' hr' h).mp hh')
  · intro r hr h hh
    rw [BlobStore.mem_cover]
    exact ((hp.keep r hr h).mp hh).uncovered
  · intro r hr h hh
    have hk := (hp.keep r hr h).mp hh
    exact ⟨hk.mem, hk.lists⟩
  · rintro ⟨r, hr, hh⟩
    have hk := (hp.keep r hr h).mp hh
    exact ⟨hk.mem, ⟨r.pack, hk.lists⟩, fun hc => hk.uncovered (BlobStore.mem_cover.mp hc)⟩
  · rintro ⟨hlive, ⟨p, hlists⟩, hcov⟩
    have hg : s.HasGarbage (s.view w.disk) live p := by
      by_contra hhealthy
      exact hcov (.inr ⟨p, hlists, hhealthy⟩)
    obtain ⟨r, hr, -, hh⟩ := hfirst p h hg hlists hlive hcov
    exact ⟨r, hr, hh⟩
  · intro p hg
    rw [hp.packsToRemove]
    constructor
    · rintro ⟨-, hnone⟩ h hlive hlists
      by_cases hcov : h ∈ s.cover (s.view w.disk) live
      · exact .inl hcov
      · obtain ⟨r, hr, hle, hh⟩ := hfirst p h hg hlists hlive hcov
        have hne : r.pack ≠ p := fun heq => hnone h ((hkept p h).mpr ⟨r, hr, heq, hh⟩)
        exact .inr ⟨r, hr, lt_of_le_of_ne hle hne, hh⟩
    · intro hall
      refine ⟨hg, fun h hk => ?_⟩
      rcases hall h hk.mem hk.lists with hcov | ⟨r, hr, hlt, hh⟩
      · exact hk.uncovered (BlobStore.mem_cover.mp hcov)
      · have hk' := (hp.keep r hr h).mp hh
        exact hk.first r.pack hlt hk'.garbage hk'.lists

/-- A pack of `a` and `g` of which only `a` is live. -/
theorem coverage_partitions_rewrite : ∃ plan w',
    run (planSweep (Concrete.store false) {hashBytes Concrete.crates (text "a")})
      ⟨Concrete.packedDisk, .empty⟩ = (.ok plan, w') ∧
    plan.packsToRewrite.map PackRewrite.keep = [[hashBytes Concrete.crates (text "a")]] ∧
    Partitions (Concrete.store false) ((Concrete.store false).view Concrete.packedDisk)
      {hashBytes Concrete.crates (text "a")} plan := by
  have hkeeps : (run (planSweep (Concrete.store false) {hashBytes Concrete.crates (text "a")})
      ⟨Concrete.packedDisk, .empty⟩).1.map (fun plan => plan.packsToRewrite.map PackRewrite.keep) =
      .ok [[hashBytes Concrete.crates (text "a")]] := by
    decide +kernel
  cases hplan : (run (planSweep (Concrete.store false) {hashBytes Concrete.crates (text "a")})
      ⟨Concrete.packedDisk, .empty⟩).1 with
  | error e =>
    rw [hplan] at hkeeps
    cases hkeeps
  | ok plan =>
    rw [hplan] at hkeeps
    have hrun : run (planSweep (Concrete.store false) {hashBytes Concrete.crates (text "a")})
        ⟨Concrete.packedDisk, .empty⟩ = (.ok plan, _) := Prod.ext hplan rfl
    exact ⟨plan, _, hrun, Except.ok.inj hkeeps,
      coverage_partitions (w := ⟨Concrete.packedDisk, .empty⟩) hrun⟩

end Gc

end CasKit
