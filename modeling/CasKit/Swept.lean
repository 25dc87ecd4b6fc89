import CasKit.Layout
import CasKit.Sweeping

/-!
# What a sweep does to a store

The abstract side of a sweep, stated over views and without its plan: which packs are
rewritten, which files that writes, which files are discarded. At every moment of a sweep each
path is as it was, or discarded, or a replacement, and nothing is discarded before every
replacement is written.
-/
namespace CasKit
open Effects Files Codec

namespace Gc

section Notions
variable (c : Crates) (s : BlobStore) (v : Nodes) (live : Finset Hash) (options : SweepOptions)

/-- The pack goes: it has garbage, and it is rewritten or nothing of it has to be kept. -/
def Removed (p : Path) : Prop :=
  s.HasGarbage v live p ∧ (options.rewritePartialPacks = true ∨ ∀ h, ¬ s.Kept v live p h)

/-- A pack that is rewritten, with the hashes it has to keep. -/
structure Rewrites (r : PackRewrite) : Prop where
  enabled : options.rewritePartialPacks = true
  keep : ∀ h, h ∈ r.keep ↔ s.Kept v live r.pack h
  ne_nil : r.keep ≠ []
  sorted : r.keep.Pairwise (· < ·)

/-- A file that a rewrite writes. -/
def Replaces (ch : Change) : Prop := ∃ r, Rewrites s v live options r ∧ ch ∈ rewriteChanges c s v r

/-- A file that is not to stay. -/
def Discards (q : Path) : Prop :=
  (∃ h, q = s.blobPath h ∧ s.NamedLoose v h ∧ h ∉ live) ∨ (s.OrphanPack v q ∨ s.OrphanIdx v q) ∨
    ∃ p, Removed s v live options p ∧ (q = p ∨ q = idxOf p)

/-- Every rewrite can be carried out. -/
def Rewritable : Prop := ∀ r, Rewrites s v live options r → (replacement c v r).isSome

/-- Files of one name that rewrites write have one content. -/
def Functional : Prop :=
  ∀ q b b', Replaces c s v live options (.put q b) → Replaces c s v live options (.put q b') → b = b'

/-- No replacement has the name of a pack with an index, or of its index. -/
structure Separate : Prop where
  apart : ∀ ch, Replaces c s v live options ch → ∀ p, s.Indexed v p →
    ch.path ≠ p ∧ ch.path ≠ idxOf p
  functional : Functional c s v live options

/-- No file has the name of a replacement. -/
structure Fresh : Prop where
  absent : ∀ ch, Replaces c s v live options ch → v ch.path = none
  functional : Functional c s v live options

/-- The store at some moment of a sweep. -/
structure Partly (u : Nodes) : Prop where
  node : ∀ q, u q = v q ∨ (u q = none ∧ Discards s v live options q) ∨
    ∃ b, Replaces c s v live options (.put q b) ∧ u q = some (.file b)
  complete : ∀ q, u q = none → (v q).isSome → Rewritable c s v live options ∧
    ∀ q b, Replaces c s v live options (.put q b) → ¬ Discards s v live options q →
      u q = some (.file b)

/-- The store after a sweep. -/
structure Done (u : Nodes) : Prop where
  rewritable : Rewritable c s v live options
  gone : ∀ q, Discards s v live options q → u q = none
  written : ∀ q b, Replaces c s v live options (.put q b) → ¬ Discards s v live options q →
    u q = some (.file b)
  same : ∀ q, ¬ Discards s v live options q → (∀ b, ¬ Replaces c s v live options (.put q b)) →
    u q = v q

end Notions

section Plan
variable {c : Crates} {s : BlobStore} {v u : Nodes} {live : Finset Hash} {options : SweepOptions}
  {plan : SweepPlan} {r : PackRewrite} {ch : Change} {q : Path}

theorem Rewrites.ext {r' : PackRewrite} (hr : Rewrites s v live options r)
    (hr' : Rewrites s v live options r') (hpack : r.pack = r'.pack) : r = r' := by
  have hkeep : r.keep = r'.keep := by
    refine List.Perm.eq_of_pairwise' (r := (· < ·)) hr.sorted hr'.sorted ?_
    refine (List.perm_ext_iff_of_nodup ?_ ?_).mpr fun h => ?_
    · exact hr.sorted.imp fun hlt => hlt.ne
    · exact hr'.sorted.imp fun hlt => hlt.ne
    · rw [hr.keep, hr'.keep, hpack]
  cases r
  cases r'
  simp only at hpack hkeep
  rw [hpack, hkeep]

/-- The planned rewrites are the rewrites of the store. -/
theorem Planned.mem_rewrites (hplan : Planned s v live plan) :
    r ∈ rewrites plan options ↔ Rewrites s v live options r := by
  unfold rewrites
  constructor
  · intro hr
    split_ifs at hr with hopt
    · exact ⟨hopt, hplan.keep r hr, hplan.keep_ne_nil r hr, hplan.keep_sorted r hr⟩
    · cases hr
  · intro hr
    rw [if_pos hr.enabled]
    obtain ⟨h, hh⟩ := List.exists_mem_of_ne_nil _ hr.ne_nil
    obtain ⟨r', hr', hpack⟩ := hplan.packsToRewrite r.pack h ((hr.keep h).mp hh)
    have hrewrites : Rewrites s v live options r' :=
      ⟨hr.enabled, hplan.keep r' hr', hplan.keep_ne_nil r' hr', hplan.keep_sorted r' hr'⟩
    rw [hr.ext hrewrites hpack.symm]
    exact hr'

theorem Planned.mem_sweepPuts (hplan : Planned s v live plan) :
    ch ∈ sweepPuts c s v plan options ↔ Replaces c s v live options ch := by
  simp only [sweepPuts, List.mem_flatMap, hplan.mem_rewrites, Replaces]

theorem Planned.mem_removals (hplan : Planned s v live plan) {p : Path} :
    p ∈ removals plan options ↔ Removed s v live options p := by
  unfold removals Removed
  rw [List.mem_append, hplan.packsToRemove]
  constructor
  · rintro (⟨hg, hnone⟩ | hp)
    · exact ⟨hg, .inr hnone⟩
    · split_ifs at hp with hopt
      · obtain ⟨r, hr, rfl⟩ := List.mem_map.mp hp
        obtain ⟨h, hh⟩ := List.exists_mem_of_ne_nil _ (hplan.keep_ne_nil r hr)
        exact ⟨((hplan.keep r hr h).mp hh).garbage, .inl hopt⟩
      · cases hp
  · rintro ⟨hg, hopt | hnone⟩
    · by_cases hk : ∃ h, s.Kept v live p h
      · obtain ⟨h, hk⟩ := hk
        obtain ⟨r, hr, rfl⟩ := hplan.packsToRewrite p h hk
        right
        rw [if_pos hopt]
        exact List.mem_map.mpr ⟨r, hr, rfl⟩
      · push Not at hk
        exact .inl ⟨hg, hk⟩
    · exact .inl ⟨hg, hnone⟩

theorem Planned.mem_sweepDrops (hplan : Planned s v live plan) :
    q ∈ sweepDrops s plan options ↔ Discards s v live options q := by
  have hloose : q ∈ plan.looseGarbage.map s.blobPath ↔
      ∃ h, q = s.blobPath h ∧ s.NamedLoose v h ∧ h ∉ live := by
    simp only [List.mem_map, hplan.looseGarbage]
    constructor
    · rintro ⟨h, hh, rfl⟩
      exact ⟨h, rfl, hh⟩
    · rintro ⟨h, rfl, hh⟩
      exact ⟨h, hh, rfl⟩
  have hpacks : q ∈ (removals plan options).flatMap (fun p => [idxOf p, p]) ↔
      ∃ p, Removed s v live options p ∧ (q = p ∨ q = idxOf p) := by
    simp only [List.mem_flatMap, hplan.mem_removals, List.mem_cons, List.not_mem_nil, or_false]
    constructor
    · rintro ⟨p, hp, hq⟩
      exact ⟨p, hp, hq.symm⟩
    · rintro ⟨p, hp, hq⟩
      exact ⟨p, hp, hq.symm⟩
  rw [sweepDrops, List.mem_append, List.mem_append, hloose, hpacks, hplan.orphanFiles, or_assoc]
  rfl

theorem Planned.allRewritable_iff (hplan : Planned s v live plan) :
    AllRewritable c v plan options ↔ Rewritable c s v live options := by
  simp only [AllRewritable, Rewritable, hplan.mem_rewrites]

theorem Separate.toApart (hsep : Separate c s v live options) (hplan : Planned s v live plan) :
    Apart c s v (rewrites plan options) := by
  intro r hr ch hch r' hr'
  have hr := hplan.mem_rewrites.mp hr
  have hr' := hplan.mem_rewrites.mp hr'
  obtain ⟨h, hh⟩ := List.exists_mem_of_ne_nil _ hr'.ne_nil
  exact hsep.apart ch ⟨r, hr, hch⟩ r'.pack ((hr'.keep h).mp hh).garbage.indexed

theorem Fresh.separate (hfresh : Fresh c s v live options) : Separate c s v live options := by
  refine ⟨fun ch hch p hp => ?_, hfresh.functional⟩
  have habsent := hfresh.absent ch hch
  constructor
  · rintro rfl
    have hsome := hp.1.2
    rw [habsent] at hsome
    cases hsome
  · intro heq
    have hsome := hp.2
    rw [← heq, habsent] at hsome
    cases hsome

end Plan

section Moments
variable {c : Crates} {s : BlobStore} {v u : Nodes} {live : Finset Hash} {options : SweepOptions}
  {plan : SweepPlan} {w : World}

/-- A path after some files were put. -/
theorem changed_puts {ws : List Change} (hws : ∀ ch ∈ ws, ∃ q b, ch = .put q b) (q : Path) :
    changed ws v q = v q ∧ (∀ b, .put q b ∉ ws) ∨
      ∃ b, .put q b ∈ ws ∧ changed ws v q = some (.file b) := by
  induction ws generalizing v with
  | nil => exact .inl ⟨rfl, fun b hb => by cases hb⟩
  | cons ch ws ih =>
    obtain ⟨q', b', rfl⟩ := hws ch List.mem_cons_self
    have hrest := ih (v := (Change.put q' b').apply v) fun ch hch =>
      hws ch (List.mem_cons_of_mem _ hch)
    have hstep : changed (.put q' b' :: ws) v = changed ws ((Change.put q' b').apply v) := rfl
    rw [hstep]
    rcases hrest with ⟨hsame, hnone⟩ | ⟨b, hb, hput⟩
    · by_cases hq : q = q'
      · subst hq
        refine .inr ⟨b', List.mem_cons_self, ?_⟩
        rw [hsame]
        simp [Change.apply]
      · refine .inl ⟨by rw [hsame]; simp [Change.apply, hq], fun b hb => ?_⟩
        rcases List.mem_cons.mp hb with heq | hb
        · exact hq (Change.put.inj heq).1
        · exact hnone b hb
    · exact .inr ⟨b, List.mem_cons_of_mem _ hb, hput⟩

theorem replaces_put {ch : Change} (hch : Replaces c s v live options ch) :
    ∃ q b, ch = .put q b := by
  obtain ⟨r, -, hch⟩ := hch
  obtain ⟨objects, packData, entries, -, -, rfl | rfl⟩ := mem_rewriteChanges hch
  · exact ⟨_, _, rfl⟩
  · exact ⟨_, _, rfl⟩

/-- Whether a store is fresh can be read off the plan. -/
theorem fresh_of_plan {t : Tree} (hok : (peek (planSweep s live) t).toOption.isSome = true)
    (hputs : ∀ plan ∈ (peek (planSweep s live) t).toOption,
      ∀ ch ∈ sweepPuts c s (s.view t) plan options, s.view t ch.path = none ∧
        ∀ ch' ∈ sweepPuts c s (s.view t) plan options, ch.path = ch'.path → ch = ch') :
    Fresh c s (s.view t) live options := by
  cases hplan : peek (planSweep s live) t with
  | error e =>
    rw [hplan] at hok
    cases hok
  | ok plan =>
    have hplanned := planned hplan
    have hmem := hputs plan (by rw [hplan]; rfl)
    constructor
    · intro ch hch
      exact (hmem ch (hplanned.mem_sweepPuts.mpr hch)).1
    · intro q b b' hb hb'
      have hsame := (hmem _ (hplanned.mem_sweepPuts.mpr hb)).2 _
        (hplanned.mem_sweepPuts.mpr hb') rfl
      exact (Change.put.inj hsame).2

/-- The first changes of a sweep: some replacements, or all of them and some discarded files. -/
theorem take_sweepChanges (options : SweepOptions) (hplan : Planned s v live plan) (k : ℕ) :
    ∃ ws ds, changed ((sweepChanges c s v plan options).take k) v =
        (fun q => if q ∈ ds then none else changed ws v q) ∧
      (∀ ch ∈ ws, Replaces c s v live options ch) ∧ (∀ q ∈ ds, Discards s v live options q) ∧
      (ds ≠ [] → Rewritable c s v live options ∧ ∀ ch, Replaces c s v live options ch → ch ∈ ws) := by
  have hputs : ∀ j, ∀ ch ∈ (sweepPuts c s v plan options).take j, Replaces c s v live options ch :=
    fun j ch hch => hplan.mem_sweepPuts.mp (List.mem_of_mem_take hch)
  have hnodrops : ∀ j, ∃ ws ds, changed ((sweepPuts c s v plan options).take j) v =
        (fun q => if q ∈ ds then none else changed ws v q) ∧
      (∀ ch ∈ ws, Replaces c s v live options ch) ∧ (∀ q ∈ ds, Discards s v live options q) ∧
      (ds ≠ [] → Rewritable c s v live options ∧
        ∀ ch, Replaces c s v live options ch → ch ∈ ws) := by
    intro j
    refine ⟨(sweepPuts c s v plan options).take j, [], ?_, hputs j, fun q hq => (by cases hq),
      fun hne => absurd rfl hne⟩
    funext q
    simp
  unfold sweepChanges
  by_cases hall : AllRewritable c v plan options
  · rw [if_pos hall, List.take_append]
    by_cases hk : k ≤ (sweepPuts c s v plan options).length
    · rw [Nat.sub_eq_zero_of_le hk, List.take_zero, List.append_nil]
      exact hnodrops k
    · refine ⟨sweepPuts c s v plan options,
        (sweepDrops s plan options).take (k - (sweepPuts c s v plan options).length), ?_, ?_, ?_, ?_⟩
      · rw [List.take_of_length_le (by omega), ← List.map_take, changed, Prog.after_append]
        funext q
        exact changed_drops
      · exact fun ch hch => hplan.mem_sweepPuts.mp hch
      · exact fun q hq => hplan.mem_sweepDrops.mp (List.mem_of_mem_take hq)
      · exact fun _ => ⟨hplan.allRewritable_iff.mp hall, fun ch hch => hplan.mem_sweepPuts.mpr hch⟩
  · rw [if_neg hall, List.append_nil]
    exact hnodrops k

theorem partly_refl : Partly c s v live options v := by
  refine ⟨fun q => .inl rfl, fun q hnone hsome => ?_⟩
  rw [hnone] at hsome
  cases hsome

theorem partly_take (hplan : Planned s v live plan) (hfun : Functional c s v live options) (k : ℕ) :
    Partly c s v live options (changed ((sweepChanges c s v plan options).take k) v) := by
  obtain ⟨ws, ds, hview, hws, hds, hfull⟩ := take_sweepChanges (c := c) options hplan k
  rw [hview]
  have hputs := @changed_puts v ws fun ch hch => replaces_put (hws ch hch)
  refine ⟨fun q => ?_, fun q hnone hsome => ?_⟩
  · by_cases hq : q ∈ ds
    · exact .inr (.inl ⟨if_pos hq, hds q hq⟩)
    · simp only [if_neg hq]
      rcases hputs q with ⟨hsame, -⟩ | ⟨b, hb, hput⟩
      · exact .inl hsame
      · exact .inr (.inr ⟨b, hws _ hb, hput⟩)
  · have hq : q ∈ ds := by
      by_contra hq
      simp only [if_neg hq] at hnone
      rcases hputs q with ⟨hsame, -⟩ | ⟨b, -, hput⟩
      · rw [hsame] at hnone
        rw [hnone] at hsome
        cases hsome
      · rw [hput] at hnone
        cases hnone
    obtain ⟨hall, hmem⟩ := hfull (List.ne_nil_of_mem hq)
    refine ⟨hall, fun q' b hrep hkeep => ?_⟩
    have hq' : q' ∉ ds := fun h => hkeep (hds q' h)
    simp only [if_neg hq']
    rcases hputs q' with ⟨-, hnot⟩ | ⟨b', hb', hput⟩
    · exact absurd (hmem _ hrep) (hnot b)
    · rw [hput, hfun q' b b' hrep (hws _ hb')]

theorem done_sweepChanges (hplan : Planned s v live plan) (hfun : Functional c s v live options)
    (hall : AllRewritable c v plan options) :
    Done c s v live options (changed (sweepChanges c s v plan options) v) := by
  have hview : ∀ q, changed (sweepChanges c s v plan options) v q =
      if q ∈ sweepDrops s plan options then none
      else changed (sweepPuts c s v plan options) v q := by
    intro q
    rw [sweepChanges, if_pos hall, changed, Prog.after_append]
    exact changed_drops
  have hputs := @changed_puts v (sweepPuts c s v plan options) fun ch hch =>
    replaces_put (hplan.mem_sweepPuts.mp hch)
  refine ⟨hplan.allRewritable_iff.mp hall, fun q hq => ?_, fun q b hrep hq => ?_, fun q hq hno => ?_⟩
  · rw [hview, if_pos (hplan.mem_sweepDrops.mpr hq)]
  · rw [hview, if_neg fun h => hq (hplan.mem_sweepDrops.mp h)]
    rcases hputs q with ⟨-, hnot⟩ | ⟨b', hb', hput⟩
    · exact absurd (hplan.mem_sweepPuts.mpr hrep) (hnot b)
    · rw [hput, hfun q b b' hrep (hplan.mem_sweepPuts.mp hb')]
  · rw [hview, if_neg fun h => hq (hplan.mem_sweepDrops.mp h)]
    rcases hputs q with ⟨hsame, -⟩ | ⟨b', hb', -⟩
    · exact hsame
    · exact absurd (hplan.mem_sweepPuts.mp hb') (hno b')

/-- A finished sweep is a moment of the sweep. -/
theorem Done.partly (hu : Done c s v live options u) :
    Partly c s v live options u where
  node q := by
    by_cases hd : Discards s v live options q
    · exact .inr (.inl ⟨hu.gone q hd, hd⟩)
    · by_cases hput : ∃ b, Replaces c s v live options (.put q b)
      · obtain ⟨b, hb⟩ := hput
        exact .inr (.inr ⟨b, hb, hu.written q b hb hd⟩)
      · push Not at hput
        exact .inl (hu.same q hd hput)
  complete q _ _ := ⟨hu.rewritable, hu.written⟩

/-- Where planning fails, the sweep has changed nothing. -/
theorem performs_sweep_error (options : SweepOptions) {e : CasError}
    (hplan : peek (planSweep s live) w.disk = .error e) :
    s.Performs [] (fun _ => False) (sweep c s live options) w := by
  have hread : s.Performs [] (fun _ => False) (planSweep s live) w := by
    refine (BlobStore.performs_reads planSweep_reads).mono fun a ha => ?_
    rw [hplan] at ha
    cases ha
  exact hread.bind_nothing fun _ _ _ hfalse => hfalse.elim

/-- At every moment of a sweep, wherever it is cut off, the store is partly swept. -/
theorem sweep_partly (hsep : Separate c s (s.view w.disk) live options) (n : ℕ) :
    Partly c s (s.view w.disk) live options
      (s.view (cutOff n (sweep c s live options) w).disk) := by
  cases hplan : peek (planSweep s live) w.disk with
  | error e =>
    obtain ⟨k, hk⟩ := (performs_sweep_error (c := c) options hplan).at_cut n
    rw [hk, List.take_nil]
    exact partly_refl
  | ok plan =>
    have hplanned := planned hplan
    obtain ⟨k, hk⟩ := (performs_sweep hplan (hsep.toApart hplanned)).at_cut n
    rw [hk]
    split_ifs with hdry
    · rw [List.take_nil]
      exact partly_refl
    · exact partly_take hplanned hsep.functional k

/-- A dry run that returns has changed nothing, any other sweep has done it all. -/
theorem sweep_done (hsep : Separate c s (s.view w.disk) live options) {report : SweepReport}
    {w' : World} (hrun : run (sweep c s live options) w = (.ok report, w')) :
    (options.mode = .dryRun → s.view w'.disk = s.view w.disk) ∧
      (options.mode ≠ .dryRun → Done c s (s.view w.disk) live options (s.view w'.disk)) := by
  cases hplan : peek (planSweep s live) w.disk with
  | error e =>
    exact ((performs_sweep_error (c := c) options hplan).at_ok hrun).2.elim
  | ok plan =>
    have hplanned := planned hplan
    obtain ⟨hview, -, hall⟩ := (performs_sweep hplan (hsep.toApart hplanned)).at_ok hrun
    constructor
    · intro hdry
      rw [hview, if_pos hdry]
      rfl
    · intro hdry
      rw [hview, if_neg hdry]
      exact done_sweepChanges hplanned hsep.functional (hall hdry)

end Moments

end Gc

end CasKit
