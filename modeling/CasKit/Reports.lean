import CasKit.Marking
import CasKit.Refinement
import CasKit.Wording

/-!
# What a run of the garbage collector reports and leaves

The report counts what the store held against the roots that the file writes, in every mode, and
after a sweep that is applied the store holds the roots that it held before and nothing else. A
dry run leaves everything as it is.
-/
namespace CasKit
open Effects Files Codec

section Store
variable {c : Crates} {s : BlobStore} {B : Set Bytes} {T : Tiers.Store Hash} {t u : Tree}
  {w w' : World} {caches : Caches} {roots live : Finset Hash} {order : HashOrder}

/-- Opening a store makes its directory, if it is not there. -/
theorem Ready.opened (hw : Ready c s B ⟨t, caches⟩) (hT : s.Models (s.view t) T)
    (hmk : t.createDirAll s.objectsDir = .ok u) :
    Ready c s B ⟨u, caches⟩ ∧ s.Models (s.view u) T := by
  have hdir : u.node s.objectsDir = some .dir :=
    (isDir_iff_node s.objectsDir_ne_nil).mp (Tree.isDir_createDirAll hmk)
  have hview : s.view u = (Change.mkdir s.objectsDir).apply (s.view t) := by
    funext q
    by_cases hq : s.objectsDir <+: q
    · rw [s.view_of_prefix hq]
      simp only [Change.apply, s.view_of_prefix hq]
      rcases Tree.node_createDirAll hmk q with hsame | ⟨hnone, hnew, hpre⟩
      · by_cases hnode : q = s.objectsDir ∧ t.node q = none
        · rw [if_pos hnode, hnode.1, hdir]
        · rw [if_neg hnode, hsame]
      · have heq : q = s.objectsDir := hpre.eq_of_length_le hq.length_le
        rw [if_pos ⟨heq, hnone⟩, hnew]
    · have hne : q ≠ s.objectsDir := fun heq => hq (heq ▸ List.prefix_rfl)
      simp [Change.apply, BlobStore.view, hq, hne]
  have hne : ∀ q, q ≠ s.objectsDir → s.view u q = s.view t q := by
    intro q hq
    simp [hview, Change.apply, hq]
  have hpacks : s.SamePacks (s.view t) (s.view u) := by
    constructor
    · exact hne _ (by simp [BlobStore.packDir_eq])
    · intro name
      exact hne _ (by simp [BlobStore.packDir_eq])
  refine ⟨⟨⟨?_, hw.sound.caches⟩, ?_⟩, ?_, fun h => ?_⟩
  · show Stocked c s B (s.view u)
    rw [hview]
    exact hw.sound.stocked.apply (Nat.le_succ _)
  · show Tidy c s (s.view u)
    rw [hview]
    exact hw.tidy.mkdir (Nat.le_succ _)
  · intro h
    rw [hT.loose, BlobStore.IsLoose, BlobStore.IsLoose, hne _ (by simp [BlobStore.blobPath_eq])]
  · exact hT.packed_of_same hpacks h

/-- The handle that opening gives. -/
def opened (root : Path) : BlobStore := ⟨root, true, defaultCompressionLevel, true⟩

theorem run_new {root : Path} (hrun : run (BlobStore.new root) ⟨t, caches⟩ = (.ok s, w')) :
    s = opened root ∧ ∃ u, t.createDirAll (opened root).objectsDir = .ok u ∧ w' = ⟨u, caches⟩ := by
  obtain ⟨a, w1, hcreate, hret⟩ := run_bind_eq_ok hrun
  obtain ⟨hs, rfl⟩ := Prod.mk.inj hret
  refine ⟨(Except.ok.inj hs).symm, ?_⟩
  have hok := run_mapErr_eq_ok hcreate
  rw [run_createDirAll] at hok
  cases hmk : t.createDirAll (root ++ [objectsName]) with
  | error e => simp [hmk, World.update] at hok
  | ok u =>
    simp only [hmk, World.update] at hok
    exact ⟨u, hmk, (Prod.mk.inj hok).2.symm⟩

/-- The roots that a mark finds are those that the store holds. -/
theorem Ready.mark (hinj : Set.InjOn (hashBytes c) B) (hw : Ready c s B ⟨t, .empty⟩)
    (hT : s.Models (s.view t) T) {l : Gc.LiveSet}
    (hrun : run (Gc.mark s order roots) ⟨t, .empty⟩ = (.ok l, w')) :
    Ready c s B w' ∧ w'.disk = t ∧
      l = ⟨roots ∩ T.all, (roots \ T.all).sort, roots.card, T.all.card⟩ := by
  obtain ⟨loose, w1, hloose, hrest⟩ := run_bind_eq_ok hrun
  rw [run_of_reads s.listBlobs_reads, hw.tidy.looseOn.1] at hloose
  obtain ⟨hlist, rfl⟩ := Prod.mk.inj hloose
  obtain ⟨packed, w2, hpacked, hret⟩ := run_bind_eq_ok hrest
  obtain ⟨hl, rfl⟩ := Prod.mk.inj hret
  obtain ⟨caches, hworld, hcaches, -⟩ := hw.sound.withPackCache hinj order PackCache.allHashes
  have hw2 : w2 = ⟨t, caches⟩ := by
    rw [← hworld]
    exact (congrArg Prod.snd hpacked).symm
  have hpresent : (loose ++ packed).toFinset = T.all := by
    obtain ⟨-, hmem⟩ := BlobStore.run_listBlobsPacked hpacked
    have hdisk : ∀ h, h ∈ packed ↔ ∃ p, s.Lists (s.view t) p h := hmem
    ext h
    simp only [List.mem_toFinset, List.mem_append, Tiers.Store.mem_all, hT.loose, hT.packed, hdisk,
      ← Except.ok.inj hlist, hw.tidy.looseOn.2.2 h]
  rw [hpresent] at hl
  subst hw2
  refine ⟨⟨⟨hw.sound.stocked, hcaches⟩, hw.tidy⟩, rfl, ?_⟩
  rw [← Except.ok.inj hl, Finset.filter_mem_eq_inter, Finset.filter_notMem_eq_sdiff]

/-- A plan counts what the store holds. -/
theorem Ready.plan_counts (hw : Ready c s B w) (hT : s.Models (s.view w.disk) T)
    {plan : Gc.SweepPlan} (hplan : peek (Gc.planSweep s live) w.disk = .ok plan) :
    plan.scanned = T.all.card ∧ plan.live = (T.all ∩ live).card ∧
      plan.garbage = (T.all \ live).card ∧ plan.loosePresent = T.loose.card ∧
        plan.packedPresent = T.packed.card ∧ plan.looseGarbage.length = (T.loose \ live).card := by
  obtain ⟨loose, ps, orphans, bytes, hloose, hps, -, rfl⟩ := Gc.planOf_of_planSweep hplan
  obtain ⟨hlist, -, hmem⟩ := hw.tidy.looseOn
  have hsorted : (toBTreeSet loose).toFinset = T.loose := by
    ext h
    rw [List.mem_toFinset, mem_toBTreeSet, hT.loose, ← hmem, Except.ok.inj (hlist.symm.trans hloose)]
  have hpacked : ((Gc.packStates w.disk.node live ps).flatMap Gc.PackState.hashes).toFinset =
      T.packed := by
    ext h
    simp only [List.mem_toFinset, List.mem_flatMap, hT.packed, Gc.lists_iff_packStates hps live]
    constructor
    · rintro ⟨st, hst, hh⟩
      exact ⟨st.packPath, st, hst, rfl, hh⟩
    · rintro ⟨p, st, hst, -, hh⟩
      exact ⟨st, hst, hh⟩
  have hscanned : Gc.scannedSet (toBTreeSet loose) (Gc.packStates w.disk.node live ps) = T.all := by
    rw [Gc.scannedSet, hsorted, hpacked, Tiers.Store.all]
  have hgarbage : Gc.garbageSet live (toBTreeSet loose) (Gc.packStates w.disk.node live ps) =
      T.all \ live := by
    rw [Gc.garbageSet, hscanned, Finset.filter_notMem_eq_sdiff]
  have hnodup : (toBTreeSet loose).Nodup := (Gc.sorted_toBTreeSet loose).imp fun h => h.ne
  have hlooseGarbage : ((toBTreeSet loose).filter (· ∈ T.all \ live)).toFinset = T.loose \ live := by
    ext h
    rw [List.toFinset_filter, hsorted]
    simp only [Finset.mem_filter, decide_eq_true_eq, Finset.mem_sdiff, Tiers.Store.mem_all]
    tauto
  simp only [Gc.planOf, Gc.scanOf, hscanned, hgarbage, hpacked]
  refine ⟨trivial, ?_, trivial, ?_, trivial, ?_⟩
  · rw [Finset.filter_mem_eq_inter]
  · rw [← hsorted, List.toFinset_card_of_nodup hnodup]
  · rw [← hlooseGarbage, List.toFinset_card_of_nodup (hnodup.filter _)]

/-- The plan and the mode are in the report. -/
theorem run_sweep_report {options : Gc.SweepOptions} {report : Gc.SweepReport}
    (hrun : run (Gc.sweep c s live options) w = (.ok report, w')) :
    peek (Gc.planSweep s live) w.disk = .ok report.plan ∧ report.mode = options.mode ∧
      report.executed = decide (options.mode ≠ .dryRun) := by
  obtain ⟨plan, u, hplan, hrest⟩ := run_bind_eq_ok hrun
  rw [run_of_reads Gc.planSweep_reads] at hplan
  obtain ⟨hpeek, rfl⟩ := Prod.mk.inj hplan
  by_cases hdry : options.mode = .dryRun
  · rw [if_pos hdry] at hrest
    obtain rfl := Except.ok.inj (Prod.mk.inj hrest).1
    simp [hpeek, hdry]
  · rw [if_neg hdry] at hrest
    obtain ⟨tally, u', -, hreport⟩ := run_bind_eq_ok hrest
    obtain rfl := Except.ok.inj (Prod.mk.inj hreport).1
    simp [hpeek, hdry]

end Store

/-! ## The program -/

namespace CasGc

section Program
variable {c : Crates} {humanBytes : ℕ → Text} {stdin : Bytes} {files : Text → Except Text Bytes}
  {order : HashOrder} {cli : Cli} {B : Set Bytes} {T : Tiers.Store Hash} {t : Tree} {w' : World}
  {roots : Finset Hash} {out : Text}

/-- The stages of a run that prints something. -/
structure Stages (c : Crates) (humanBytes : ℕ → Text) (order : HashOrder) (cli : Cli)
    (roots : Finset Hash) (w w' : World) (out : Text) (u : Tree) (w1 : World) (l : Gc.LiveSet)
    (report : Gc.SweepReport) : Prop where
  created : w.disk.createDirAll (opened cli.root).objectsDir = .ok u
  marked : CasKit.run (Gc.mark (opened cli.root) order roots) ⟨u, w.caches⟩ = (.ok l, w1)
  swept : CasKit.run (Gc.sweep c (opened cli.root) l.live ⟨cli.command.mode, true⟩) w1 =
    (.ok report, w')
  printed : out = if cli.json then
      printJson cli.command.name report l.missing.length ++ [lineFeed]
    else printHuman humanBytes cli.root cli.command.name report l

theorem stages_of_run {w : World} (hroots : parseRoots stdin files cli.command.rootsFile = .ok roots)
    (hrun : CasKit.run (run c humanBytes stdin files order cli) w = (.ok out, w')) :
    ∃ u w1 l report, Stages c humanBytes order cli roots w w' out u w1 l report := by
  obtain ⟨store, w0, hnew, hrest⟩ := run_bind_eq_ok hrun
  obtain ⟨rfl, u, hmk, rfl⟩ := run_new (run_mapErr_eq_ok hnew)
  rw [hroots, Prog.ofExcept_ok, Prog.ret_bind] at hrest
  obtain ⟨l, w1, hmark, hrest⟩ := run_bind_eq_ok hrest
  obtain ⟨report, w2, hsweep, hrest⟩ := run_bind_eq_ok hrest
  refine ⟨u, w1, l, report, hmk, run_mapErr_eq_ok hmark, ?_, ?_⟩
  · cases hjson : cli.json <;> rw [hjson] at hrest <;> obtain ⟨-, rfl⟩ := Prod.mk.inj hrest <;>
      exact run_mapErr_eq_ok hsweep
  · cases hjson : cli.json <;> rw [hjson] at hrest <;>
      exact (Except.ok.inj (Prod.mk.inj hrest).1).symm

/-- The exit code is 0 exactly if the run printed its report. -/
theorem run_of_main {w : World} {err : Text}
    (hmain : main c humanBytes stdin files order cli w = ((0, out, err), w')) :
    CasKit.run (run c humanBytes stdin files order cli) w = (.ok out, w') := by
  unfold main at hmain
  split at hmain
  · next hrun =>
    simp only [Prod.mk.injEq] at hmain
    rw [hrun, hmain.1.2.1, hmain.2]
  · next hrun => simp at hmain

/-- A run of the program on a store in order. It prints the report of its plan: what the store
held, the roots among it and the others, and the roots that it did not hold. A sweep that is
applied leaves the roots that were there and nothing else; a mark or a dry run leaves all there is.
What is left is readable by a handle opened afterwards. -/
theorem main_reports (hz : ZstdSound c) (hinj : Set.InjOn (hashBytes c) B)
    (hw : Ready c (opened cli.root) B ⟨t, .empty⟩)
    (hT : (opened cli.root).Models ((opened cli.root).view t) T)
    (hroots : parseRoots stdin files cli.command.rootsFile = .ok roots)
    (hfits : ∀ u, t.createDirAll (opened cli.root).objectsDir = .ok u →
      SweepFits c (opened cli.root) B (roots ∩ T.all) ⟨cli.command.mode, true⟩ u)
    (hjson : cli.json = true) {err : Text}
    (hmain : main c humanBytes stdin files order cli ⟨t, .empty⟩ = ((0, out, err), w')) :
    (∃ body values, out = body ++ [lineFeed] ∧ Json.readObject body = some values ∧
      (text "dry_run", Json.Value.bool (cli.command.mode = .dryRun)) ∈ values ∧
      (text "scanned", Json.Value.number T.all.card) ∈ values ∧
      (text "live", Json.Value.number (T.all ∩ roots).card) ∈ values ∧
      (text "garbage", Json.Value.number (T.all \ roots).card) ∈ values ∧
      (text "missing_roots", Json.Value.number (roots \ T.all).card) ∈ values ∧
      (text "loose_garbage", Json.Value.number (T.loose \ roots).card) ∈ values ∧
      (text "executed", Json.Value.bool (cli.command.mode ≠ .dryRun)) ∈ values) ∧
    ∃ U, Serves c (opened cli.root) B w'.disk U ∧
      U.all = if cli.command.mode = .dryRun then T.all else T.all ∩ roots := by
  obtain ⟨u, w1, l, report, hst⟩ := stages_of_run hroots (run_of_main hmain)
  obtain ⟨hwu, hTu⟩ := hw.opened hT hst.created
  obtain ⟨hw1, hdisk, hl⟩ := hwu.mark hinj hTu hst.marked
  have hlive : l.live = roots ∩ T.all := by rw [hl]
  have hswept := hst.swept
  rw [hlive] at hswept
  have hT1 : (opened cli.root).Models ((opened cli.root).view w1.disk) T := hdisk ▸ hTu
  have hfits1 : SweepFits c (opened cli.root) B (roots ∩ T.all) ⟨cli.command.mode, true⟩ w1.disk :=
    hdisk ▸ hfits u hst.created
  obtain ⟨hplan, hmode, hexecuted⟩ := run_sweep_report hswept
  obtain ⟨hscanned, hplanlive, hgarbage, -, -, hloose⟩ := hw1.plan_counts hT1 hplan
  obtain ⟨hw2, U, hU, hstep⟩ := hw1.sweep hz hinj hT1 hfits1 hswept
  constructor
  · refine ⟨_, _, ?_, readObject_reportTexts cli.command report l.missing.length, ?_⟩
    · rw [hst.printed, if_pos hjson, printJson_eq]
    · have hmissing : l.missing.length = (roots \ T.all).card := by simp [hl]
      have hinter : T.all ∩ (roots ∩ T.all) = T.all ∩ roots := by grind
      have hdiff : T.all \ (roots ∩ T.all) = T.all \ roots := by grind
      have hloosediff : T.loose \ (roots ∩ T.all) = T.loose \ roots := by
        ext h
        simp only [Finset.mem_sdiff, Finset.mem_inter, Tiers.Store.mem_all]
        tauto
      simp [reportValues, hmode, hscanned, hplanlive, hgarbage, hloose, hexecuted, hmissing, hinter,
        hdiff, hloosediff]
  · refine ⟨U, Ready.serves hz hinj ⟨⟨hw2.sound.stocked, Caches.sound_empty c _ B⟩, hw2.tidy⟩ hU, ?_⟩
    split_ifs at hstep ⊢ with hdry
    · rw [hstep]
    · ext h
      rw [Finset.mem_inter]
      constructor
      · intro hh
        rcases hstep.origin (.inr rfl) hh with heq | ⟨hspares, hh⟩
        · cases heq
        · exact ⟨hh, (Finset.mem_inter.mp hspares).1⟩
      · rintro ⟨hh, hroot⟩
        exact hstep.stays (Finset.mem_inter.mpr ⟨hroot, hh⟩) hh

/-- `a` and `g` are stored by the handle that the program opens. -/
def keptCall : BlobStore.PutCall := .putBlob (text "a")
def sweptCall : BlobStore.PutCall := .putBlob (text "g")

def reportWorld : World :=
  (CasKit.run (sweptCall.action Concrete.crates (opened [text "s"]))
    (CasKit.run (keptCall.action Concrete.crates (opened [text "s"])) ⟨Concrete.newDisk, .empty⟩).2).2

/-- What that store holds. -/
def reportTiers : Tiers.Store Hash :=
  ⟨{sweptCall.address Concrete.crates, keptCall.address Concrete.crates}, ∅⟩

/-- The roots on the standard input are `a` alone. -/
def reportCli : Cli where
  root := [text "s"]
  json := true
  command := .sweep (text "-") .apply true

def reportRoots : Bytes := (hashBytes Concrete.crates (text "a")).toHex ++ [lineFeed]

def reportRun : (ℕ × Text × Text) × World :=
  main Concrete.crates natText reportRoots (fun _ => .ok []) .inserted reportCli
    ⟨reportWorld.disk, .empty⟩

/-- The bytes that are stored. -/
def reportBytes : Set Bytes := {b | b ∈ [text "a", text "g"]}

theorem reportWorld_ready : Set.InjOn (hashBytes Concrete.crates) reportBytes ∧
    Ready Concrete.crates (opened reportCli.root) reportBytes ⟨reportWorld.disk, .empty⟩ ∧
    (opened reportCli.root).Models ((opened reportCli.root).view reportWorld.disk) reportTiers := by
  have hinj : Set.InjOn (hashBytes Concrete.crates) reportBytes := by
    have hall : ∀ b ∈ [text "a", text "g"], ∀ b' ∈ [text "a", text "g"],
        hashBytes Concrete.crates b = hashBytes Concrete.crates b' → b = b' := by
      decide +kernel
    exact fun b hb b' hb' => hall b hb b' hb'
  have hnew : Ready Concrete.crates (opened [text "s"]) reportBytes ⟨Concrete.newDisk, .empty⟩ :=
    ⟨⟨.new (Concrete.view_newDisk true), Caches.sound_empty _ _ _⟩, .new (Concrete.view_newDisk true)⟩
  have hkept : keptCall.bytes ∈ reportBytes := by
    simp [reportBytes, keptCall, BlobStore.PutCall.bytes]
  have hswept : sweptCall.bytes ∈ reportBytes := by
    simp [reportBytes, sweptCall, BlobStore.PutCall.bytes]
  obtain ⟨hw, hT⟩ := hnew.put hinj (models_empty (Concrete.view_newDisk true)) hkept
    (.inl (by decide +kernel))
  obtain ⟨hw, hT⟩ := hw.put hinj hT hswept (.inl (by decide +kernel))
  exact ⟨hinj, ⟨⟨hw.sound.stocked, Caches.sound_empty _ _ _⟩, hw.tidy⟩, hT⟩

/-- One object is garbage. -/
theorem main_reports_one : reportRun.1.1 = 0 ∧ ∃ body values,
    reportRun.1.2.1 = body ++ [lineFeed] ∧ Json.readObject body = some values ∧
      (text "garbage", Json.Value.number 1) ∈ values := by
  obtain ⟨hinj, hw, hT⟩ := reportWorld_ready
  have hcode : reportRun.1.1 = 0 := by decide +kernel
  have hroots : parseRoots reportRoots (fun _ => .ok []) reportCli.command.rootsFile =
      .ok {hashBytes Concrete.crates (text "a")} := by
    decide +kernel
  have hrewrites : ∀ u ∈ (reportWorld.disk.createDirAll (opened [text "s"]).objectsDir).toOption,
      ∀ plan ∈ (peek (Gc.planSweep (opened [text "s"])
        ({hashBytes Concrete.crates (text "a")} ∩ reportTiers.all)) u).toOption,
          Gc.rewrites plan ⟨.delete, true⟩ = [] := by
    decide +kernel
  have hfits : ∀ u, reportWorld.disk.createDirAll (opened reportCli.root).objectsDir = .ok u →
      SweepFits Concrete.crates (opened reportCli.root) reportBytes
        ({hashBytes Concrete.crates (text "a")} ∩ reportTiers.all) ⟨reportCli.command.mode, true⟩
        u := by
    intro u hu plan hplan r hr
    have hu' : u ∈ (reportWorld.disk.createDirAll (opened [text "s"]).objectsDir).toOption := by
      simp [show reportWorld.disk.createDirAll (opened [text "s"]).objectsDir = .ok u from hu,
        Except.toOption]
    have hnone := hrewrites u hu' plan (by
      simp [show peek (Gc.planSweep (opened [text "s"]) _) u = .ok plan from hplan, Except.toOption])
    have hmode : reportCli.command.mode = .delete := rfl
    rw [hmode, hnone] at hr
    cases hr
  have hcount : (reportTiers.all \ {hashBytes Concrete.crates (text "a")}).card = 1 := by
    decide +kernel
  have hmain : main Concrete.crates natText reportRoots (fun _ => .ok []) .inserted reportCli
      ⟨reportWorld.disk, .empty⟩ = ((0, reportRun.1.2.1, reportRun.1.2.2), reportRun.2) :=
    Prod.ext (Prod.ext hcode rfl) rfl
  obtain ⟨⟨body, values, hout, hread, -, -, -, hgarbage, -⟩, -⟩ :=
    main_reports Concrete.zstdSound hinj hw hT hroots hfits rfl hmain
  rw [hcount] at hgarbage
  exact ⟨hcode, body, values, hout, hread, hgarbage⟩

end Program

end CasGc

end CasKit
