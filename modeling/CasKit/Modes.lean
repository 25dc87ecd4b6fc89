import CasKit.Tidy
import CasKit.Trash

/-!
# The two modes of a sweep

From one state a sweep in delete mode and one in trash mode leave the same store and report the
same. The plan and the rewrites are the same program, and the removals agree one by one. In trash
mode every file that goes is found at its mirrored path, and no path escapes the root.
-/
namespace CasKit
open Effects Files Codec

namespace Gc
variable {c : Crates} {s : BlobStore} {w w' : World} {p q : Path} {b : Bytes}
  {live : Finset Hash} {plan : SweepPlan} {options : SweepOptions} {rewrite : Bool}

/-- What a sweep that removes reports. -/
def reportOf (s : BlobStore) (plan : SweepPlan) (mode : SweepMode) (tally : Tally) : SweepReport where
  plan := plan
  mode := mode
  executed := true
  looseRemoved := tally.looseRemoved
  packsRemoved := tally.packsRemoved
  packsRewritten := tally.packsRewritten
  bytesReclaimed := tally.bytesReclaimed
  trash := if mode = .trash then some (s.root ++ [trashDir]) else none

theorem sweep_executing (hmode : options.mode ≠ .dryRun) : sweep c s live options =
    planSweep s live >>= fun plan =>
      (rewrites plan options).foldlM (rewritePack c s) ⟨0, 0, 0, 0⟩ >>= fun tally =>
        discard s plan options tally >>= fun tally =>
          Prog.ret (reportOf s plan options.mode tally) := by
  unfold sweep
  congr 1
  funext plan
  rw [if_neg hmode, execute_discard, Prog.bind_assoc]
  rfl

/-- The stages of a sweep that returns a report. -/
structure Stages (c : Crates) (s : BlobStore) (live : Finset Hash) (options : SweepOptions)
    (w w0 w' : World) (plan : SweepPlan) (tally0 tally : Tally) : Prop where
  planned : peek (planSweep s live) w.disk = .ok plan
  rewritten : run ((rewrites plan options).foldlM (rewritePack c s) ⟨0, 0, 0, 0⟩) w = (.ok tally0, w0)
  discarded : run (discard s plan options tally0) w0 = (.ok tally, w')

theorem stages_of_run {report : SweepReport} (hmode : options.mode ≠ .dryRun)
    (hrun : run (sweep c s live options) w = (.ok report, w')) :
    ∃ w0 plan tally0 tally, Stages c s live options w w0 w' plan tally0 tally ∧
      report = reportOf s plan options.mode tally := by
  rw [sweep_executing hmode] at hrun
  obtain ⟨plan, w1, hplan, hrest⟩ := run_bind_eq_ok hrun
  rw [run_of_reads planSweep_reads] at hplan
  obtain ⟨hpeek, rfl⟩ := Prod.mk.inj hplan
  obtain ⟨tally0, w0, hrewrite, hrest⟩ := run_bind_eq_ok hrest
  obtain ⟨tally, w2, hdiscard, hrest⟩ := run_bind_eq_ok hrest
  obtain ⟨hreport, rfl⟩ := Prod.mk.inj hrest
  exact ⟨w0, plan, tally0, tally, ⟨hpeek, hrewrite, hdiscard⟩, (Except.ok.inj hreport).symm⟩

/-! ## The first phase -/

/-- The requests of a program that adds files to a directory and looks around. -/
def AddsTo (dir : Path) : Request → Prop
  | .write p _ => ∃ name, p = dir ++ [name]
  | .createDirAll p => p = dir
  | o => o.Reads

theorem addsTo_of_reads (dir : Path) {o : Request} (ho : o.Reads) : AddsTo dir o := by
  cases o <;> first | exact ho | exact ho.elim

theorem rewritePack_addsTo (tally : Tally) (r : PackRewrite) :
    (rewritePack c s tally r).Uses (AddsTo s.packDir) := by
  have hlength : ∀ q, (ioCas (fileLength q)).Uses (AddsTo s.packDir) := fun q =>
    (ioCas_reads (fileLength_reads q)).mono fun _ => addsTo_of_reads s.packDir
  have hload := (packCas_reads (load_reads (withExtension r.pack idxExt))).mono
    fun _ => addsTo_of_reads s.packDir
  have hkept : ∀ index, (r.keep.foldlM (readKept c r index) []).Uses (AddsTo s.packDir) :=
    fun index => (Prog.Uses.foldlM readKept_reads r.keep []).mono fun _ =>
      addsTo_of_reads s.packDir
  have hcreate : ∀ objects, (packCas (PackFile.create c s.packDir objects)).Uses
      (AddsTo s.packDir) := by
    intro objects
    unfold PackFile.create
    split_ifs with hempty
    · trivial
    · have hmk : (createDirAll s.packDir).Uses (AddsTo s.packDir) :=
        ⟨rfl, fun r => Prog.Uses.ofExcept r⟩
      have hwrite : ∀ name b, (ioPack (writeFile (s.packDir ++ [name]) b)).Uses
          (AddsTo s.packDir) := fun name b =>
        Prog.Uses.mapErr (p := writeFile (s.packDir ++ [name]) b)
          ⟨⟨name, rfl⟩, fun r => Prog.Uses.ofExcept r⟩
      refine Prog.Uses.mapErr (hmk.mapErr.bind fun _ => ?_)
      refine (Prog.Uses.ofExcept _).bind fun packed => ?_
      exact (hwrite _ _).bind fun _ => (hwrite _ _).bind fun _ => trivial
  refine hload.bind fun index => (hkept index).bind fun objects => ?_
  refine (hcreate objects).bind fun created => ?_
  refine (hlength _).bind fun _ => (hlength _).bind fun _ => ?_
  exact (hlength _).bind fun _ => (hlength _).bind fun _ => trivial

section AddsTo
variable {dir : Path} {o : Request}

/-- What an addition makes of the node at a path. -/
theorem node_of_addsTo (ho : AddsTo dir o) (w : World) (q : Path) :
    (answer o w).2.disk.node q = w.disk.node q ∨
      ((answer o w).2.disk.node q).isSome ∧ (q <+: dir ∨ ∃ name, q = dir ++ [name]) := by
  cases o with
  | write p b =>
    obtain ⟨name, rfl⟩ := ho
    show (w.update (w.disk.write (dir ++ [name]) b)).2.disk.node q = _ ∨ _
    cases hwrite : w.disk.write (dir ++ [name]) b with
    | error e => exact .inl rfl
    | ok t =>
      have hnode := Tree.node_write hwrite q
      by_cases hq : q = dir ++ [name]
      · right
        refine ⟨?_, .inr ⟨name, hq⟩⟩
        show ((w.update (w.disk.write (dir ++ [name]) b)).2.disk.node q).isSome
        rw [hwrite]
        show (t.node q).isSome
        rw [hnode, if_pos hq]
        rfl
      · left
        show t.node q = w.disk.node q
        rw [hnode, if_neg hq]
  | createDirAll p =>
    obtain rfl : p = dir := ho
    show (w.update (w.disk.createDirAll p)).2.disk.node q = _ ∨ _
    cases hmk : w.disk.createDirAll p with
    | error e => exact .inl rfl
    | ok t =>
      rcases Tree.node_createDirAll hmk q with h | ⟨-, hdir, hpre⟩
      · exact .inl h
      · right
        refine ⟨?_, .inl hpre⟩
        show ((w.update (w.disk.createDirAll p)).2.disk.node q).isSome
        rw [hmk]
        show (t.node q).isSome
        rw [hdir]
        rfl
  | _ => first | exact .inl rfl | exact ho.elim

end AddsTo

/-- The file has the bytes `b` before a step and is gone after it. -/
def Vanishes (q : Path) (b : Bytes) (w w' : World) : Prop :=
  w.disk.file q = some b ∧ w'.disk.node q = none

theorem not_vanishes_of_addsTo {dir : Path} {o : Request} (ho : AddsTo dir o) (w : World) :
    ¬ Vanishes q b w (answer o w).2 := by
  rintro ⟨hfile, hnone⟩
  rcases node_of_addsTo ho w q with h | ⟨hsome, -⟩
  · rw [h] at hnone
    rw [Tree.file_eq_some, hnone] at hfile
    cases hfile
  · rw [hnone] at hsome
    cases hsome

/-- Rewrites leave the trash alone. -/
theorem node_trash_rewrites {rs : List PackRewrite} {tally : Tally}
    (hp : s.root ++ [trashDir] <+: p) :
    (run (rs.foldlM (rewritePack c s) tally) w).2.disk.node p = w.disk.node p := by
  refine (Prog.Uses.foldlM rewritePack_addsTo rs tally).exec_eq (fun w => w.disk.node p)
    (fun o u ho => ?_) w
  rcases node_of_addsTo ho u p with h | ⟨-, hpre | ⟨name, rfl⟩⟩
  · exact h
  · exact absurd s.objectsDir_prefix_packDir (not_objects_of_trash (hp.trans hpre))
  · exact absurd (s.objectsDir_prefix_of_packDir [name]) (not_objects_of_trash hp)

/-! ## What vanishes -/

/-- A file vanishes in a sweep exactly if the rewrites left it there and the end does not. -/
theorem Stages.vanishes_iff {w0 : World} {tally0 tally : Tally} (hmode : options.mode ≠ .dryRun)
    (hst : Stages c s live options w w0 w' plan tally0 tally) (hq : s.objectsDir <+: q) :
    (sweep c s live options).Passes answer (Vanishes q b) w ↔
      w0.disk.file q = some b ∧ w'.disk.node q = none := by
  have hplan : run (planSweep s live) w = (.ok plan, w) := by
    rw [run_of_reads planSweep_reads, hst.planned]
  have hquiet : ∀ {α : Type} {p : Action CasError α} {dir : Path} (u : World),
      p.Uses (AddsTo dir) → ¬ p.Passes answer (Vanishes q b) u :=
    fun u hp => hp.not_passes (fun _ v ho => not_vanishes_of_addsTo ho v) u
  have hreads : (planSweep s live).Uses (AddsTo s.packDir) :=
    planSweep_reads.mono fun _ => addsTo_of_reads s.packDir
  obtain ⟨-, horphan, hremove⟩ := (Gc.planned hst.planned).names options
  have hperforms : s.Performs ((sweepDrops s plan options).map .drop) (fun _ => True)
      (discard s plan options tally0) w0 := performs_discard horphan hremove
  -- at every moment the file is as the rewrites left it, or among those dropped so far
  have hview : ∀ u : World, (∃ k, s.view u.disk =
      Prog.after Change.apply (((sweepDrops s plan options).map .drop).take k) (s.view w0.disk)) →
      u.disk.node q = w0.disk.node q ∨ u.disk.node q = none ∧ q ∈ sweepDrops s plan options := by
    rintro u ⟨k, hk⟩
    rw [← List.map_take] at hk
    have hat : s.view u.disk q = changed (((sweepDrops s plan options).take k).map .drop)
        (s.view w0.disk) q := congrFun hk q
    rw [changed_drops, s.view_of_prefix hq, s.view_of_prefix hq] at hat
    split_ifs at hat with hmem
    · exact .inr ⟨hat, List.mem_of_mem_take hmem⟩
    · exact .inl hat
  rw [sweep_executing hmode,
    Prog.passes_bind_right hplan (hquiet w hreads),
    Prog.passes_bind_right hst.rewritten
      (hquiet w (Prog.Uses.foldlM rewritePack_addsTo (rewrites plan options) ⟨0, 0, 0, 0⟩)),
    Prog.passes_bind]
  constructor
  · rintro (hpass | ⟨_, _, -, hpass⟩)
    · obtain ⟨u, u', hu, hu', hfile, hnone⟩ := hpass.along hperforms
      have hnode : u.disk.node q = w0.disk.node q := by
        rcases hview u hu with h | ⟨h, -⟩
        · exact h
        · rw [Tree.file_eq_some, h] at hfile
          cases hfile
      have hwas : w0.disk.file q = some b := (Tree.file_congr hnode).symm.trans hfile
      refine ⟨hwas, ?_⟩
      have hmem : q ∈ sweepDrops s plan options := by
        rcases hview u' hu' with h | ⟨-, h⟩
        · rw [Tree.file_eq_some, ← h, hnone] at hwas
          cases hwas
        · exact h
      have hend : s.view w'.disk q = changed ((sweepDrops s plan options).map .drop)
          (s.view w0.disk) q := congrFun (hperforms.at_ok hst.discarded).1 q
      rwa [changed_drops, if_pos hmem, s.view_of_prefix hq] at hend
    · exact hpass.elim
  · rintro ⟨hwas, hgone⟩
    left
    have hstart : (w0.disk.node q).isSome := by
      rw [Tree.file_eq_some.mp hwas]
      rfl
    have hend : ¬ ((Prog.exec answer (discard s plan options tally0) w0).2.disk.node q).isSome := by
      have hdiscarded : Prog.exec answer (discard s plan options tally0) w0 = _ := hst.discarded
      rw [hdiscarded]
      show ¬ (w'.disk.node q).isSome
      rw [hgone]
      exact Bool.false_ne_true
    have hpass := Prog.Along.passes (P := fun u : World => (u.disk.node q).isSome) hperforms hstart hend
    refine hpass.mono fun u u' hstep => ?_
    obtain ⟨hu, hsome, hnone⟩ := hstep
    refine ⟨?_, by simpa using hnone⟩
    rcases hview u hu with h | ⟨h, -⟩
    · rw [Tree.file_congr h, hwas]
    · rw [h] at hsome
      cases hsome

/-! ## Errors -/

/-- The error is that of a file operation. -/
def IsIo (e : CasError) : Prop := ∃ k, e = .io k

theorem ioCas_throws {α : Type} (p : Action ErrorKind α) : (ioCas p).Throws IsIo :=
  Prog.Throws.mapErr (fun k => ⟨k, rfl⟩) p

theorem removeOrTrash_throws {mode : SweepMode} (hmode : mode ≠ .dryRun) (hp : s.objectsDir <+: p) :
    (removeOrTrash s mode (s.root ++ [trashDir]) p).Throws IsIo := by
  refine (ioCas_throws _).bind fun len => ?_
  cases mode with
  | dryRun => exact absurd rfl hmode
  | delete => exact (ioCas_throws _).bind fun _ => trivial
  | trash =>
    -- the path is under the root, so it has a place in the trash
    obtain ⟨rest, rfl⟩ := exists_rest hp
    simp only [stripPrefix_append]
    have hclear : (clearDestination (s.root ++ [trashDir] ++ rest)).Throws IsIo := by
      intro there
      cases (there : Bool) with
      | false => trivial
      | true => exact (Prog.Throws.attempt _).bind fun _ => trivial
    refine (ioCas_throws _).bind fun _ => hclear.bind fun _ => ?_
    exact (ioCas_throws _).bind fun _ => trivial

theorem discard_throws (hmode : options.mode ≠ .dryRun)
    (horphan : ∀ q ∈ plan.orphanFiles, s.objectsDir <+: q)
    (hremove : ∀ p ∈ removals plan options, IsPackName s.packDir p) (tally : Tally) :
    (discard s plan options tally).Throws IsIo := by
  have horphanThrows : ∀ q, s.objectsDir <+: q → ∀ tally,
      (removeOrphan s options.mode tally q).Throws IsIo := fun q hq tally =>
    (removeOrTrash_throws hmode hq).bind fun _ => trivial
  have hloose : ∀ h tally, (removeLoose s options.mode tally h).Throws IsIo := by
    intro h tally
    unfold removeLoose
    rw [loosePath_eq]
    exact (removeOrTrash_throws hmode s.objectsDir_prefix_blobPath).bind fun _ => trivial
  have hthere : ∀ q, s.objectsDir <+: q → ∀ tally,
      (removeIfThere s options.mode tally q).Throws IsIo := by
    intro q hq tally there
    cases (there : Bool) with
    | false => trivial
    | true => exact horphanThrows q hq tally
  have hpack : ∀ p ∈ removals plan options, ∀ tally,
      (removePack s options.mode tally p).Throws IsIo := by
    intro p hp tally
    refine Prog.Throws.bind ?_ fun _ => trivial
    exact Prog.Throws.foldlM (fun q hq => hthere q (pair_under (hremove p hp) hq)) tally
  refine (Prog.Throws.foldlM (fun h _ => hloose h) tally).bind fun tally => ?_
  refine (Prog.Throws.foldlM (fun q hq => horphanThrows q (horphan q hq)) tally).bind fun tally => ?_
  refine (Prog.Throws.foldlM hpack tally).bind fun tally => ?_
  exact fun _ _ _ => trivial

theorem listBlobs_throws : s.listBlobs.Throws IsIo := by
  have hstep : ∀ entry hashes, (s.listStep hashes entry).Throws IsIo := by
    intro entry hashes
    unfold BlobStore.listStep
    split_ifs
    · trivial
    · exact (ioCas_throws _).bind fun _ => trivial
    · trivial
  intro there
  cases (there : Bool) with
  | false => trivial
  | true =>
    refine (ioCas_throws (readDirectory s.objectsDir)).bind fun entries => ?_
    exact (Prog.Throws.foldlM (fun entry _ => hstep entry) []).bind fun _ => trivial

theorem planSweep_throws : (planSweep s live).Throws IsIo := by
  have hscan : ∀ p scan, (scanPack live scan p).Throws IsIo := by
    intro p scan there
    cases (there : Bool) with
    | false => trivial
    | true =>
      refine (Prog.Throws.attempt _).bind fun loaded => ?_
      cases loaded with
      | error e => trivial
      | ok i =>
        refine (ioCas_throws (fileLength p)).bind fun _ => ?_
        exact (ioCas_throws (fileLength (withExtension p idxExt))).bind fun _ => trivial
  have hidx : ∀ names entry orphans, (scanIdx s.packDir names orphans entry).Throws IsIo := by
    intro names entry orphans
    unfold scanIdx
    dsimp only
    split_ifs
    · trivial
    · intro there
      cases (there : Bool) <;> trivial
    · trivial
  have horphans : ∀ packs orphans, (scanOrphans s packs orphans).Throws IsIo := by
    intro packs orphans there
    cases (there : Bool) with
    | false => trivial
    | true =>
      refine (ioCas_throws (readDirectory s.packDir)).bind fun entries => ?_
      exact Prog.Throws.foldlM (fun entry _ => hidx _ entry) orphans
  have hbytes : ∀ h bytes, (addLooseBytes s bytes h).Throws IsIo := fun h bytes =>
    (ioCas_throws (fileLength (loosePath s h))).bind fun _ => trivial
  refine listBlobs_throws.bind fun loose => ?_
  refine (ioCas_throws (PackFile.listPacks s.packDir)).bind fun ps => ?_
  refine (Prog.Throws.foldlM (fun p _ => hscan p) _).bind fun scan => ?_
  refine (horphans _ _).bind fun orphans => ?_
  exact (Prog.Throws.foldlM (fun h _ => hbytes h) _).bind fun _ => trivial

/-- The errors of a rewrite: those of file operations and those of packs. -/
def IsIoOrPack (e : CasError) : Prop := IsIo e ∨ ∃ k, e = .pack k

theorem rewritePack_throws (r : PackRewrite) (tally : Tally) :
    (rewritePack c s tally r).Throws IsIoOrPack := by
  have hio : ∀ {α : Type} (p : Action ErrorKind α), (ioCas p).Throws IsIoOrPack := fun p =>
    (ioCas_throws p).mono fun _ h => .inl h
  have hpack : ∀ {α : Type} (p : Action PackError α), (packCas p).Throws IsIoOrPack := fun p =>
    Prog.Throws.mapErr (fun k => .inr ⟨k, rfl⟩) p
  refine (hpack _).bind fun index => ?_
  have hkept : ∀ h objects, (readKept c r index objects h).Throws IsIoOrPack := fun h objects =>
    (hpack (PackFile.readBlob c r.pack index h)).bind fun _ => trivial
  refine (Prog.Throws.foldlM (fun h _ => hkept h) []).bind fun objects => ?_
  refine (hpack _).bind fun created => (hio _).bind fun _ => (hio _).bind fun _ => ?_
  exact (hio _).bind fun _ => (hio _).bind fun _ => trivial

/-- A sweep that ends with another error than one of a file operation has removed nothing yet, and
does the same in the other mode. -/
theorem sweep_error_modes {mode mode' : SweepMode} {e : CasError} (hmode : mode ≠ .dryRun)
    (hmode' : mode' ≠ .dryRun) (he : ¬ IsIo e)
    (hrun : run (sweep c s live ⟨mode, rewrite⟩) w = (.error e, w')) :
    run (sweep c s live ⟨mode', rewrite⟩) w = (.error e, w') ∧ IsIoOrPack e := by
  have hexecuting : ∀ m : SweepMode, m ≠ .dryRun → run (sweep c s live ⟨m, rewrite⟩) w = _ :=
    fun m hm => congrArg (fun p => run p w) (sweep_executing hm)
  rw [hexecuting mode hmode] at hrun
  rw [hexecuting mode' hmode']
  cases hplan : run (planSweep s live) w with
  | mk r w1 =>
    cases r with
    | error e' =>
      have hio := planSweep_throws.exec_error hplan
      rw [run_bind_error hplan] at hrun
      obtain ⟨heq, -⟩ := Prod.mk.inj hrun
      rw [Except.error.inj heq] at hio
      exact absurd hio he
    | ok plan =>
      have hpeek : peek (planSweep s live) w.disk = .ok plan := by
        rw [run_of_reads planSweep_reads] at hplan
        exact (Prod.mk.inj hplan).1
      rw [run_bind_ok hplan] at hrun ⊢
      cases hrewrite : run ((rewrites plan ⟨mode, rewrite⟩).foldlM (rewritePack c s) ⟨0, 0, 0, 0⟩)
          w1 with
      | mk r w2 =>
        cases r with
        | error e' =>
          have hkind := (Prog.Throws.foldlM (fun r _ => rewritePack_throws r) _).exec_error hrewrite
          rw [run_bind_error hrewrite] at hrun
          have hother : run ((rewrites plan ⟨mode', rewrite⟩).foldlM (rewritePack c s)
              ⟨0, 0, 0, 0⟩) w1 = (.error e', w2) := hrewrite
          rw [run_bind_error hother]
          obtain ⟨heq, rfl⟩ := Prod.mk.inj hrun
          rw [← Except.error.inj heq]
          exact ⟨rfl, hkind⟩
        | ok tally =>
          obtain ⟨-, horphan, hremove⟩ := (planned hpeek).names ⟨mode, rewrite⟩
          rw [run_bind_ok hrewrite] at hrun
          have hdiscard : (discard s plan ⟨mode, rewrite⟩ tally).Throws IsIo :=
            discard_throws hmode horphan hremove tally
          have hthrows : (discard s plan ⟨mode, rewrite⟩ tally >>= fun tally =>
              Prog.ret (reportOf s plan mode tally)).Throws IsIo := hdiscard.bind fun _ => trivial
          exact absurd (hthrows.exec_error hrun) he

/-! ## The modes -/

/-- Both modes leave the same store, and report the same but for the mode and the trash. -/
theorem same_of_both {deleted trashed : SweepReport} {wd wt : World}
    (hdelete : run (sweep c s live ⟨.delete, rewrite⟩) w = (.ok deleted, wd))
    (htrash : run (sweep c s live ⟨.trash, rewrite⟩) w = (.ok trashed, wt)) :
    (∀ q, s.objectsDir <+: q → wt.disk.node q = wd.disk.node q) ∧
      trashed = { deleted with mode := .trash, trash := some (s.root ++ [trashDir]) } := by
  obtain ⟨w0, plan, tally0, tally, hst, rfl⟩ := stages_of_run (by simp) hdelete
  obtain ⟨w1, plan', tally1, tally', hst', rfl⟩ := stages_of_run (by simp) htrash
  have hplans : plan = plan' := Except.ok.inj (hst.planned.symm.trans hst'.planned)
  subst hplans
  have hrewritten := hst.rewritten.symm.trans hst'.rewritten
  obtain ⟨htally, rfl⟩ := Prod.mk.inj hrewritten
  obtain rfl := Except.ok.inj htally
  obtain ⟨-, horphan, hremove⟩ := (planned hst.planned).names ⟨.delete, rewrite⟩
  obtain ⟨rfl, hsame⟩ := agree_discard horphan hremove (Eq.refl (s.view w0.disk)) tally wd tally' wt
    hst.discarded hst'.discarded
  refine ⟨fun q hq => ?_, rfl⟩
  rw [← s.view_of_prefix hq, ← s.view_of_prefix hq, hsame]

/-- In trash mode the files that vanish are in the trash, and the rest of the trash is as it was. -/
theorem trashed_of_run {trashed : SweepReport} {wt : World}
    (hrun : run (sweep c s live ⟨.trash, rewrite⟩) w = (.ok trashed, wt)) :
    (∀ q b, s.objectsDir <+: q →
      (sweep c s live ⟨.trash, rewrite⟩).Passes answer (Vanishes q b) w →
        wt.disk.file (trashPath s q) = some b) ∧
    ∀ p, s.root ++ [trashDir] <+: p → (∀ q b, s.objectsDir <+: q →
      (sweep c s live ⟨.trash, rewrite⟩).Passes answer (Vanishes q b) w → p ≠ trashPath s q) →
        wt.disk.file p = w.disk.file p ∧
          ((w.disk.node p).isSome → wt.disk.node p = w.disk.node p) := by
  obtain ⟨w0, plan, tally0, tally, hst, rfl⟩ := stages_of_run (by simp) hrun
  obtain ⟨-, horphan, hremove⟩ := (planned hst.planned).names ⟨.trash, rewrite⟩
  have hrelocated := relocated_of_discard horphan hremove rfl hst.discarded
  have hvanishes : ∀ q b, s.objectsDir <+: q → (_ ↔ _) := fun q b hq =>
    hst.vanishes_iff (q := q) (b := b) (by simp) hq
  constructor
  · intro q b hq hpass
    obtain ⟨hwas, hgone⟩ := (hvanishes q b hq).mp hpass
    exact hrelocated.moved q b hq hwas hgone
  · intro p hp hother
    have hfirst : w0.disk.node p = w.disk.node p := by
      have hrewritten : (run ((rewrites plan ⟨.trash, rewrite⟩).foldlM (rewritePack c s)
          ⟨0, 0, 0, 0⟩) w).2.disk.node p = w.disk.node p := node_trash_rewrites hp
      rwa [hst.rewritten] at hrewritten
    have hkept := hrelocated.kept p hp fun q b hq hwas hgone =>
      hother q b hq ((hvanishes q b hq).mpr ⟨hwas, hgone⟩)
    rw [hfirst, Tree.file_congr hfirst] at hkept
    exact hkept

/-- The two modes of a sweep from one state. Where both return, the stores are the same and so are
the reports, but for the mode and the trash. Where the trash mode returns, each file that a step
took away is at its mirrored path with the bytes it had then, and all other entries of the trash
are as they were. An error that is not of a file operation is the same in both modes, and no path
escapes the root. -/
theorem sweep_modes (c : Crates) (s : BlobStore) (live : Finset Hash) (rewrite : Bool) (w : World) :
    (∀ deleted wd trashed wt, run (sweep c s live ⟨.delete, rewrite⟩) w = (.ok deleted, wd) →
      run (sweep c s live ⟨.trash, rewrite⟩) w = (.ok trashed, wt) →
      (∀ q, s.objectsDir <+: q → wt.disk.node q = wd.disk.node q) ∧
        trashed = { deleted with mode := .trash, trash := some (s.root ++ [trashDir]) }) ∧
    (∀ trashed wt, run (sweep c s live ⟨.trash, rewrite⟩) w = (.ok trashed, wt) →
      (∀ q b, s.objectsDir <+: q →
        (sweep c s live ⟨.trash, rewrite⟩).Passes answer (Vanishes q b) w →
          wt.disk.file (trashPath s q) = some b) ∧
      ∀ p, s.root ++ [trashDir] <+: p → (∀ q b, s.objectsDir <+: q →
        (sweep c s live ⟨.trash, rewrite⟩).Passes answer (Vanishes q b) w → p ≠ trashPath s q) →
          wt.disk.file p = w.disk.file p ∧
            ((w.disk.node p).isSome → wt.disk.node p = w.disk.node p)) ∧
    (∀ e w', ¬ IsIo e → (run (sweep c s live ⟨.delete, rewrite⟩) w = (.error e, w') ↔
      run (sweep c s live ⟨.trash, rewrite⟩) w = (.error e, w'))) ∧
    ∀ x, (run (sweep c s live ⟨.trash, rewrite⟩) w).1 ≠ .error (.gcPathEscape x) := by
  refine ⟨fun _ _ _ _ => same_of_both, fun _ _ => trashed_of_run, fun e w' he => ⟨?_, ?_⟩, ?_⟩
  · intro hrun
    exact (sweep_error_modes (by decide) (by decide) he hrun).1
  · intro hrun
    exact (sweep_error_modes (by decide) (by decide) he hrun).1
  · intro x hescape
    have hno : ¬ IsIo (.gcPathEscape x) := by
      rintro ⟨k, hk⟩
      cases hk
    have hrun : run (sweep c s live ⟨.trash, rewrite⟩) w = (.error (.gcPathEscape x), _) :=
      Prod.ext hescape rfl
    obtain ⟨-, hio | ⟨k, hk⟩⟩ := sweep_error_modes (by decide) (show SweepMode.trash ≠ .dryRun by decide)
      hno hrun
    · exact hno hio
    · cases hk

/-- Both modes on a store whose one pack is garbage. -/
theorem sweep_modes_packed : ∃ deleted wd trashed wt,
    run (sweep Concrete.crates (Concrete.store false) ∅ ⟨.delete, true⟩)
      ⟨Concrete.packedDisk, .empty⟩ = (.ok deleted, wd) ∧
    run (sweep Concrete.crates (Concrete.store false) ∅ ⟨.trash, true⟩)
      ⟨Concrete.packedDisk, .empty⟩ = (.ok trashed, wt) ∧
    trashed = { deleted with
      mode := .trash, trash := some ((Concrete.store false).root ++ [trashDir]) } := by
  have hok : (run (sweep Concrete.crates (Concrete.store false) ∅ ⟨.delete, true⟩)
        ⟨Concrete.packedDisk, .empty⟩).1.isOk = true ∧
      (run (sweep Concrete.crates (Concrete.store false) ∅ ⟨.trash, true⟩)
        ⟨Concrete.packedDisk, .empty⟩).1.isOk = true := by
    decide +kernel
  obtain ⟨deleted, hdelete⟩ := run_eq_ok _ _ hok.1
  obtain ⟨trashed, htrash⟩ := run_eq_ok _ _ hok.2
  have hmodes := sweep_modes Concrete.crates (Concrete.store false) ∅ true
    ⟨Concrete.packedDisk, .empty⟩
  exact ⟨deleted, _, trashed, _, hdelete, htrash, (hmodes.1 _ _ _ _ hdelete htrash).2⟩

end Gc

end CasKit
