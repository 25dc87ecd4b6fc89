import CasKit.Reports

/-!
# Counting the loose blobs

`blob_count` and `total_size` walk the same two levels as `list_blobs`. On every disk the three
agree about which files there are, and a sweep takes off both counts what its plan says.
-/
namespace CasKit
open Effects Files Codec

namespace Counting
variable (s : BlobStore)

section Walk
variable {β : Type} (f : β → Name × Name → Action CasError β)

/-- The regular files of one bucket, one after another. -/
def walkBucket (bucket : Name) (acc : β) (subEntries : List DirEntry) : Action CasError β :=
  subEntries.foldlM (fun acc sub => if sub.isDir then .ret acc else f acc (bucket, sub.name)) acc

def walkStep (acc : β) (entry : DirEntry) : Action CasError β :=
  if entry.isDir then
    if entry.name = packDirName then .ret acc
    else do
      let subEntries ← ioCas (readDirectory (s.objectsDir ++ [entry.name]))
      walkBucket f entry.name acc subEntries
  else .ret acc

/-- The loop that the two functions share: every file two levels down, but for the packs. -/
def walk (acc : β) : Action CasError β := do
  let there ← pathExists s.objectsDir
  if there then
    let entries ← ioCas (readDirectory s.objectsDir)
    entries.foldlM (walkStep s f) acc
  else return acc

end Walk

/-- The total number of loose blobs. -/
def blobCount : Action CasError ℕ := walk s (fun count _ => return count + 1) 0

/-- The total size of all loose blobs on disk. -/
def totalSize : Action CasError ℕ :=
  walk s (fun total n => do
    let len ← ioCas (fileLength (s.objectsDir ++ [n.1, n.2]))
    return total + len) 0

/-! ## The walk -/

section Walk
variable {s} {t : Tree} {β : Type} {f : β → Name × Name → Action CasError β}

theorem walkBucket_eq (bucket : Name) (acc : β) (subs : List DirEntry) :
    walkBucket f bucket acc subs = (BlobStore.filesOf bucket subs).foldlM f acc := by
  unfold walkBucket BlobStore.filesOf
  induction subs generalizing acc with
  | nil => rfl
  | cons sub subs ih =>
    cases hd : sub.isDir with
    | true => simpa [hd] using ih acc
    | false => simp [hd, ih]

theorem walkStep_reads (hf : ∀ acc n, (f acc n).Uses Request.Reads) (acc : β) (e : DirEntry) :
    (walkStep s f acc e).Uses Request.Reads := by
  unfold walkStep
  split_ifs
  · trivial
  · refine (ioCas_reads (readDirectory_reads _)).bind fun subs => ?_
    rw [walkBucket_eq]
    exact Prog.Uses.foldlM hf _ _
  · trivial

theorem peek_walkStep {e : DirEntry} (acc : β) (he : e ∈ BlobStore.entriesOn t s.objectsDir) :
    peek (walkStep s f acc e) t = peek ((s.filesBelow t e).foldlM f acc) t := by
  unfold walkStep BlobStore.filesBelow
  cases hdir : e.isDir with
  | false => simp
  | true =>
    by_cases hpack : e.name = packDirName
    · simp [hpack]
    · obtain ⟨subs, hsubs⟩ := Tree.readDir_ok (.inr (BlobStore.node_of_entry he hdir))
      rw [if_pos rfl, if_neg hpack, peek_bind (ioCas_reads (readDirectory_reads _)), peek_ioCas,
        peek_readDirectory, hsubs, if_pos ⟨rfl, hpack⟩, BlobStore.entriesOn, hsubs]
      show peek (walkBucket f e.name acc subs) t = _
      rw [walkBucket_eq]
      rfl

theorem peek_foldlM_walkStep (hf : ∀ acc n, (f acc n).Uses Request.Reads)
    {entries : List DirEntry} (acc : β)
    (hentries : ∀ e ∈ entries, e ∈ BlobStore.entriesOn t s.objectsDir) :
    peek (entries.foldlM (walkStep s f) acc) t =
      peek ((entries.flatMap (s.filesBelow t)).foldlM f acc) t := by
  induction entries generalizing acc with
  | nil => rfl
  | cons e entries ih =>
    have hrest := fun acc => ih acc fun e' he' => hentries e' (List.mem_cons_of_mem _ he')
    rw [List.foldlM_cons, peek_bind (walkStep_reads hf _ _),
      peek_walkStep acc (hentries e List.mem_cons_self), List.flatMap_cons, List.foldlM_append,
      peek_bind (Prog.Uses.foldlM hf _ _)]
    simp only [hrest]

/-- The walk goes through the files that a listing looks at. -/
theorem peek_walk (hf : ∀ acc n, (f acc n).Uses Request.Reads) (hdir : t.file s.objectsDir = none)
    (acc : β) : peek (walk s f acc) t = peek ((s.twoDown t).foldlM f acc) t := by
  rw [walk, peek_bind (pathExists_reads _), peek_pathExists]
  show peek (if _ then _ else _) t = _
  cases hn : t.node s.objectsDir with
  | none =>
    have hex : t.exists s.objectsDir = false := (Tree.exists_eq_false s.objectsDir_ne_nil).mpr hn
    have hnot : ¬ t.IsDir s.objectsDir := by simp [Tree.IsDir, s.objectsDir_ne_nil, hn]
    have hread : t.readDir s.objectsDir = .error .notFound := by simp [Tree.readDir, hnot, hn]
    rw [hex, BlobStore.twoDown, BlobStore.entriesOn, hread]
    rfl
  | some n =>
    cases n with
    | file b => rw [Tree.file_eq_some.mpr hn] at hdir; cases hdir
    | dir =>
      have hex : t.exists s.objectsDir = true := by simp [Tree.exists, hn]
      obtain ⟨entries, hes⟩ := Tree.readDir_ok (.inr hn)
      have hon : BlobStore.entriesOn t s.objectsDir = entries := by rw [BlobStore.entriesOn, hes]; rfl
      rw [hex]
      show peek (ioCas (readDirectory s.objectsDir) >>= _) t = _
      rw [peek_bind (ioCas_reads (readDirectory_reads _)), peek_ioCas, peek_readDirectory, hes]
      show peek (entries.foldlM (walkStep s f) acc) t = _
      rw [peek_foldlM_walkStep hf acc (by simp [hon]), BlobStore.twoDown, hon]

/-- Where a file is in the way, the walk fails as a listing does. -/
theorem peek_walk_error {b : Bytes} (hfile : t.file s.objectsDir = some b) (acc : β) :
    peek (walk s f acc) t = .error (.io .notADirectory) := by
  have hnode := Tree.file_eq_some.mp hfile
  have hnot : ¬ t.IsDir s.objectsDir := by simp [Tree.IsDir, s.objectsDir_ne_nil, hnode]
  have hread : t.readDir s.objectsDir = .error .notADirectory := by simp [Tree.readDir, hnot, hnode]
  rw [walk, peek_bind (pathExists_reads _), peek_pathExists, Tree.exists_of_file hfile]
  show peek (ioCas (readDirectory s.objectsDir) >>= _) t = _
  rw [peek_bind (ioCas_reads (readDirectory_reads _)), peek_ioCas, peek_readDirectory, hread]
  rfl

end Walk

/-! ## The counts -/

section Counts
variable {s} {t : Tree} {α : Type}

/-- Adding up what each element contributes. -/
theorem peek_foldlM_add {f : ℕ → α → Action CasError ℕ} {g : α → ℕ}
    (hf : ∀ acc x, (f acc x).Uses Request.Reads) {l : List α}
    (hl : ∀ x ∈ l, ∀ acc, peek (f acc x) t = .ok (acc + g x)) (acc : ℕ) :
    peek (l.foldlM f acc) t = .ok (acc + (l.map g).sum) := by
  induction l generalizing acc with
  | nil => rfl
  | cons x l ih =>
    have hrest := ih (fun x' hx' => hl x' (List.mem_cons_of_mem _ hx')) (acc + g x)
    rw [List.foldlM_cons, peek_bind (hf _ _), hl x List.mem_cons_self acc]
    show peek (l.foldlM f (acc + g x)) t = _
    rw [hrest, List.map_cons, List.sum_cons, Nat.add_assoc]

theorem peek_blobCount (hdir : t.file s.objectsDir = none) :
    peek (blobCount s) t = .ok (s.twoDown t).length := by
  have hreads : ∀ (count : ℕ) (_ : Name × Name),
      (return count + 1 : Action CasError ℕ).Uses Request.Reads := fun _ _ => trivial
  have hone : ∀ n ∈ s.twoDown t, ∀ count : ℕ,
      peek (return count + 1 : Action CasError ℕ) t = .ok (count + 1) := fun _ _ _ => rfl
  rw [blobCount, peek_walk hreads hdir, peek_foldlM_add hreads hone 0]
  simp

theorem peek_totalSize (hdir : t.file s.objectsDir = none) : peek (totalSize s) t =
    .ok (((s.twoDown t).map s.pathOf).map (Gc.fileSize t.node)).sum := by
  have hreads : ∀ (total : ℕ) (n : Name × Name), Prog.Uses Request.Reads (do
      let len ← ioCas (fileLength (s.objectsDir ++ [n.1, n.2]))
      return total + len : Action CasError ℕ) :=
    fun total n => (ioCas_reads (fileLength_reads _)).bind fun _ => trivial
  have hsize : ∀ n ∈ s.twoDown t, ∀ total : ℕ, peek (do
      let len ← ioCas (fileLength (s.objectsDir ++ [n.1, n.2]))
      return total + len : Action CasError ℕ) t =
        .ok (total + Gc.fileSize t.node (s.pathOf n)) := by
    intro n hn total
    obtain ⟨-, b, hb⟩ := (s.mem_twoDown n).mp hn
    have hlen : t.fileLen (s.objectsDir ++ [n.1, n.2]) = _ :=
      Gc.fileLen_eq (by simp) (by rw [hb]; rfl)
    rw [peek_bind (ioCas_reads (fileLength_reads _)), peek_ioCas, peek_fileLength, hlen]
    rfl
  rw [totalSize, peek_walk hreads hdir, peek_foldlM_add hreads hsize 0, Nat.zero_add, List.map_map]
  rfl

theorem peek_listBlobs_error {b : Bytes} (hfile : t.file s.objectsDir = some b) :
    peek s.listBlobs t = .error (.io .notADirectory) := by
  have hnode := Tree.file_eq_some.mp hfile
  have hnot : ¬ t.IsDir s.objectsDir := by simp [Tree.IsDir, s.objectsDir_ne_nil, hnode]
  have hread : t.readDir s.objectsDir = .error .notADirectory := by simp [Tree.readDir, hnot, hnode]
  rw [BlobStore.listBlobs, peek_bind (pathExists_reads _), peek_pathExists,
    Tree.exists_of_file hfile]
  show peek (ioCas (readDirectory s.objectsDir) >>= _) t = _
  rw [peek_bind (ioCas_reads (readDirectory_reads _)), peek_ioCas, peek_readDirectory, hread]
  rfl

/-- The three walks fail together, where a file is in the way. Otherwise a listing has the files
that are counted, but for those whose names are no hash. -/
theorem walks_agree (s : BlobStore) (t : Tree) :
    (peek s.listBlobs t = .error (.io .notADirectory) ∧
      peek (blobCount s) t = .error (.io .notADirectory) ∧
      peek (totalSize s) t = .error (.io .notADirectory)) ∨
    ∃ hashes, peek s.listBlobs t = .ok hashes ∧
      peek (blobCount s) t =
        .ok (hashes.length + ((s.twoDown t).filter fun n => (glued n).isNone).length) := by
  cases hdir : t.file s.objectsDir with
  | some b => exact .inl ⟨peek_listBlobs_error hdir, peek_walk_error hdir 0, peek_walk_error hdir 0⟩
  | none =>
    refine .inr ⟨_, s.peek_listBlobs hdir, ?_⟩
    rw [peek_blobCount hdir, List.length_insertionSort]
    congr 1
    induction s.twoDown t with
    | nil => rfl
    | cons n l ih =>
      cases hn : glued n with
      | none => simp only [List.filterMap_cons, List.filter_cons, hn, Option.isNone_none, if_true,
          List.length_cons, ih]; omega
      | some h => simp only [List.filterMap_cons, List.filter_cons, hn, Option.isNone_some,
          Bool.false_eq_true, if_false, List.length_cons, ih]; omega

end Counts

/-! ## Stores in order -/

section Ready
variable {s} {t : Tree} {c : Crates} {B : Set Bytes} {T : Tiers.Store Hash} {w w' : World}
  {live : Finset Hash} {options : Gc.SweepOptions} {report : Gc.SweepReport}

theorem bucket_of_packFile {n : Name × Name} {name : Name}
    (hp : s.pathOf n = s.packDir ++ [name]) : n.1 = packDirName := by
  rw [BlobStore.pathOf, s.packDir_eq, List.append_assoc] at hp
  simpa using (List.cons.inj (List.append_cancel_left hp)).1

/-- The files that are counted are the loose files. -/
theorem perm_twoDown (hw : Ready c s B w) (hT : s.Models (s.view w.disk) T) :
    ((s.twoDown w.disk).map s.pathOf).Perm (T.loose.toList.map s.blobPath) := by
  have hfiles : ((s.twoDown w.disk).map s.pathOf).Nodup :=
    (s.nodup_twoDown w.disk).map s.pathOf_injective
  have hloose : (T.loose.toList.map s.blobPath).Nodup :=
    T.loose.nodup_toList.map s.blobPath_injective
  refine (List.perm_ext_iff_of_nodup hfiles hloose).mpr fun p => ?_
  simp only [List.mem_map, Finset.mem_toList]
  constructor
  · rintro ⟨n, hn, rfl⟩
    obtain ⟨hpack, b, hb⟩ := (s.mem_twoDown n).mp hn
    have hview : s.view w.disk (s.pathOf n) = some (.file b) := by
      rw [BlobStore.pathOf, s.view_objectsDir_append]
      exact hb
    have hlegal := hw.sound.stocked.files _ _ hview
    generalize hp : s.pathOf n = p at hlegal hview
    cases hlegal with
    | loose hdata hraw => exact ⟨_, (hT.loose _).mpr ⟨b, hview⟩, rfl⟩
    | pack hb => exact absurd (bucket_of_packFile hp) hpack
    | idx hb => exact absurd (bucket_of_packFile hp) hpack
  · rintro ⟨h, hh, rfl⟩
    have hfile := isLoose_iff_file.mp ((hT.loose h).mp hh)
    exact ⟨_, s.mem_twoDown_blobPath.mpr hfile, (s.blobPath_eq_pathOf h).symm⟩

/-- The counts of a store in order. -/
theorem counts_ready (hw : Ready c s B w) (hT : s.Models (s.view w.disk) T) :
    peek (blobCount s) w.disk = .ok T.loose.card ∧ peek (totalSize s) w.disk =
      .ok (∑ h ∈ T.loose, Gc.fileSize (s.view w.disk) (s.blobPath h)) := by
  have hperm := perm_twoDown hw hT
  have hdir : w.disk.file s.objectsDir = none := (BlobStore.listBlobs_mem hw.tidy.looseOn.1).1
  constructor
  · have hlen := hperm.length_eq
    simp only [List.length_map, Finset.length_toList] at hlen
    rw [peek_blobCount hdir, hlen]
  · have hsize : ∀ h, Gc.fileSize w.disk.node (s.blobPath h) =
        Gc.fileSize (s.view w.disk) (s.blobPath h) :=
      fun h => (Gc.fileSize_view s.objectsDir_prefix_blobPath w.disk).symm
    rw [peek_totalSize hdir, (hperm.map _).sum_eq, List.map_map, Finset.sum_map_toList]
    simp only [Function.comp_apply, hsize]

theorem nodup_looseGarbage {plan : Gc.SweepPlan} (hplan : peek (Gc.planSweep s live) t = .ok plan) :
    plan.looseGarbage.Nodup := by
  obtain ⟨loose, ps, orphans, bytes, -, -, -, rfl⟩ := Gc.planOf_of_planSweep hplan
  have hnodup : (toBTreeSet loose).Nodup := (Gc.sorted_toBTreeSet loose).imp fun h => h.ne
  exact hnodup.filter _

/-- What the plan says about the bytes of the loose garbage. -/
theorem plan_looseGarbageBytes {plan : Gc.SweepPlan}
    (hplan : peek (Gc.planSweep s live) t = .ok plan)
    (hloose : ∀ h ∈ plan.looseGarbage, (t.node (s.blobPath h)).isSome) :
    plan.looseGarbageBytes =
      (plan.looseGarbage.map fun h => Gc.fileSize (s.view t) (s.blobPath h)).sum := by
  obtain ⟨loose, ps, hlist, hps⟩ := Gc.listed_of_planSweep hplan
  obtain ⟨orphans, -, hpeek⟩ := Gc.peek_planSweep live hlist hps
  rw [hpeek] at hplan
  cases hbytes : peek (((toBTreeSet loose).filter (· ∈ Gc.garbageSet live (toBTreeSet loose)
      (Gc.packStates t.node live ps))).foldlM (Gc.addLooseBytes s) 0) t with
  | error e =>
    rw [hbytes] at hplan
    cases hplan
  | ok bytes =>
    rw [hbytes] at hplan
    obtain rfl := Except.ok.inj hplan
    have hsize : ∀ h ∈ (toBTreeSet loose).filter (· ∈ Gc.garbageSet live (toBTreeSet loose)
        (Gc.packStates t.node live ps)), ∀ total : ℕ, peek (Gc.addLooseBytes s total h) t =
          .ok (total + Gc.fileSize (s.view t) (s.blobPath h)) := by
      intro h hh total
      have hlen : t.fileLen (s.blobPath h) = _ :=
        Gc.fileLen_eq (by simp [s.blobPath_eq]) (hloose h hh)
      rw [Gc.addLooseBytes, Gc.loosePath_eq, peek_bind (ioCas_reads (fileLength_reads _)), peek_ioCas,
        peek_fileLength, hlen, Gc.fileSize_view s.objectsDir_prefix_blobPath]
      rfl
    rw [peek_foldlM_add Gc.addLooseBytes_reads hsize 0, Nat.zero_add] at hbytes
    exact (Except.ok.inj hbytes).symm

end Ready

/-! ## What a sweep counts -/

section Tally
variable {s} {c : Crates}

def counts (tally : Gc.Tally) : ℕ × ℕ × ℕ :=
  (tally.looseRemoved, tally.packsRemoved, tally.packsRewritten)

theorem rewritePack_yields (tally : Gc.Tally) (r : Gc.PackRewrite) :
    (Gc.rewritePack c s tally r).Yields fun tally' => counts tally' = counts tally + (0, 0, 1) := by
  refine (Prog.Yields.trivial _).bind fun _ _ => (Prog.Yields.trivial _).bind fun _ _ => ?_
  refine (Prog.Yields.trivial _).bind fun _ _ => (Prog.Yields.trivial _).bind fun _ _ => ?_
  refine (Prog.Yields.trivial _).bind fun _ _ => (Prog.Yields.trivial _).bind fun _ _ => ?_
  exact (Prog.Yields.trivial _).bind fun _ _ => rfl

theorem removeLoose_yields (mode : Gc.SweepMode) (tally : Gc.Tally) (h : Hash) :
    (Gc.removeLoose s mode tally h).Yields fun tally' =>
      counts tally' = counts tally + (1, 0, 0) :=
  (Prog.Yields.trivial _).bind fun _ _ => rfl

theorem removeOrphan_yields (mode : Gc.SweepMode) (tally : Gc.Tally) (p : Path) :
    (Gc.removeOrphan s mode tally p).Yields fun tally' => counts tally' = counts tally + 0 :=
  (Prog.Yields.trivial _).bind fun _ _ => rfl

theorem removeIfThere_yields (mode : Gc.SweepMode) (tally : Gc.Tally) (p : Path) :
    (Gc.removeIfThere s mode tally p).Yields fun tally' => counts tally' = counts tally + 0 := by
  refine (Prog.Yields.trivial _).bind fun there _ => ?_
  cases there with
  | true => exact removeOrphan_yields mode tally p
  | false => rfl

theorem removePack_yields (mode : Gc.SweepMode) (tally : Gc.Tally) (p : Path) :
    (Gc.removePack s mode tally p).Yields fun tally' => counts tally' = counts tally + (0, 1, 0) := by
  refine (Prog.Yields.foldlM_add (removeIfThere_yields mode) _ _).bind fun tally' htally' => ?_
  show counts tally' + (0, 1, 0) = _
  rw [htally', smul_zero, add_zero]

/-- The counters of an executed plan are the lengths of its lists. -/
theorem execute_yields (plan : Gc.SweepPlan) (options : Gc.SweepOptions) :
    (Gc.execute c s plan options).Yields fun tally => counts tally =
      (plan.looseGarbage.length, (Gc.removals plan options).length,
        (Gc.rewrites plan options).length) := by
  refine (Prog.Yields.foldlM_add rewritePack_yields _ _).bind fun tally1 h1 => ?_
  refine (Prog.Yields.foldlM_add (removeLoose_yields _) _ _).bind fun tally2 h2 => ?_
  refine (Prog.Yields.foldlM_add (removeOrphan_yields _) _ _).bind fun tally3 h3 => ?_
  refine (Prog.Yields.foldlM_add (removePack_yields _) _ _).bind fun tally4 h4 => ?_
  refine (Prog.Yields.trivial _).bind fun _ _ => ?_
  show counts tally4 = _
  rw [h4, h3, h2, h1]
  simp [counts, Gc.rewrites]

/-- A report of a sweep that was carried out counts what its plan lists. -/
theorem sweep_yields (live : Finset Hash) (options : Gc.SweepOptions) :
    (Gc.sweep c s live options).Yields fun report => options.mode ≠ .dryRun →
      report.looseRemoved = report.plan.looseGarbage.length ∧
      report.packsRemoved = (Gc.removals report.plan options).length ∧
      report.packsRewritten = (Gc.rewrites report.plan options).length := by
  refine (Prog.Yields.trivial _).bind fun plan _ => ?_
  by_cases hdry : options.mode = .dryRun
  · simp [hdry, Prog.Yields]
  · rw [if_neg hdry]
    refine (execute_yields plan options).bind fun tally htally _ => ?_
    simpa [counts, Prod.ext_iff] using htally

end Tally

section Sweep
variable {s} {c : Crates} {B : Set Bytes} {T : Tiers.Store Hash} {w w' : World}
  {live : Finset Hash} {options : Gc.SweepOptions} {report : Gc.SweepReport}

/-- A sweep that is carried out takes off both counts the loose garbage of its plan, file by file
and byte by byte, and reports as many files and packs as its plan lists. -/
theorem counts_after_sweep (hz : ZstdSound c) (hinj : Set.InjOn (hashBytes c) B)
    (hw : Ready c s B w) (hT : s.Models (s.view w.disk) T)
    (hfits : SweepFits c s B live options w.disk) (hmode : options.mode ≠ .dryRun)
    (hrun : run (Gc.sweep c s live options) w = (.ok report, w')) :
    (∃ count size, peek (blobCount s) w'.disk = .ok count ∧ peek (totalSize s) w'.disk = .ok size ∧
      peek (blobCount s) w.disk = .ok (count + report.looseRemoved) ∧
      peek (totalSize s) w.disk = .ok (size + report.plan.looseGarbageBytes)) ∧
    report.looseRemoved = report.plan.looseGarbage.length ∧
      report.packsRemoved = (Gc.removals report.plan options).length ∧
      report.packsRewritten = (Gc.rewrites report.plan options).length := by
  have hreport := (sweep_yields (c := c) (s := s) live options).exec_ok hrun hmode
  refine ⟨?_, hreport⟩
  obtain ⟨hplan, -, -⟩ := run_sweep_report hrun
  have hdone := (Gc.sweep_done (hw.separate hz hinj hplan hfits) hrun).2 hmode
  obtain ⟨hw', U, hU, hstep⟩ := hw.sweep hz hinj hT hfits hrun
  rw [if_neg hmode] at hstep
  have hloose : U.loose = T.loose ∩ live := by
    cases hstep
    rfl
  obtain ⟨hcount', hsize'⟩ := counts_ready hw' hU
  obtain ⟨hcount, hsize⟩ := counts_ready hw hT
  have hgarbage : ∀ h, h ∈ report.plan.looseGarbage ↔ h ∈ T.loose \ live := by
    intro h
    rw [(Gc.planned hplan).looseGarbage, hw.tidy.layout.namedLoose_iff, Finset.mem_sdiff, hT.loose]
  have hsame : ∀ h ∈ U.loose, Gc.fileSize (s.view w'.disk) (s.blobPath h) =
      Gc.fileSize (s.view w.disk) (s.blobPath h) := by
    intro h hh
    rw [hloose, Finset.mem_inter] at hh
    exact BlobStore.fileSize_congr (hdone.partly.blobPath_eq hh.2)
  have hset : report.plan.looseGarbage.toFinset = T.loose \ live := by
    ext h
    rw [List.mem_toFinset, hgarbage]
  have hnodup := nodup_looseGarbage hplan
  have hbytes : report.plan.looseGarbageBytes =
      ∑ h ∈ T.loose \ live, Gc.fileSize (s.view w.disk) (s.blobPath h) := by
    rw [plan_looseGarbageBytes hplan, ← List.sum_toFinset _ hnodup, hset]
    intro h hh
    have hmem := (Finset.mem_sdiff.mp ((hgarbage h).mp hh)).1
    obtain ⟨b, hb⟩ := (hT.loose h).mp hmem
    rw [← s.view_blobPath, hb]
    rfl
  refine ⟨_, _, hcount', hsize', ?_, ?_⟩
  · rw [hcount, hreport.1, ← List.toFinset_card_of_nodup hnodup, hset, hloose,
      Finset.card_inter_add_card_sdiff]
  · rw [hsize, hbytes, Finset.sum_congr rfl hsame, hloose, Finset.sum_inter_add_sum_sdiff]

/-- One of two loose blobs goes. -/
theorem counts_after_sweep_one : ∃ report w' count,
    run (Gc.sweep Concrete.crates (opened CasGc.reportCli.root)
      {hashBytes Concrete.crates (text "a")} ⟨.delete, true⟩) ⟨CasGc.reportWorld.disk, .empty⟩ =
        (.ok report, w') ∧
    peek (blobCount (opened CasGc.reportCli.root)) w'.disk = .ok count ∧
    peek (blobCount (opened CasGc.reportCli.root)) CasGc.reportWorld.disk =
      .ok (count + report.looseRemoved) := by
  obtain ⟨hinj, hw, hT⟩ := CasGc.reportWorld_ready
  have hrewrites : ∀ plan ∈ (peek (Gc.planSweep (opened CasGc.reportCli.root)
      {hashBytes Concrete.crates (text "a")}) CasGc.reportWorld.disk).toOption,
        Gc.rewrites plan ⟨.delete, true⟩ = [] := by
    decide +kernel
  have hfits : SweepFits Concrete.crates (opened CasGc.reportCli.root) CasGc.reportBytes
      {hashBytes Concrete.crates (text "a")} ⟨.delete, true⟩ CasGc.reportWorld.disk := by
    intro plan hplan r hr
    rw [hrewrites plan (by simp [hplan, Except.toOption])] at hr
    cases hr
  have hok : (run (Gc.sweep Concrete.crates (opened CasGc.reportCli.root)
      {hashBytes Concrete.crates (text "a")} ⟨.delete, true⟩)
        ⟨CasGc.reportWorld.disk, .empty⟩).1.isOk = true := by
    decide +kernel
  cases hrun : run (Gc.sweep Concrete.crates (opened CasGc.reportCli.root)
      {hashBytes Concrete.crates (text "a")} ⟨.delete, true⟩) ⟨CasGc.reportWorld.disk, .empty⟩ with
  | mk res w' =>
    rw [hrun] at hok
    cases res with
    | error e => cases hok
    | ok report =>
      obtain ⟨⟨count, size, hcount, -, hbefore, -⟩, -⟩ :=
        counts_after_sweep Concrete.zstdSound hinj hw hT hfits (by simp) hrun
      exact ⟨report, w', count, rfl, hcount, hbefore⟩

end Sweep

end Counting

end CasKit
