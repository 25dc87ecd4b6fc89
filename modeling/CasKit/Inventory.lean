import CasKit.Coverage
import CasKit.Listing
import CasKit.Reading

/-!
# What a plan says about the store

`plan_sweep` only looks. Its lists are characterised by what the store shows: garbage is what
is not in the live set, an orphan is half of a pack pair, and a pack with garbage keeps the
live hashes that are neither loose, nor in a pack without garbage, nor in an earlier pack with
garbage.
-/
namespace CasKit
open Effects Files Codec

namespace BlobStore
variable (s : BlobStore) (v : Nodes) (live : Finset Hash)

/-- Some hash of the pack is not live. -/
def HasGarbage (p : Path) : Prop := ∃ g, g ∉ live ∧ s.Lists v p g

/-- A live hash that survives without any rewrite: it is loose or in a pack without garbage. -/
def Covered (h : Hash) : Prop :=
  h ∈ live ∧ (s.NamedLoose v h ∨ ∃ p, s.Lists v p h ∧ ¬ s.HasGarbage v live p)

/-- The pack with garbage that is to keep the hash: the first one in path order that has it,
if nothing covers it. -/
structure Kept (p : Path) (h : Hash) : Prop where
  garbage : s.HasGarbage v live p
  lists : s.Lists v p h
  mem : h ∈ live
  uncovered : ¬ s.Covered v live h
  first : ∀ q, q < p → s.HasGarbage v live q → ¬ s.Lists v q h

/-- A pack without an index. -/
def OrphanPack (p : Path) : Prop := s.PackEntry v p ∧ v (idxOf p) = none

/-- An index without a pack. -/
def OrphanIdx (q : Path) : Prop :=
  ∃ name, q = s.packDir ++ [name] ∧ endsWith (fromUtf8Lossy name) (dot :: idxExt) = true ∧
    (v q).isSome ∧ v (withExtension q packExt) = none

end BlobStore

namespace Gc

/-- What a plan says, in terms of what the store shows. -/
structure Planned (s : BlobStore) (v : Nodes) (live : Finset Hash) (plan : SweepPlan) : Prop where
  looseGarbage : ∀ h, h ∈ plan.looseGarbage ↔ s.NamedLoose v h ∧ h ∉ live
  orphanFiles : ∀ q, q ∈ plan.orphanFiles ↔ s.OrphanPack v q ∨ s.OrphanIdx v q
  packsToRemove : ∀ p, p ∈ plan.packsToRemove ↔
    s.HasGarbage v live p ∧ ∀ h, ¬ s.Kept v live p h
  keep : ∀ r ∈ plan.packsToRewrite, ∀ h, h ∈ r.keep ↔ s.Kept v live r.pack h
  keep_ne_nil : ∀ r ∈ plan.packsToRewrite, r.keep ≠ []
  keep_sorted : ∀ r ∈ plan.packsToRewrite, r.keep.Pairwise (· < ·)
  packsToRewrite : ∀ p h, s.Kept v live p h → ∃ r ∈ plan.packsToRewrite, r.pack = p
  garbage : plan.garbage = 0 ↔ ∀ h, s.Present v h → h ∈ live

section Scan
variable {s : BlobStore} {t : Tree} {live : Finset Hash} {p : Path}

def fileSize (v : Nodes) (p : Path) : ℕ := ((bytesAt v p).map List.length).getD 0

/-- A pack as the scan records it. -/
def packState (v : Nodes) (live : Finset Hash) (p : Path) (i : PackIndex) : PackState :=
  ⟨p, toBTreeSet i.hashes, (toBTreeSet i.hashes).filter (· ∉ live),
    fileSize v p + fileSize v (idxOf p)⟩

def packStates (v : Nodes) (live : Finset Hash) (ps : List Path) : List PackState :=
  ps.filterMap fun p => (indexAt v p).map (packState v live p)

theorem scanPack_reads (scan : Scan) (p : Path) : (scanPack live scan p).Uses Request.Reads := by
  refine (pathExists_reads _).bind fun there => ?_
  cases there with
  | false => trivial
  | true =>
    refine (load_reads _).attempt.bind fun loaded => ?_
    cases loaded with
    | error e => trivial
    | ok i =>
      refine (ioCas_reads (fileLength_reads _)).bind fun _ => ?_
      exact (ioCas_reads (fileLength_reads _)).bind fun _ => trivial

theorem fileLen_eq {q : Path} (hne : q ≠ []) (hq : (t.node q).isSome) :
    t.fileLen q = .ok (fileSize t.node q) := by
  obtain ⟨n, hn⟩ := Option.isSome_iff_exists.mp hq
  unfold Tree.fileLen fileSize
  cases n with
  | dir =>
    have hd : t.IsDir q := .inr hn
    simp [hd, bytesAt, hn]
  | file b =>
    have hd : ¬ t.IsDir q := by simp [Tree.IsDir, hne, hn]
    simp [hd, Tree.file_eq_some.mpr hn, bytesAt, hn]

/-- The three classes of packs. -/
theorem peek_scanPack (scan : Scan) (hne : p ≠ []) (hp : (t.node p).isSome) :
    peek (scanPack live scan p) t = .ok (
      if t.node (idxOf p) = none then { scan with orphanFiles := scan.orphanFiles ++ [p] }
      else match indexAt t.node p with
        | none => { scan with unreadablePacks := scan.unreadablePacks ++ [p] }
        | some i => { scan with packs := scan.packs ++ [packState t.node live p i] }) := by
  have hidx : idxOf p ≠ [] := idxOf_ne_nil p hne
  rw [scanPack, peek_bind (pathExists_reads _), peek_pathExists]
  show peek (if (!t.exists (idxOf p)) = true then _ else _) t = _
  cases hn : t.node (idxOf p) with
  | none =>
    rw [(Tree.exists_eq_false hidx).mpr hn, if_pos rfl]
    rfl
  | some n =>
    have hex : t.exists (idxOf p) = true := by simp [Tree.exists, hn]
    rw [hex, if_neg (by simp), peek_bind (load_reads _).attempt, peek_attempt]
    cases hi : indexAt t.node p with
    | none =>
      cases hload : peek (PackIndex.load (withExtension p idxExt)) t with
      | error e => rfl
      | ok i =>
        have := peek_load_eq_ok.mp hload
        rw [show ((t.file (withExtension p idxExt)).bind _) = indexAt t.node p from rfl, hi]
          at this
        cases this
    | some i =>
      have hload : peek (PackIndex.load (withExtension p idxExt)) t = .ok i :=
        peek_load_eq_ok.mpr (show ((t.file (idxOf p)).bind _) = some i from hi)
      rw [hload]
      show peek (ioCas (fileLength p) >>= fun packLen =>
        ioCas (fileLength (idxOf p)) >>= fun idxLen => Prog.ret { scan with
          packs := scan.packs ++ [PackState.mk p (toBTreeSet i.hashes)
            ((toBTreeSet i.hashes).filter (· ∉ live)) (packLen + idxLen)] }) t = _
      rw [peek_bind (ioCas_reads (fileLength_reads _)), peek_ioCas, peek_fileLength,
        fileLen_eq hne hp]
      show peek (ioCas (fileLength (idxOf p)) >>= _) t = _
      rw [peek_bind (ioCas_reads (fileLength_reads _)), peek_ioCas, peek_fileLength,
        fileLen_eq hidx (by rw [hn]; rfl)]
      rfl

/-- The whole scan: readable packs, packs without an index, packs with a bad one. -/
theorem peek_foldlM_scanPack {ps : List Path} (hps : ∀ p ∈ ps, p ≠ [] ∧ (t.node p).isSome)
    (scan : Scan) : peek (ps.foldlM (scanPack live) scan) t = .ok {
      packs := scan.packs ++ packStates t.node live ps
      orphanFiles := scan.orphanFiles ++ ps.filter fun p => t.node (idxOf p) = none
      unreadablePacks := scan.unreadablePacks ++
        ps.filter fun p => t.node (idxOf p) ≠ none ∧ (indexAt t.node p).isNone } := by
  induction ps generalizing scan with
  | nil => simp [packStates]
  | cons p ps ih =>
    obtain ⟨hne, hp⟩ := hps p List.mem_cons_self
    have hrest := ih fun q hq => hps q (List.mem_cons_of_mem _ hq)
    rw [List.foldlM_cons, peek_bind (scanPack_reads _ _), peek_scanPack scan hne hp]
    show peek (ps.foldlM (scanPack live) _) t = _
    rw [hrest]
    cases hn : t.node (idxOf p) with
    | none =>
      have hi : indexAt t.node p = none := indexAt_eq_none_of_node hn
      simp [packStates, hi, hn]
    | some n => cases hi : indexAt t.node p <;> simp [packStates, hi, hn]

theorem scanIdx_reads (dir : Path) (names orphans : List Path) (entry : DirEntry) :
    (scanIdx dir names orphans entry).Uses Request.Reads := by
  unfold scanIdx
  dsimp only
  split_ifs with hext hmem
  · trivial
  · refine (pathExists_reads _).bind fun there => ?_
    cases there <;> trivial
  · trivial

/-- An index is an orphan exactly when its pack is not there. -/
theorem peek_scanIdx {dir : Path} {names : List Path} (orphans : List Path) (entry : DirEntry)
    (hnames : ∀ p ∈ names, (t.node p).isSome) :
    peek (scanIdx dir names orphans entry) t = .ok (
      if endsWith (fromUtf8Lossy entry.name) (dot :: idxExt) = true ∧
          t.node (withExtension (dir ++ [entry.name]) packExt) = none
      then orphans ++ [dir ++ [entry.name]] else orphans) := by
  have hpack : withExtension (dir ++ [entry.name]) packExt ≠ [] := by simp [withExtension]
  unfold scanIdx
  dsimp only
  cases hext : endsWith (fromUtf8Lossy entry.name) (dot :: idxExt) with
  | false => simp
  | true =>
    rw [if_pos rfl]
    by_cases hmem : withExtension (dir ++ [entry.name]) packExt ∈ names
    · have hsome := hnames _ hmem
      rw [if_pos hmem, if_neg]
      · rfl
      · rintro ⟨-, hnone⟩
        rw [hnone] at hsome
        cases hsome
    · rw [if_neg hmem, peek_bind (pathExists_reads _), peek_pathExists]
      show peek (if t.exists _ = true then _ else _) t = _
      cases hn : t.node (withExtension (dir ++ [entry.name]) packExt) with
      | none => rw [(Tree.exists_eq_false hpack).mpr hn]; simp
      | some n => simp [Tree.exists, hn]

theorem peek_foldlM_scanIdx {dir : Path} {names : List Path} (orphans : List Path)
    (entries : List DirEntry) (hnames : ∀ p ∈ names, (t.node p).isSome) :
    peek (entries.foldlM (scanIdx dir names) orphans) t = .ok (orphans ++
      (entries.filter fun e => endsWith (fromUtf8Lossy e.name) (dot :: idxExt) = true ∧
        t.node (withExtension (dir ++ [e.name]) packExt) = none).map
          fun e => dir ++ [e.name]) := by
  induction entries generalizing orphans with
  | nil => simp
  | cons e entries ih =>
    rw [List.foldlM_cons, peek_bind (scanIdx_reads _ _ _ _), peek_scanIdx orphans e hnames]
    show peek (entries.foldlM (scanIdx dir names) _) t = _
    rw [ih]
    by_cases he : endsWith (fromUtf8Lossy e.name) (dot :: idxExt) = true ∧
        t.node (withExtension (dir ++ [e.name]) packExt) = none
    · simp [he]
    · simp [he]

end Scan

section Plan
variable {s : BlobStore} {t : Tree} {live : Finset Hash} {loose : List Hash} {ps : List Path}

/-- The scan of a disk. -/
def scanOf (v : Nodes) (live : Finset Hash) (ps : List Path) : Scan where
  packs := packStates v live ps
  orphanFiles := ps.filter fun p => v (idxOf p) = none
  unreadablePacks := ps.filter fun p => v (idxOf p) ≠ none ∧ (indexAt v p).isNone

theorem scanOrphans_reads (packs : List PackState) (orphanFiles : List Path) :
    (scanOrphans s packs orphanFiles).Uses Request.Reads := by
  refine (pathExists_reads _).bind fun there => ?_
  cases there with
  | false => trivial
  | true =>
    refine (ioCas_reads (readDirectory_reads _)).bind fun entries => ?_
    exact Prog.Uses.foldlM (scanIdx_reads _ _) _ _

theorem addLooseBytes_reads (bytes : ℕ) (h : Hash) :
    (addLooseBytes s bytes h).Uses Request.Reads :=
  (ioCas_reads (fileLength_reads _)).bind fun _ => trivial

theorem planSweep_reads : (planSweep s live).Uses Request.Reads := by
  refine s.listBlobs_reads.bind fun loose => ?_
  refine (ioCas_reads (listPacks_reads _)).bind fun ps => ?_
  refine (Prog.Uses.foldlM scanPack_reads _ _).bind fun scan => ?_
  refine (scanOrphans_reads _ _).bind fun orphans => ?_
  exact (Prog.Uses.foldlM addLooseBytes_reads _ _).bind fun _ => trivial

/-- The index half of the orphans. -/
theorem peek_scanOrphans {packs : List PackState} {orphanFiles : List Path}
    (hdir : t.file s.packDir = none) (hpacks : ∀ p ∈ packs, (t.node p.packPath).isSome) :
    ∃ found, peek (scanOrphans s packs orphanFiles) t = .ok found ∧
      ∀ q, q ∈ found ↔ q ∈ orphanFiles ∨ s.OrphanIdx (s.view t) q := by
  have hnames : ∀ p ∈ packs.map PackState.packPath, (t.node p).isSome := by
    intro p hp
    obtain ⟨st, hst, rfl⟩ := List.mem_map.mp hp
    exact hpacks st hst
  have horphan : ∀ q, s.OrphanIdx (s.view t) q ↔ ∃ name, q = s.packDir ++ [name] ∧
      endsWith (fromUtf8Lossy name) (dot :: idxExt) = true ∧ (t.node q).isSome ∧
      t.node (withExtension q packExt) = none := by
    intro q
    have hview : ∀ name, s.view t (withExtension (s.packDir ++ [name]) packExt) =
        t.node (withExtension (s.packDir ++ [name]) packExt) := by
      intro name
      have hlast : withExtension (s.packDir ++ [name]) packExt =
          s.packDir ++ [fileStem name ++ dot :: packExt] := by simp [withExtension]
      rw [hlast, s.view_packDir_append]
    unfold BlobStore.OrphanIdx
    constructor
    · rintro ⟨name, rfl, hext, hsome, hnone⟩
      rw [s.view_packDir_append] at hsome
      rw [hview] at hnone
      exact ⟨name, rfl, hext, hsome, hnone⟩
    · rintro ⟨name, rfl, hext, hsome, hnone⟩
      exact ⟨name, rfl, hext, by rwa [s.view_packDir_append], by rwa [hview]⟩
  rw [scanOrphans, peek_bind (pathExists_reads _), peek_pathExists]
  cases hn : t.node s.packDir with
  | none =>
    have hex : t.exists s.packDir = false := (Tree.exists_eq_false s.packDir_ne_nil).mpr hn
    refine ⟨orphanFiles, by rw [hex]; rfl, fun q => ?_⟩
    rw [horphan]
    constructor
    · exact .inl
    · rintro (h | ⟨name, rfl, -, hsome, -⟩)
      · exact h
      · rw [node_append_eq_none s.packDir_ne_nil (by rw [hn]; simp)] at hsome
        cases hsome
  | some n =>
    cases n with
    | file b => rw [Tree.file_eq_some.mpr hn] at hdir; cases hdir
    | dir =>
      obtain ⟨entries, hes⟩ := Tree.readDir_ok (.inr hn)
      have hex : t.exists s.packDir = true := by simp [Tree.exists, hn]
      have hfold := @peek_foldlM_scanIdx t s.packDir _ orphanFiles entries hnames
      refine ⟨_, Eq.trans ?_ hfold, fun q => ?_⟩
      · rw [hex]
        show peek (ioCas (readDirectory s.packDir) >>= _) t = _
        rw [peek_bind (ioCas_reads (readDirectory_reads _)), peek_ioCas, peek_readDirectory, hes]
        rfl
      · rw [List.mem_append, horphan]
        refine or_congr_right ?_
        simp only [List.mem_map, List.mem_filter, decide_eq_true_eq]
        constructor
        · rintro ⟨e, ⟨he, hext, hnone⟩, rfl⟩
          obtain ⟨n, hn', -⟩ := (Tree.mem_readDir hes e).mp he
          exact ⟨e.name, rfl, hext, by rw [hn']; rfl, hnone⟩
        · rintro ⟨name, rfl, hext, hsome, hnone⟩
          obtain ⟨n, hn'⟩ := Option.isSome_iff_exists.mp hsome
          exact ⟨⟨name, n == .dir⟩, ⟨(Tree.mem_readDir hes _).mpr ⟨n, hn', rfl⟩, hext, hnone⟩,
            rfl⟩

/-- The plan of a disk, from what listing it gives. -/
theorem peek_planSweep (live : Finset Hash) (hloose : peek s.listBlobs t = .ok loose)
    (hps : peek (PackFile.listPacks s.packDir) t = .ok ps) :
    ∃ orphans : List Path, (∀ q, q ∈ orphans ↔
        s.OrphanPack (s.view t) q ∨ s.OrphanIdx (s.view t) q) ∧
      peek (planSweep s live) t =
        (peek (((toBTreeSet loose).filter (· ∈ garbageSet live (toBTreeSet loose)
          (packStates t.node live ps))).foldlM (addLooseBytes s) 0) t).map
          (planOf live (toBTreeSet loose) (scanOf t.node live ps) orphans) := by
  have hpacks : ∀ p ∈ ps, p ≠ [] ∧ (t.node p).isSome := by
    intro p hp
    obtain ⟨⟨name, rfl, -, -⟩, hsome⟩ := (mem_listPacks s.packDir_ne_nil hps p).mp hp
    exact ⟨by simp, hsome⟩
  have hdir : t.file s.packDir = none := (listPacks_ok_iff s.packDir_ne_nil).mp ⟨ps, hps⟩
  have hstates : ∀ p ∈ packStates t.node live ps, (t.node p.packPath).isSome := by
    intro st hst
    obtain ⟨p, hp, hmap⟩ := List.mem_filterMap.mp hst
    obtain ⟨i, -, rfl⟩ := Option.map_eq_some_iff.mp hmap
    exact (hpacks p hp).2
  have hscan : peek (ps.foldlM (scanPack live) ⟨[], [], []⟩) t = .ok (scanOf t.node live ps) :=
    peek_foldlM_scanPack hpacks _
  obtain ⟨orphans, horphans, hmem⟩ := @peek_scanOrphans s t (scanOf t.node live ps).packs
    (scanOf t.node live ps).orphanFiles hdir hstates
  refine ⟨orphans.insertionSort (· ≤ ·), fun q => ?_, ?_⟩
  · rw [List.mem_insertionSort, hmem]
    refine or_congr_left ?_
    simp only [scanOf, List.mem_filter, decide_eq_true_eq, BlobStore.OrphanPack,
      s.mem_listPacks_view hps]
    constructor
    · rintro ⟨hp, hn⟩
      exact ⟨hp, by rwa [s.view_idxOf hp.1]⟩
    · rintro ⟨hp, hn⟩
      exact ⟨hp, by rwa [s.view_idxOf hp.1] at hn⟩
  · rw [planSweep, peek_bind s.listBlobs_reads, hloose]
    show peek (ioCas (PackFile.listPacks s.packDir) >>= _) t = _
    rw [peek_bind (ioCas_reads (listPacks_reads _)), peek_ioCas, hps]
    show peek (ps.foldlM (scanPack live) ⟨[], [], []⟩ >>= _) t = _
    rw [peek_bind (Prog.Uses.foldlM scanPack_reads _ _), hscan]
    show peek (scanOrphans s (scanOf t.node live ps).packs (scanOf t.node live ps).orphanFiles
      >>= _) t = _
    rw [peek_bind (scanOrphans_reads _ _), horphans]
    show peek (((toBTreeSet loose).filter (· ∈ garbageSet live (toBTreeSet loose)
      (packStates t.node live ps))).foldlM (addLooseBytes s) 0 >>= _) t = _
    rw [peek_bind (Prog.Uses.foldlM addLooseBytes_reads _ _)]
    cases peek (((toBTreeSet loose).filter (· ∈ garbageSet live (toBTreeSet loose)
      (packStates t.node live ps))).foldlM (addLooseBytes s) 0) t <;> rfl

/-- In a strictly sorted list the elements before one are the smaller ones. -/
theorem mem_before_iff {α β : Type} [LinearOrder β] {f : α → β} {l pre post : List α} {a b : α}
    (hsorted : l.Pairwise fun a b => f a < f b) (hl : l = pre ++ a :: post) :
    b ∈ pre ↔ b ∈ l ∧ f b < f a := by
  subst hl
  obtain ⟨-, hright, hacross⟩ := List.pairwise_append.mp hsorted
  constructor
  · intro hb
    exact ⟨List.mem_append_left _ hb, hacross b hb a List.mem_cons_self⟩
  · rintro ⟨hb, hlt⟩
    rcases List.mem_append.mp hb with hb | hb
    · exact hb
    · rcases List.mem_cons.mp hb with rfl | hb
      · exact absurd hlt (lt_irrefl _)
      · exact absurd hlt (not_lt.mpr (List.rel_of_pairwise_cons hright hb).le)

theorem mem_packStates {st : PackState} : st ∈ packStates t.node live ps ↔
    ∃ p ∈ ps, ∃ i, indexAt t.node p = some i ∧ packState t.node live p i = st := by
  simp [packStates, List.mem_filterMap, Option.map_eq_some_iff]

theorem sorted_packStates (live : Finset Hash)
    (hps : peek (PackFile.listPacks s.packDir) t = .ok ps) :
    (packStates t.node live ps).Pairwise fun a b => a.packPath < b.packPath := by
  have hlt : ps.Pairwise (· < ·) := by
    have hand := (sorted_listPacks hps).and (nodup_listPacks hps)
    exact hand.imp fun ⟨h1, h2⟩ => lt_of_le_of_ne h1 h2
  refine hlt.filterMap _ ?_
  intro p q hpq st hst st' hst'
  obtain ⟨i, -, rfl⟩ := Option.map_eq_some_iff.mp hst
  obtain ⟨j, -, rfl⟩ := Option.map_eq_some_iff.mp hst'
  exact hpq

section Translate
variable (hloose : peek s.listBlobs t = .ok loose)
  (hps : peek (PackFile.listPacks s.packDir) t = .ok ps)
include hps

theorem lists_iff_packStates (live : Finset Hash) {p : Path} {h : Hash} : s.Lists (s.view t) p h ↔
    ∃ st ∈ packStates t.node live ps, st.packPath = p ∧ h ∈ st.hashes := by
  constructor
  · rintro ⟨hp, i, hi, hh⟩
    rw [s.indexAt_view hp.1] at hi
    refine ⟨packState t.node live p i, mem_packStates.mpr ⟨p, ?_, i, hi, rfl⟩, rfl, ?_⟩
    · exact (s.mem_listPacks_view hps p).mpr hp
    · exact mem_toBTreeSet.mpr hh
  · rintro ⟨st, hst, rfl, hh⟩
    obtain ⟨p, hp, i, hi, rfl⟩ := mem_packStates.mp hst
    have hentry := (s.mem_listPacks_view hps p).mp hp
    refine ⟨hentry, i, ?_, mem_toBTreeSet.mp hh⟩
    exact (s.indexAt_view hentry.1).trans hi

theorem mem_hashes_iff {st : PackState} {h : Hash} (hst : st ∈ packStates t.node live ps) :
    h ∈ st.hashes ↔ s.Lists (s.view t) st.packPath h := by
  rw [lists_iff_packStates hps live]
  constructor
  · intro hh
    exact ⟨st, hst, rfl, hh⟩
  · rintro ⟨st', hst', hpath, hh⟩
    obtain ⟨p, -, i, hi, rfl⟩ := mem_packStates.mp hst
    obtain ⟨p', -, i', hi', rfl⟩ := mem_packStates.mp hst'
    obtain rfl : p' = p := hpath
    rw [hi] at hi'
    obtain rfl := Option.some.inj hi'
    exact hh

theorem garbage_ne_nil_iff {st : PackState} (hst : st ∈ packStates t.node live ps) :
    st.garbage ≠ [] ↔ s.HasGarbage (s.view t) live st.packPath := by
  have hgarbage : st.garbage = st.hashes.filter (· ∉ live) := by
    obtain ⟨p, -, i, -, rfl⟩ := mem_packStates.mp hst
    rfl
  rw [hgarbage, ne_eq, List.filter_eq_nil_iff]
  push Not
  unfold BlobStore.HasGarbage
  constructor
  · rintro ⟨h, hh, hg⟩
    exact ⟨h, by simpa using hg, (mem_hashes_iff hps hst).mp hh⟩
  · rintro ⟨h, hg, hh⟩
    exact ⟨h, (mem_hashes_iff hps hst).mpr hh, by simpa using hg⟩

include hloose

theorem mem_garbageSet {h : Hash} :
    h ∈ garbageSet live (toBTreeSet loose) (packStates t.node live ps) ↔
      s.Present (s.view t) h ∧ h ∉ live := by
  have hmem := (BlobStore.listBlobs_mem hloose).2 h
  have hlists : (∃ p, s.Lists (s.view t) p h) ↔
      ∃ st ∈ packStates t.node live ps, h ∈ st.hashes := by
    constructor
    · rintro ⟨p, hp⟩
      obtain ⟨st, hst, -, hh⟩ := (lists_iff_packStates hps live).mp hp
      exact ⟨st, hst, hh⟩
    · rintro ⟨st, hst, hh⟩
      exact ⟨st.packPath, (mem_hashes_iff hps hst).mp hh⟩
  simp [garbageSet, scannedSet, mem_toBTreeSet, hmem, BlobStore.Present, hlists]

theorem mem_initialCover_iff {h : Hash} :
    h ∈ initialCover (toBTreeSet loose) (garbageSet live (toBTreeSet loose)
      (packStates t.node live ps)) (packStates t.node live ps) ↔ s.Covered (s.view t) live h := by
  have hloosemem := (BlobStore.listBlobs_mem hloose).2 h
  rw [mem_initialCover, mem_garbageSet hloose hps, mem_toBTreeSet, hloosemem]
  unfold BlobStore.Covered
  constructor
  · rintro (⟨hn, hg⟩ | ⟨st, hst, hnone, hh⟩)
    · have hlive : h ∈ live := by
        by_contra hlive
        exact hg ⟨.inl hn, hlive⟩
      exact ⟨hlive, .inl hn⟩
    · have hlists := (mem_hashes_iff hps hst).mp hh
      have hhealthy : ¬ s.HasGarbage (s.view t) live st.packPath := by
        rw [← garbage_ne_nil_iff hps hst]
        exact not_not_intro hnone
      have hlive : h ∈ live := by
        by_contra hlive
        exact hhealthy ⟨h, hlive, hlists⟩
      exact ⟨hlive, .inr ⟨st.packPath, hlists, hhealthy⟩⟩
  · rintro ⟨hlive, hn | ⟨p, hlists, hhealthy⟩⟩
    · exact .inl ⟨hn, fun hg => hg.2 hlive⟩
    · obtain ⟨st, hst, rfl, hh⟩ := (lists_iff_packStates hps live).mp hlists
      refine .inr ⟨st, hst, ?_, hh⟩
      by_contra hne
      exact hhealthy ((garbage_ne_nil_iff hps hst).mp hne)

/-- What the pack after `pre` keeps. -/
theorem mem_uncovered_iff {pre post : List PackState} {st : PackState} {h : Hash}
    (hsplit : packStates t.node live ps = pre ++ st :: post) (hgarbage : st.garbage ≠ []) :
    h ∈ uncovered (garbageSet live (toBTreeSet loose) (packStates t.node live ps))
      (initialCover (toBTreeSet loose) (garbageSet live (toBTreeSet loose)
        (packStates t.node live ps)) (packStates t.node live ps)) pre st ↔
      s.Kept (s.view t) live st.packPath h := by
  have hst : st ∈ packStates t.node live ps := by
    rw [hsplit]
    simp
  have hbefore := fun q => mem_before_iff (b := q) (sorted_packStates live hps) hsplit
  rw [mem_uncovered, mem_initialCover_iff hloose hps, mem_garbageSet hloose hps,
    mem_hashes_iff hps hst]
  constructor
  · rintro ⟨hlists, hg, hcov, hfirst⟩
    have hlive : h ∈ live := by
      by_contra hlive
      exact hg ⟨.inr ⟨_, hlists⟩, hlive⟩
    refine ⟨(garbage_ne_nil_iff hps hst).mp hgarbage, hlists, hlive, hcov, ?_⟩
    intro q hq hqg hql
    obtain ⟨st', hst', rfl, hh⟩ := (lists_iff_packStates hps live).mp hql
    exact hfirst st' ((hbefore st').mpr ⟨hst', hq⟩) ((garbage_ne_nil_iff hps hst').mpr hqg) hh
  · rintro ⟨-, hlists, hlive, hcov, hfirst⟩
    refine ⟨hlists, fun hg => hg.2 hlive, hcov, ?_⟩
    intro q hq hqg hqh
    obtain ⟨hqmem, hlt⟩ := (hbefore q).mp hq
    exact hfirst q.packPath hlt ((garbage_ne_nil_iff hps hqmem).mp hqg)
      ((mem_hashes_iff hps hqmem).mp hqh)

end Translate

/-- Listing the sorted elements of a set that pass a test. -/
theorem sorted_toBTreeSet (l : List Hash) : (toBTreeSet l).Pairwise (· < ·) := by
  have hle : (toBTreeSet l).Pairwise (· ≤ ·) := List.pairwise_insertionSort _ _
  have hne : (toBTreeSet l).Nodup :=
    (List.perm_insertionSort _ _).nodup_iff.mpr (List.nodup_dedup l)
  exact (hle.and hne).imp fun ⟨h1, h2⟩ => lt_of_le_of_ne h1 h2

/-- Where planning succeeds, so does listing. -/
theorem listed_of_planSweep {plan : SweepPlan} (hplan : peek (planSweep s live) t = .ok plan) :
    ∃ loose ps, peek s.listBlobs t = .ok loose ∧
      peek (PackFile.listPacks s.packDir) t = .ok ps := by
  rw [planSweep, peek_bind s.listBlobs_reads] at hplan
  cases hloose : peek s.listBlobs t with
  | error e => rw [hloose] at hplan; cases hplan
  | ok loose =>
    rw [hloose] at hplan
    change peek (ioCas (PackFile.listPacks s.packDir) >>= _) t = _ at hplan
    rw [peek_bind (ioCas_reads (listPacks_reads _)), peek_ioCas] at hplan
    cases hps : peek (PackFile.listPacks s.packDir) t with
    | error e => rw [hps] at hplan; cases hplan
    | ok ps => exact ⟨loose, ps, rfl, rfl⟩

/-- The plan of a disk, from what listing it gave. -/
theorem planOf_of_planSweep {plan : SweepPlan} (hplan : peek (planSweep s live) t = .ok plan) :
    ∃ loose ps orphans bytes, peek s.listBlobs t = .ok loose ∧
      peek (PackFile.listPacks s.packDir) t = .ok ps ∧
      (∀ q, q ∈ orphans ↔ s.OrphanPack (s.view t) q ∨ s.OrphanIdx (s.view t) q) ∧
      plan = planOf live (toBTreeSet loose) (scanOf t.node live ps) orphans bytes := by
  obtain ⟨loose, ps, hloose, hps⟩ := listed_of_planSweep hplan
  obtain ⟨orphans, horphans, hpeek⟩ := peek_planSweep live hloose hps
  rw [hpeek] at hplan
  cases hbytes : peek (((toBTreeSet loose).filter (· ∈ garbageSet live (toBTreeSet loose)
      (packStates t.node live ps))).foldlM (addLooseBytes s) 0) t with
  | error e => rw [hbytes] at hplan; cases hplan
  | ok bytes =>
    rw [hbytes] at hplan
    exact ⟨loose, ps, orphans, bytes, hloose, hps, horphans, (Except.ok.inj hplan).symm⟩

/-- What the plan of a disk says about the store on it. -/
theorem planned {plan : SweepPlan} (hplan : peek (planSweep s live) t = .ok plan) :
    Planned s (s.view t) live plan := by
  obtain ⟨loose, ps, orphans, bytes, hloose, hps, horphans, rfl⟩ := planOf_of_planSweep hplan
  have hrewrite : ∀ r, r ∈ (planOf live (toBTreeSet loose) (scanOf t.node live ps) orphans
      bytes).packsToRewrite ↔ _ := fun r => mem_packsToRewrite
  constructor
  · intro h
    have hmem := (BlobStore.listBlobs_mem hloose).2 h
    simp only [planOf, List.mem_filter, mem_toBTreeSet, decide_eq_true_eq, hmem]
    rw [show (scanOf t.node live ps).packs = packStates t.node live ps from rfl,
      mem_garbageSet hloose hps]
    constructor
    · rintro ⟨hn, -, hg⟩
      exact ⟨hn, hg⟩
    · rintro ⟨hn, hg⟩
      exact ⟨hn, .inl hn, hg⟩
  · exact horphans
  · intro p
    refine (@mem_packsToRemove _ _ _ p).trans ?_
    constructor
    · rintro ⟨pre, st, post, hsplit, hg, rfl, hnil⟩
      have hst : st ∈ packStates t.node live ps := by
        rw [show packStates t.node live ps = pre ++ st :: post from hsplit]
        simp
      refine ⟨(garbage_ne_nil_iff hps hst).mp hg, fun h hk => ?_⟩
      have := (mem_uncovered_iff hloose hps hsplit hg).mpr hk
      exact absurd (hnil ▸ this) List.not_mem_nil
    · rintro ⟨hg, hnone⟩
      obtain ⟨g, hgl, hlists⟩ := hg
      obtain ⟨st, hst, rfl, hh⟩ := (lists_iff_packStates hps live).mp hlists
      obtain ⟨pre, post, hsplit⟩ := List.append_of_mem hst
      have hgarbage := (garbage_ne_nil_iff hps hst).mpr ⟨g, hgl, hlists⟩
      refine ⟨pre, st, post, hsplit, hgarbage, rfl, List.eq_nil_iff_forall_not_mem.mpr ?_⟩
      intro h hmem
      exact hnone h ((mem_uncovered_iff hloose hps hsplit hgarbage).mp hmem)
  · intro r hr h
    obtain ⟨pre, st, post, hsplit, hg, -, rfl⟩ := (hrewrite r).mp hr
    exact mem_uncovered_iff hloose hps hsplit hg
  · intro r hr
    obtain ⟨pre, st, post, -, -, hne, -⟩ := (hrewrite r).mp hr
    exact hne
  · intro r hr
    obtain ⟨pre, st, post, hsplit, -, -, rfl⟩ := (hrewrite r).mp hr
    have hst : st ∈ packStates t.node live ps := by
      rw [show packStates t.node live ps = pre ++ st :: post from hsplit]
      simp
    obtain ⟨p, -, i, -, rfl⟩ := mem_packStates.mp hst
    exact (sorted_toBTreeSet i.hashes).filter _
  · intro p h hk
    obtain ⟨st, hst, rfl, hh⟩ := (lists_iff_packStates hps live).mp hk.lists
    obtain ⟨pre, post, hsplit⟩ := List.append_of_mem hst
    have hgarbage := (garbage_ne_nil_iff hps hst).mpr hk.garbage
    have hmem := (mem_uncovered_iff hloose hps hsplit hgarbage).mpr hk
    refine ⟨⟨st.packPath, _⟩, (hrewrite _).mpr ⟨pre, st, post, hsplit, hgarbage, ?_, rfl⟩, rfl⟩
    exact List.ne_nil_of_mem hmem
  · show (garbageSet live (toBTreeSet loose) (packStates t.node live ps)).card = 0 ↔ _
    rw [Finset.card_eq_zero, Finset.eq_empty_iff_forall_notMem]
    refine forall_congr' fun h => ?_
    rw [mem_garbageSet hloose hps]
    tauto

/-- Planning succeeds where nothing is in the way and no loose blob is garbage. -/
theorem planSweep_ok (hdirs : bytesAt (s.view t) s.objectsDir = none ∧
      bytesAt (s.view t) s.packDir = none)
    (hlive : ∀ h, s.NamedLoose (s.view t) h → h ∈ live) :
    ∃ plan, peek (planSweep s live) t = .ok plan := by
  have hobjects : t.file s.objectsDir = none := by
    rw [← hdirs.1, bytesAt_congr (s.view_of_prefix List.prefix_rfl), bytesAt_node]
  have hpackDir : t.file s.packDir = none := by
    rw [← hdirs.2, bytesAt_congr (s.view_packDir t), bytesAt_node]
  obtain ⟨loose, hloose, hmem⟩ : ∃ loose, peek s.listBlobs t = .ok loose ∧
      ∀ h, h ∈ loose ↔ s.NamedLoose (s.view t) h :=
    ⟨_, s.peek_listBlobs hobjects, (BlobStore.listBlobs_mem (s.peek_listBlobs hobjects)).2⟩
  obtain ⟨ps, hps⟩ := (listPacks_ok_iff s.packDir_ne_nil).mpr hpackDir
  obtain ⟨orphans, -, hpeek⟩ := peek_planSweep live hloose hps
  have hnone : (toBTreeSet loose).filter (· ∈ garbageSet live (toBTreeSet loose)
      (packStates t.node live ps)) = [] := by
    refine List.filter_eq_nil_iff.mpr fun h hh => ?_
    rw [decide_eq_true_eq, mem_garbageSet hloose hps]
    exact fun hg => hg.2 (hlive h ((hmem h).mp (mem_toBTreeSet.mp hh)))
  rw [hnone] at hpeek
  exact ⟨_, hpeek⟩

end Plan

end Gc
end CasKit
