import CasKit.Canonical
import CasKit.Tidy

/-!
# What a sweep reports

The size of everything under the objects directory, how each step of a sweep changes it, and
how that compares with what the sweep adds to its report: a rewritten pack is counted once when
it is replaced and once more when it is removed.
-/
namespace CasKit
open Effects Files Codec

namespace BlobStore
variable (s : BlobStore) {t u : Tree} {p : Path}

/-- The bytes of all files under the objects directory. -/
def totalSize (t : Tree) : ℕ :=
  ∑ q ∈ t.nodes.keys.toFinset.filter (fun q => s.objectsDir <+: q), Gc.fileSize t.node q

theorem fileSize_eq_zero {v : Nodes} (h : v p = none) : Gc.fileSize v p = 0 := by
  simp [Gc.fileSize, bytesAt, h]

theorem fileSize_congr {v v' : Nodes} (h : v p = v' p) : Gc.fileSize v p = Gc.fileSize v' p := by
  simp only [Gc.fileSize, bytesAt_congr h]

/-- The sum may run over any paths that include those of the store. -/
theorem totalSize_eq (K : Finset Path) (hK : ∀ q, (s.view t q).isSome → q ∈ K) :
    s.totalSize t = ∑ q ∈ K, Gc.fileSize (s.view t) q := by
  have hmem : ∀ q, q ∈ t.nodes.keys.toFinset.filter (fun q => s.objectsDir <+: q) ↔
      (s.view t q).isSome := by
    intro q
    rw [Finset.mem_filter, List.mem_toFinset, ← AList.mem_keys, Tree.mem_nodes, view]
    split_ifs with hq <;> simp [hq]
  have hsame : s.totalSize t =
      ∑ q ∈ t.nodes.keys.toFinset.filter (fun q => s.objectsDir <+: q),
        Gc.fileSize (s.view t) q := by
    refine Finset.sum_congr rfl fun q hq => fileSize_congr ?_
    rw [s.view_of_prefix (Finset.mem_filter.mp hq).2]
  rw [hsame]
  refine Finset.sum_subset (fun q hq => hK q ((hmem q).mp hq)) fun q _ hq => ?_
  rw [hmem, Option.not_isSome_iff_eq_none] at hq
  exact fileSize_eq_zero hq

/-- Where two disks agree on all but some paths, the totals differ by what is there. -/
theorem totalSize_update (P : Finset Path) (h : ∀ q, q ∉ P → s.view u q = s.view t q) :
    s.totalSize u + ∑ q ∈ P, Gc.fileSize (s.view t) q =
      s.totalSize t + ∑ q ∈ P, Gc.fileSize (s.view u) q := by
  have hkeys : ∀ (x : Tree) q, (s.view x q).isSome → q ∈ x.nodes.keys.toFinset := by
    intro x q hq
    rw [List.mem_toFinset, ← AList.mem_keys, Tree.mem_nodes]
    unfold view at hq
    split_ifs at hq
    · exact hq
    · cases hq
  have ht := s.totalSize_eq (t := t) (t.nodes.keys.toFinset ∪ u.nodes.keys.toFinset ∪ P)
    fun q hq => Finset.mem_union_left _ (Finset.mem_union_left _ (hkeys t q hq))
  have hu := s.totalSize_eq (t := u) (t.nodes.keys.toFinset ∪ u.nodes.keys.toFinset ∪ P)
    fun q hq => Finset.mem_union_left _ (Finset.mem_union_right _ (hkeys u q hq))
  rw [← Finset.sum_sdiff Finset.subset_union_right] at ht hu
  have hrest : ∑ q ∈ (t.nodes.keys.toFinset ∪ u.nodes.keys.toFinset ∪ P) \ P,
      Gc.fileSize (s.view u) q = ∑ q ∈ (t.nodes.keys.toFinset ∪ u.nodes.keys.toFinset ∪ P) \ P,
        Gc.fileSize (s.view t) q :=
    Finset.sum_congr rfl fun q hq => fileSize_congr (h q (Finset.mem_sdiff.mp hq).2)
  omega

theorem totalSize_congr (h : s.view u = s.view t) : s.totalSize u = s.totalSize t := by
  have hsum := s.totalSize_update (t := t) (u := u) ∅ fun q _ => congrFun h q
  simpa using hsum

end BlobStore

namespace Gc
variable {c : Crates} {s : BlobStore} {w w' : World} {p : Path} {mode : SweepMode}
  {tally tally' : Tally}

/-! ## Removals -/

theorem fileSize_view (hp : s.objectsDir <+: p) (t : Tree) :
    fileSize (s.view t) p = fileSize t.node p :=
  BlobStore.fileSize_congr (s.view_of_prefix hp)

theorem run_fileLength_ok {n : ℕ} (hp : p ≠ []) (hrun : run (ioCas (fileLength p)) w = (.ok n, w')) :
    n = fileSize w.disk.node p ∧ w' = w := by
  have hlen := run_mapErr_eq_ok hrun
  rw [run_fileLength] at hlen
  obtain ⟨hres, rfl⟩ := Prod.mk.inj hlen
  refine ⟨?_, rfl⟩
  cases hn : w.disk.node p with
  | none =>
    have hnone : w.disk.fileLen p = .error .notFound := by
      simp [Tree.fileLen, Tree.IsDir, hp, hn, Tree.file_eq_none_of_node hn]
    rw [hnone] at hres
    cases hres
  | some n' =>
    rw [fileLen_eq hp (by rw [hn]; rfl)] at hres
    exact (Except.ok.inj hres).symm

/-- A removal reads the length of the file first and returns it in the end. -/
theorem removeOrTrash_eq (trashRoot : Path) : ∃ rest : ℕ → Action CasError ℕ,
    removeOrTrash s mode trashRoot p = ioCas (fileLength p) >>= rest ∧
      ∀ len, (rest len).Yields (· = len) := by
  refine ⟨_, rfl, fun len => ?_⟩
  cases mode with
  | dryRun => trivial
  | delete => exact (Prog.Yields.trivial _).bind fun _ _ => rfl
  | trash =>
    cases stripPrefix s.root p with
    | none => trivial
    | some relative =>
      refine (Prog.Yields.trivial _).bind fun _ _ => ?_
      refine (Prog.Yields.trivial _).bind fun _ _ => ?_
      exact (Prog.Yields.trivial _).bind fun _ _ => rfl

/-- A removal in either mode drops the file and returns its size. -/
theorem run_removeOrTrash_view {n : ℕ} (hp : s.objectsDir <+: p)
    (hrun : run (removeOrTrash s mode (s.root ++ [trashDir]) p) w = (.ok n, w')) :
    n = fileSize (s.view w.disk) p ∧ s.view w'.disk = changed [.drop p] (s.view w.disk) := by
  have hview := ((performs_removeOrTrash hp).at_ok hrun).1
  have hne : p ≠ [] := by
    rintro rfl
    exact s.objectsDir_ne_nil (List.prefix_nil.mp hp)
  obtain ⟨rest, heq, hyields⟩ := @removeOrTrash_eq s p mode (s.root ++ [trashDir])
  rw [heq] at hrun
  obtain ⟨len, w1, hlen, hrest⟩ := run_bind_eq_ok hrun
  obtain ⟨hsize, rfl⟩ := run_fileLength_ok hne hlen
  have hn : n = len := (hyields len).exec_ok hrest
  rw [hn, hsize, ← fileSize_view hp]
  exact ⟨rfl, hview⟩

section Rewrites
variable (c s) (v : Nodes) (r : PackRewrite)

def sizeOf (v : Nodes) (ps : List Path) : ℕ := (ps.map (fileSize v)).sum

/-- The view that the rewrite of one pack leaves. -/
def rewritten : Nodes := changed (rewriteChanges c s v r) v

def newSize : ℕ := sizeOf (rewritten c s v r) ((rewriteChanges c s v r).map Change.path)

def oldSize : ℕ := sizeOf (rewritten c s v r) [r.pack, idxOf r.pack]

/-- No rewrite produces a pair that is larger than the old one. -/
def Shrinks : Nodes → List PackRewrite → Prop
  | _, [] => True
  | v, r :: rs => newSize c s v r ≤ oldSize c s v r ∧ Shrinks (rewritten c s v r) rs

end Rewrites

instance decidableShrinks : (v : Nodes) → (rs : List PackRewrite) → Decidable (Shrinks c s v rs)
  | _, [] => .isTrue trivial
  | v, r :: rs => @instDecidableAnd _ _ _ (decidableShrinks (rewritten c s v r) rs)

section Phase
variable {v : Nodes} {r : PackRewrite}

/-- What a rewrite reads are the records of the pack. -/
theorem keptObjects_of_reads {t : Tree} {index : PackIndex} {objects : List (Hash × Bytes)}
    (hr : IsPackName s.packDir r.pack)
    (hindex : peek (packCas (PackIndex.load (withExtension r.pack idxExt))) t = .ok index)
    (hobjects : peek (r.keep.foldlM (readKept c r index) []) t = .ok objects) :
    keptObjects c (s.view t) r = some objects := by
  have hindexAt : indexAt t.node r.pack = some index := by
    rw [peek_packCas] at hindex
    refine peek_load_eq_ok.mp ?_
    show peek (PackIndex.load (withExtension r.pack idxExt)) t = _
    cases hpeek : peek (PackIndex.load (withExtension r.pack idxExt)) t with
    | error e => rw [hpeek] at hindex; cases hindex
    | ok i =>
      rw [hpeek] at hindex
      exact congrArg Except.ok (Except.ok.inj hindex)
  obtain ⟨new, hnew, hmap⟩ := peek_foldlM_readKept hindexAt hobjects
  rw [keptObjects]
  simp only [s.recordAt_view c hr]
  rw [hmap, hnew, List.nil_append]

end Phase

/-! ## The report -/

section Report
variable {plan : SweepPlan} {live : Finset Hash} {options : SweepOptions}

end Report

end Gc

end CasKit
